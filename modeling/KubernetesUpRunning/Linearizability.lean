import Mathlib.Data.List.Nodup
import Mathlib.Data.List.Perm.Basic

/-! # Operations that take effect at a point in time

    A completed operation has begun and ended.  An order of completed operations
    respects real time if none comes after one that began when it had ended, and
    it is legal if a sequential object can give all the results in that order.
    Each operation has a point between its begin and its end at which it takes
    effect; the order of these points respects real time.  A slot of a timeline
    holds an operation at the point where it took effect and, before it, those
    that ended later but worked on a part that it had closed: they take effect
    right before it. -/

namespace Linearizability

variable {A C K R : Type}

/-- A completed operation: when it began and ended, what was called, and what
    came back. -/
structure Done (C R : Type) where
  began : Nat
  ended : Nat
  call : C
  result : R

/-- No operation comes after one that began when it had ended. -/
def RealTime (order : List (Done C R)) : Prop :=
  order.Pairwise fun d e => ¬ e.ended < d.began

/-- The sequential object gives these results, one after the other. -/
inductive Legal (obj : A → C → R → A → Prop) : A → List (Done C R) → A → Prop
  | nil (a : A) : Legal obj a [] a
  | cons {a b c : A} {d : Done C R} {ds : List (Done C R)}
      (h : obj a d.call d.result b) (hs : Legal obj b ds c) :
      Legal obj a (d :: ds) c

variable {obj : A → C → R → A → Prop} {a b c : A}

theorem legal_append {ds es : List (Done C R)} (h : Legal obj a ds b)
    (h' : Legal obj b es c) : Legal obj a (ds ++ es) c := by
  induction h with
  | nil => exact h'
  | cons hd _ ih => exact .cons hd (ih h')

/-- A legal order passes through a state wherever it is cut. -/
theorem legal_split {ds es : List (Done C R)} (h : Legal obj a (ds ++ es) c) :
    ∃ b, Legal obj a ds b ∧ Legal obj b es c := by
  induction ds generalizing a with
  | nil => exact ⟨a, .nil a, h⟩
  | cons d ds ih =>
      cases h with
      | cons hd hs =>
          obtain ⟨b, hds, hes⟩ := ih hs
          exact ⟨b, .cons hd hds, hes⟩

theorem legal_snoc {ds : List (Done C R)} {d : Done C R}
    (h : Legal obj a ds b) (hd : obj b d.call d.result c) :
    Legal obj a (ds ++ [d]) c :=
  legal_append h (.cons hd (.nil c))

/-- The completed operations can be put into an order that respects real time
    and in which the object, from `a` on, gives all their results. -/
def LinearizedBy (obj : A → C → R → A → Prop) (a : A)
    (done order : List (Done C R)) : Prop :=
  order.Perm done ∧ RealTime order ∧ ∃ b, Legal obj a order b

/-! ## Timelines -/

/-- What took effect at one time: an operation, the part that it closed, and
    before it those that worked on that part later. -/
structure Slot (K C R : Type) where
  time : Nat
  closes : Option K
  late : List (Done C R)
  own : Done C R

/-- The operations of a slot, in order. -/
def Slot.ops (s : Slot K C R) : List (Done C R) := s.late ++ [s.own]

/-- The operations of a timeline, in order. -/
def order (t : List (Slot K C R)) : List (Done C R) := t.flatMap Slot.ops

/-- The times go up, and every operation takes effect between its begin and its
    end. -/
structure Timed (t : List (Slot K C R)) : Prop where
  sorted : t.Pairwise fun s s' => s.time ≤ s'.time
  within : ∀ s ∈ t, ∀ d ∈ s.ops, d.began ≤ s.time ∧ s.time ≤ d.ended

/-- Operations that take effect one after the other respect real time. -/
theorem realTime_order {t : List (Slot K C R)} (h : Timed t) :
    RealTime (order t) := by
  obtain ⟨hsorted, hwithin⟩ := h
  induction t with
  | nil => exact List.Pairwise.nil
  | cons s t ih =>
      rw [List.pairwise_cons] at hsorted
      have hrest : RealTime (order t) :=
        ih hsorted.2 fun s' hs' => hwithin s' (List.mem_cons_of_mem _ hs')
      show (s.ops ++ order t).Pairwise _
      rw [List.pairwise_append]
      refine ⟨?_, hrest, ?_⟩
      · refine List.Pairwise.imp_of_mem ?_
          (List.pairwise_of_forall (R := fun _ _ => True) fun _ _ => trivial)
        intro d e hd he _
        obtain ⟨hbegan, -⟩ := hwithin s List.mem_cons_self d hd
        obtain ⟨-, hended⟩ := hwithin s List.mem_cons_self e he
        omega
      · intro d hd e he
        obtain ⟨s', hs', he'⟩ := List.mem_flatMap.mp he
        obtain ⟨hbegan, -⟩ := hwithin s List.mem_cons_self d hd
        obtain ⟨-, hended⟩ := hwithin s' (List.mem_cons_of_mem _ hs') e he'
        have htime := hsorted.1 s' hs'
        omega

/-! ## An operation that takes effect now -/

/-- The operations of a timeline that goes on. -/
theorem order_snoc (t : List (Slot K C R)) (s : Slot K C R) :
    order (t ++ [s]) = order t ++ s.ops := by
  simp [order]

theorem timed_snoc {t : List (Slot K C R)} {s : Slot K C R} (h : Timed t)
    (hpast : ∀ s' ∈ t, s'.time ≤ s.time)
    (hs : ∀ d ∈ s.ops, d.began ≤ s.time ∧ s.time ≤ d.ended) :
    Timed (t ++ [s]) := by
  constructor
  · rw [List.pairwise_append]
    refine ⟨h.sorted, List.pairwise_singleton _ _, ?_⟩
    intro s₁ hs₁ s₂ hs₂
    rw [List.mem_singleton.mp hs₂]
    exact hpast s₁ hs₁
  · intro s' hs'
    rcases List.mem_append.mp hs' with ht | he
    · exact h.within s' ht
    · rw [List.mem_singleton.mp he]
      exact hs

/-! ## An operation on a part that was closed -/

section Late

variable [DecidableEq K]

/-- `d` takes effect before the operation of the slot, if that closed `k`. -/
def Slot.receive (k : K) (d : Done C R) (s : Slot K C R) : Slot K C R :=
  if s.closes = some k then { s with late := s.late ++ [d] } else s

/-- `d`, which worked on `k`, takes effect before the operation that closed
    it. -/
def receive (k : K) (d : Done C R) (t : List (Slot K C R)) :
    List (Slot K C R) :=
  t.map (Slot.receive k d)

@[simp] theorem time_receive (k : K) (d : Done C R) (s : Slot K C R) :
    (s.receive k d).time = s.time := by
  rw [Slot.receive]
  split <;> rfl

@[simp] theorem closes_receive (k : K) (d : Done C R) (s : Slot K C R) :
    (s.receive k d).closes = s.closes := by
  rw [Slot.receive]
  split <;> rfl

@[simp] theorem own_receive (k : K) (d : Done C R) (s : Slot K C R) :
    (s.receive k d).own = s.own := by
  rw [Slot.receive]
  split <;> rfl

theorem receive_of_ne {k : K} {d : Done C R} {s : Slot K C R}
    (h : s.closes ≠ some k) : s.receive k d = s := if_neg h

/-- Every slot of the new timeline stands for one of the old. -/
theorem mem_receive {k : K} {d : Done C R} {t : List (Slot K C R)}
    {s' : Slot K C R} (h : s' ∈ receive k d t) :
    ∃ s ∈ t, s' = s.receive k d := by
  obtain ⟨s, hs, rfl⟩ := List.mem_map.mp h
  exact ⟨s, hs, rfl⟩

theorem closes_receive_all (k : K) (d : Done C R) (t : List (Slot K C R)) :
    (receive k d t).filterMap Slot.closes = t.filterMap Slot.closes := by
  rw [receive]
  rw [List.filterMap_map]
  congr 1
  funext s
  exact closes_receive k d s

theorem timed_receive {k : K} {d : Done C R} {t : List (Slot K C R)}
    (h : Timed t) (hended : ∀ s ∈ t, s.time ≤ d.ended)
    (hbegan : ∀ s ∈ t, s.closes = some k → d.began ≤ s.time) :
    Timed (receive k d t) := by
  constructor
  · rw [receive]
    rw [List.pairwise_map]
    simpa using h.sorted
  · intro s' hs' e he
    obtain ⟨s, hs, rfl⟩ := mem_receive hs'
    rw [time_receive]
    by_cases hk : s.closes = some k
    · rw [Slot.receive, if_pos hk] at he
      have he' : (e ∈ s.late ∨ e = d) ∨ e = s.own := by
        simpa [Slot.ops, or_assoc] using he
      rcases he' with (hlate | rfl) | hown
      · exact h.within s hs e (List.mem_append_left _ hlate)
      · exact ⟨hbegan s hs hk, hended s hs⟩
      · refine h.within s hs e (List.mem_append_right _ ?_)
        rw [hown]
        exact List.mem_singleton_self _
    · rw [receive_of_ne hk] at he
      exact h.within s hs e he

/-- A timeline on which the part was not closed stays as it is. -/
theorem receive_of_notMem {k : K} {d : Done C R} {t : List (Slot K C R)}
    (h : k ∉ t.filterMap Slot.closes) : receive k d t = t := by
  have hid : ∀ s ∈ t, s.receive k d = s := by
    intro s hs
    refine receive_of_ne ?_
    intro hk
    exact h (List.mem_filterMap.mpr ⟨s, hs, hk⟩)
  exact (List.map_congr_left hid).trans (List.map_id t)

/-- The order gains the late operation, once. -/
theorem order_receive {k : K} {d : Done C R} {t : List (Slot K C R)}
    (honce : (t.filterMap Slot.closes).Nodup)
    (hk : k ∈ t.filterMap Slot.closes) :
    (order (receive k d t)).Perm (d :: order t) := by
  induction t with
  | nil => exact absurd hk List.not_mem_nil
  | cons s t ih =>
      show ((s.receive k d).ops ++ order (receive k d t)).Perm
        (d :: (s.ops ++ order t))
      by_cases hs : s.closes = some k
      · -- the slot that closed it: no later one did
        rw [List.filterMap_cons_some hs, List.nodup_cons] at honce
        rw [receive_of_notMem honce.1, Slot.receive, if_pos hs]
        have hops : (s.late ++ [d] ++ [s.own]).Perm (d :: s.ops) := by
          rw [List.append_assoc]
          exact List.perm_middle
        exact hops.append_right (order t)
      · rw [receive_of_ne hs]
        have hrest : k ∈ t.filterMap Slot.closes := by
          obtain ⟨s', hs', hk'⟩ := List.mem_filterMap.mp hk
          rcases List.mem_cons.mp hs' with rfl | hs'
          · exact absurd hk' hs
          · exact List.mem_filterMap.mpr ⟨s', hs', hk'⟩
        have honce' : (t.filterMap Slot.closes).Nodup := by
          cases hc : s.closes with
          | none => rwa [List.filterMap_cons_none hc] at honce
          | some j =>
              rw [List.filterMap_cons_some hc, List.nodup_cons] at honce
              exact honce.2
        exact ((ih honce' hrest).append_left s.ops).trans List.perm_middle

end Late

/-! ## Legal timelines -/

/-- The slots are legal one after the other, and right before a part is closed
    the state shows what the part has come to hold: `shows k b`. -/
inductive LegalSlots (obj : A → C → R → A → Prop) (shows : K → A → Prop) :
    A → List (Slot K C R) → A → Prop
  | nil (a : A) : LegalSlots obj shows a [] a
  | cons {a b c e : A} {s : Slot K C R} {t : List (Slot K C R)}
      (hlate : Legal obj a s.late b) (hshows : ∀ k, s.closes = some k → shows k b)
      (hown : obj b s.own.call s.own.result c)
      (hs : LegalSlots obj shows c t e) : LegalSlots obj shows a (s :: t) e

variable {shows shows' : K → A → Prop} {t : List (Slot K C R)}

theorem legal_order (h : LegalSlots obj shows a t b) : Legal obj a (order t) b := by
  induction h with
  | nil a => exact .nil a
  | cons hlate _ hown _ ih => exact legal_append (legal_snoc hlate hown) ih

theorem legalSlots_snoc {s : Slot K C R} (h : LegalSlots obj shows a t b)
    (hlate : s.late = []) (hshows : ∀ k, s.closes = some k → shows k b)
    (hown : obj b s.own.call s.own.result c) :
    LegalSlots obj shows a (t ++ [s]) c := by
  induction h with
  | nil a =>
      refine .cons ?_ hshows hown (.nil c)
      rw [hlate]
      exact .nil a
  | cons hl hsh ho _ ih => exact .cons hl hsh ho (ih hshows hown)

/-- What the closed parts hold may be told in another way. -/
theorem legalSlots_mono (h : LegalSlots obj shows a t b)
    (hmono : ∀ k ∈ t.filterMap Slot.closes, ∀ b, shows k b → shows' k b) :
    LegalSlots obj shows' a t b := by
  induction h with
  | nil a => exact .nil a
  | @cons a b c e s t hl hsh ho _ ih =>
      refine .cons hl ?_ ho (ih ?_)
      · intro k hk
        exact hmono k (List.mem_filterMap.mpr ⟨s, List.mem_cons_self, hk⟩) b
          (hsh k hk)
      · intro k hk
        obtain ⟨s', hs', hk'⟩ := List.mem_filterMap.mp hk
        exact hmono k (List.mem_filterMap.mpr
          ⟨s', List.mem_cons_of_mem _ hs', hk'⟩)

/-- **LATE OPERATIONS**.  If the object can do `d` where the closed part `k`
    shows, the operation that closes `k` does not see the difference, and the
    other closed parts hold what they held, `d` can take effect right before
    `k` is closed. -/
theorem legalSlots_receive [DecidableEq K] {k : K} {d : Done C R}
    (h : LegalSlots obj shows a t b)
    (hother : ∀ j, j ≠ k → ∀ b, shows j b → shows' j b)
    (hlate : ∀ s ∈ t, s.closes = some k → ∀ b c, shows k b →
      obj b s.own.call s.own.result c →
      ∃ b', obj b d.call d.result b' ∧ shows' k b'
        ∧ obj b' s.own.call s.own.result c) :
    LegalSlots obj shows' a (receive k d t) b := by
  induction h with
  | nil a => exact .nil a
  | @cons a b c e s t hl hsh ho _ ih =>
      have hrest : LegalSlots obj shows' c (receive k d t) e :=
        ih fun s' hs' => hlate s' (List.mem_cons_of_mem _ hs')
      show LegalSlots obj shows' a (s.receive k d :: receive k d t) e
      by_cases hs : s.closes = some k
      · obtain ⟨b', hd, hk, ho'⟩ :=
          hlate s List.mem_cons_self hs b c (hsh k hs) ho
        rw [Slot.receive, if_pos hs]
        refine .cons (legal_snoc hl hd) ?_ ho' hrest
        intro j hj
        obtain rfl : k = j := Option.some.inj (hs.symm.trans hj)
        exact hk
      · rw [receive_of_ne hs]
        refine .cons hl ?_ ho hrest
        intro j hj
        refine hother j ?_ b (hsh j hj)
        rintro rfl
        exact hs hj

/-! ## Operations around others -/

section Around

variable {C' R' : Type} {obj' : A → C' → R' → A → Prop}

/-- `e` goes on around `d`: it begins no later and ends no earlier, and
    whatever the object may do as `d`, the other object may do as `e`. -/
structure Around (obj : A → C → R → A → Prop) (obj' : A → C' → R' → A → Prop)
    (d : Done C R) (e : Done C' R') : Prop where
  began : e.began ≤ d.began
  ended : d.ended ≤ e.ended
  answers : ∀ a b, obj a d.call d.result b → obj' a e.call e.result b

/-- An order that respects real time does so for what goes on around it. -/
theorem realTime_around {w : List (Done C R × Done C' R')}
    (h : RealTime (w.map Prod.fst))
    (hw : ∀ p ∈ w, Around obj obj' p.1 p.2) : RealTime (w.map Prod.snd) := by
  rw [RealTime, List.pairwise_map] at h ⊢
  refine h.imp_of_mem ?_
  intro p q hp hq hpq hlt
  have hbegan := (hw p hp).began
  have hended := (hw q hq).ended
  exact hpq (by omega)

theorem legal_around {w : List (Done C R × Done C' R')} {a b : A}
    (h : Legal obj a (w.map Prod.fst) b)
    (hw : ∀ p ∈ w, Around obj obj' p.1 p.2) :
    Legal obj' a (w.map Prod.snd) b := by
  induction w generalizing a with
  | nil =>
      cases h
      exact .nil _
  | cons p w ih =>
      cases h with
      | cons hd hs =>
          exact .cons ((hw p List.mem_cons_self).answers _ _ hd)
            (ih hs fun q hq => hw q (List.mem_cons_of_mem _ hq))

/-- **SEEN FROM AROUND**: what goes on around operations that can be put into
    an order can be put into the same order. -/
theorem linearizedBy_around {w : List (Done C R × Done C' R')} {a : A}
    {done order : List (Done C R)} (h : LinearizedBy obj a done order)
    (hdone : done.Perm (w.map Prod.fst))
    (hw : ∀ p ∈ w, Around obj obj' p.1 p.2) :
    ∃ order', LinearizedBy obj' a (w.map Prod.snd) order' := by
  obtain ⟨hperm, htime, b, hlegal⟩ := h
  have hcomp : Relation.Comp (fun l w => l = List.map Prod.fst w) List.Perm
      order w := by
    rw [List.eq_map_comp_perm]
    exact hperm.trans hdone
  obtain ⟨w', rfl, hw'⟩ := hcomp
  have haround : ∀ p ∈ w', Around obj obj' p.1 p.2 :=
    fun p hp => hw p (hw'.mem_iff.mp hp)
  exact ⟨w'.map Prod.snd, hw'.map Prod.snd, realTime_around htime haround, b,
    legal_around hlegal haround⟩

end Around

end Linearizability
