import Mathlib.Data.List.Basic

/-! # Lexical paths — cleaning and joining

    Go's `path.Clean` and `path.Join`, over any alphabet with a slash and a
    dot.  A path is split at its slashes and its components are pushed on a
    stack, whose top is the last component.  What `..` does to a stack that
    already holds something is the frame rule `walk_eq`: a walk rewrites only
    as much of the stack below as it climbs out of. -/

namespace LexicalPath

/-- The two characters that a path gives a meaning to. -/
structure Marks (α : Type) where
  slash : α
  dot : α

variable {α : Type} [DecidableEq α] (m : Marks α)

/-- The component `.`. -/
def Marks.here : List α := [m.dot]

/-- The component `..`. -/
def Marks.up : List α := [m.dot, m.dot]

/-- What lies between the slashes. -/
def comps (p : List α) : List (List α) := p.splitOn m.slash

/-- One component: `..` takes the last name away.  Where there is none, it is
    dropped in a rooted path and kept in a relative one. -/
def push (rooted : Bool) (stack : List (List α)) (c : List α) :
    List (List α) :=
  if c = [] ∨ c = m.here then stack
  else if c = m.up then
    match stack with
    | [] => if rooted then [] else [c]
    | top :: rest => if top = m.up then c :: top :: rest else rest
  else c :: stack

/-- All components in turn. -/
def walk (rooted : Bool) (stack : List (List α)) (cs : List (List α)) :
    List (List α) := cs.foldl (push m rooted) stack

/-- The components with slashes between them. -/
def unsplit (cs : List (List α)) : List α := [m.slash].intercalate cs

/-- `path.Clean` and, on Unix, `filepath.Clean`. -/
def clean (p : List α) : List α :=
  if p.head? = some m.slash then
    m.slash :: unsplit m (walk m true [] (comps m p)).reverse
  else
    let out := unsplit m (walk m false [] (comps m p)).reverse
    if out = [] then m.here else out

/-- `path.Join`. -/
def join (elems : List (List α)) : List α :=
  match elems.dropWhile (· = []) with
  | [] => []
  | es => clean m (unsplit m es)

/-- A component that is neither empty nor `.` nor `..`. -/
def Name (c : List α) : Prop := c ≠ [] ∧ c ≠ m.here ∧ c ≠ m.up

/-- How many times a walk that starts `depth` components deep climbs out of
    where it started. -/
def climbs : Nat → List (List α) → Nat
  | _, [] => 0
  | depth, c :: cs =>
      if c = [] ∨ c = m.here then climbs depth cs
      else if c = m.up then
        match depth with
        | 0 => climbs 0 cs + 1
        | depth + 1 => climbs depth cs
      else climbs (depth + 1) cs

/-! ## Splitting -/

/-- The components around a slash. -/
@[simp] theorem comps_append_slash (p q : List α) :
    comps m (p ++ m.slash :: q) = comps m p ++ comps m q :=
  List.splitOn_append_cons_self p q

/-- A path that starts at the root has an empty first component. -/
@[simp] theorem comps_slash (p : List α) :
    comps m (m.slash :: p) = [] :: comps m p := by
  simpa [comps] using comps_append_slash m [] p

/-- The empty path has one component. -/
@[simp] theorem comps_nil : comps m [] = [[]] := List.splitOn_nil _

/-- Without a slash there is one component. -/
theorem comps_of_notMem {c : List α} (h : m.slash ∉ c) : comps m c = [c] :=
  List.splitOn_eq_singleton h

/-- Splitting what was put together. -/
theorem comps_unsplit {cs : List (List α)} (h : ∀ c ∈ cs, m.slash ∉ c)
    (hne : cs ≠ []) : comps m (unsplit m cs) = cs :=
  List.splitOn_intercalate m.slash h hne

omit [DecidableEq α] in
/-- Putting together in two parts. -/
theorem unsplit_append {cs ds : List (List α)} (hc : cs ≠ [])
    (hd : ds ≠ []) :
    unsplit m (cs ++ ds) = unsplit m cs ++ m.slash :: unsplit m ds := by
  induction cs with
  | nil => exact absurd rfl hc
  | cons c cs ih =>
      by_cases hcs : cs = []
      · subst hcs
        simp [unsplit, List.intercalate_cons_of_ne_nil hd]
      · have hi := ih hcs
        simp only [unsplit] at hi ⊢
        rw [List.cons_append, List.intercalate_cons_of_ne_nil (by simp [hcs]),
          List.intercalate_cons_of_ne_nil hcs, hi]
        simp

omit [DecidableEq α] in
/-- What is put together is made of the components and slashes. -/
theorem mem_of_mem_unsplit {cs : List (List α)} {a : α}
    (h : a ∈ unsplit m cs) : a = m.slash ∨ ∃ c ∈ cs, a ∈ c := by
  induction cs with
  | nil => cases h
  | cons c cs ih =>
      by_cases hcs : cs = []
      · subst hcs
        exact .inr ⟨c, by simp, by simpa [unsplit] using h⟩
      · simp only [unsplit] at h ih
        rw [List.intercalate_cons_of_ne_nil hcs] at h
        rcases List.mem_append.1 h with h | h
        · rcases List.mem_append.1 h with h | h
          · exact .inr ⟨c, by simp, h⟩
          · exact .inl (List.mem_singleton.1 h)
        · rcases ih h with h | ⟨d, hd, h⟩
          · exact .inl h
          · exact .inr ⟨d, by simp [hd], h⟩

/-- There is always a component. -/
theorem comps_ne_nil (p : List α) : comps m p ≠ [] :=
  List.splitOn_ne_nil m.slash p

/-- No component has a slash in it. -/
theorem slash_notMem_of_mem_comps {p c : List α} (h : c ∈ comps m p) :
    m.slash ∉ c := by
  induction p generalizing c with
  | nil =>
      obtain rfl : c = [] := by simpa using h
      simp
  | cons a p ih =>
      rw [comps, List.splitOn_cons_eq_if_modifyHead] at h
      by_cases ha : a = m.slash
      · rw [if_pos (by simpa using ha)] at h
        rcases List.mem_cons.1 h with rfl | h
        · simp
        · exact ih h
      · rw [if_neg (by simpa using ha)] at h
        obtain ⟨d, ds, hd⟩ := List.exists_cons_of_ne_nil (comps_ne_nil m p)
        rw [show List.splitOn m.slash p = d :: ds from hd,
          List.modifyHead_cons] at h
        rcases List.mem_cons.1 h with rfl | h
        · simp only [List.mem_cons, not_or]
          exact ⟨fun h' => ha h'.symm, ih (by simp [hd])⟩
        · exact ih (by simp [hd, h])

/-- What stands after a text without a slash goes into its last component. -/
theorem comps_append_of_notMem {c : List α} (h : m.slash ∉ c) (p : List α) :
    comps m (c ++ p) = (comps m p).modifyHead (c ++ ·) := by
  induction c with
  | nil =>
      obtain ⟨d, ds, hd⟩ := List.exists_cons_of_ne_nil (comps_ne_nil m p)
      simp [hd]
  | cons a c ih =>
      obtain ⟨ha, hc⟩ : m.slash ≠ a ∧ m.slash ∉ c := by simpa using h
      obtain ⟨d, ds, hd⟩ := List.exists_cons_of_ne_nil (comps_ne_nil m p)
      rw [hd, List.modifyHead_cons] at ih
      rw [List.cons_append, comps, List.splitOn_cons_eq_if_modifyHead,
        if_neg (by simpa using ha.symm),
        show List.splitOn m.slash (c ++ p) = _ from ih hc, hd]
      simp

/-! ## Walking -/

/-- A walk in two parts. -/
@[simp] theorem walk_append (r : Bool) (s : List (List α))
    (cs ds : List (List α)) :
    walk m r s (cs ++ ds) = walk m r (walk m r s cs) ds :=
  List.foldl_append

@[simp] theorem walk_nil (r : Bool) (s : List (List α)) :
    walk m r s [] = s := rfl

@[simp] theorem walk_cons (r : Bool) (s : List (List α)) (c : List α)
    (cs : List (List α)) :
    walk m r s (c :: cs) = walk m r (push m r s c) cs := rfl

/-- An empty component changes nothing. -/
@[simp] theorem push_empty (r : Bool) (s : List (List α)) :
    push m r s [] = s := by simp [push]

/-- A name goes on top. -/
theorem push_name {c : List α} (h : Name m c) (r : Bool)
    (s : List (List α)) : push m r s c = c :: s := by
  simp [push, h.1, h.2.1, h.2.2]

/-- Names are piled up. -/
theorem walk_names {cs : List (List α)} (h : ∀ c ∈ cs, Name m c) (r : Bool)
    (s : List (List α)) : walk m r s cs = cs.reverse ++ s := by
  induction cs generalizing s with
  | nil => rfl
  | cons c cs ih =>
      rw [walk_cons, push_name m (h c (by simp)),
        ih (fun c hc => h c (by simp [hc]))]
      simp

/-- Names that are put together the same are the same. -/
theorem unsplit_inj {cs ds : List (List α)}
    (hc : ∀ c ∈ cs, Name m c ∧ m.slash ∉ c)
    (hd : ∀ d ∈ ds, Name m d ∧ m.slash ∉ d)
    (h : unsplit m cs = unsplit m ds) : cs = ds := by
  have key : ∀ es : List (List α), (∀ e ∈ es, Name m e ∧ m.slash ∉ e) →
      walk m true [] (comps m (unsplit m es)) = es.reverse := by
    intro es hes
    by_cases hne : es = []
    · subst hne
      simp [unsplit]
    · rw [comps_unsplit m (fun e he => (hes e he).2) hne,
        walk_names m (fun e he => (hes e he).1), List.append_nil]
  have := key cs hc
  rw [h, key ds hd] at this
  exact (List.reverse_inj.1 this).symm

/-- The component `..` takes a name away. -/
theorem push_up {c : List α} (h : Name m c) (r : Bool)
    (s : List (List α)) : push m r (c :: s) m.up = s := by
  have h2 : m.up ≠ m.here := by simp [Marks.up, Marks.here]
  have h1 : m.up ≠ [] := by simp [Marks.up]
  simp [push, h.2.2, h1, h2]

/-- At the root it has nothing to take. -/
theorem push_up_root : push m true [] m.up = [] := by
  simp [push]

/-- **The frame rule**: what a rooted walk makes of a stack of names is what it
    makes of its own part of it, on top of what is left of the part below. -/
theorem walk_append_stack {cs : List (List α)} {t s : List (List α)}
    (ht : ∀ c ∈ t, Name m c) (hs : ∀ c ∈ s, Name m c) :
    walk m true (t ++ s) cs
      = walk m true t cs ++ s.drop (climbs m t.length cs) := by
  induction cs generalizing t s with
  | nil => simp [climbs]
  | cons c cs ih =>
      by_cases h1 : c = [] ∨ c = m.here
      · simp only [walk_cons, push, climbs, if_pos h1]
        exact ih ht hs
      by_cases h2 : c = m.up
      · subst h2
        cases t with
        | nil =>
            -- the walk leaves its own part and takes a name from below
            have hup : push m true s m.up = s.drop 1 := by
              cases s with
              | nil => exact push_up_root m
              | cons c s => exact push_up m (hs c (by simp)) true s
            have hi := ih (t := []) (s := s.drop 1) (by simp)
              (fun c hc => hs c (List.mem_of_mem_drop hc))
            rw [List.nil_append] at hi
            simp only [List.nil_append, walk_cons, hup, push_up_root,
              climbs, if_neg h1, if_true, List.length_nil]
            rw [hi, List.drop_drop, List.length_nil, Nat.add_comm]
        | cons d t =>
            have hd := ht d (by simp)
            have hi := ih (t := t) (fun c hc => ht c (by simp [hc])) hs
            simp only [List.cons_append, walk_cons, push_up m hd, climbs,
              if_neg h1, if_true, List.length_cons]
            exact hi
      · have hn : Name m c := ⟨fun h => h1 (.inl h), fun h => h1 (.inr h), h2⟩
        have hi := ih (t := c :: t) (by
          intro d hd
          rcases List.mem_cons.1 hd with rfl | hd
          · exact hn
          · exact ht d hd) hs
        simp only [walk_cons, push_name m hn, climbs, if_neg h1, if_neg h2]
        exact hi

/-- The frame rule for a walk that starts with nothing of its own. -/
theorem walk_eq {s : List (List α)} (hs : ∀ c ∈ s, Name m c)
    (cs : List (List α)) :
    walk m true s cs = walk m true [] cs ++ s.drop (climbs m 0 cs) := by
  simpa using walk_append_stack m (t := []) (by simp) hs

/-- Each component of depth saves one climb. -/
theorem climbs_add (n d : Nat) (cs : List (List α)) :
    climbs m (n + d) cs = climbs m n cs - d := by
  induction cs generalizing n d with
  | nil => simp [climbs]
  | cons c cs ih =>
      by_cases h1 : c = [] ∨ c = m.here
      · simp only [climbs, if_pos h1]
        exact ih n d
      by_cases h2 : c = m.up
      · simp only [climbs, if_neg h1, if_pos h2]
        cases n with
        | succ n =>
            rw [show n + 1 + d = n + d + 1 by omega]
            exact ih n d
        | zero =>
            cases d with
            | zero => simp
            | succ d =>
                have hd : climbs m (0 + d) cs = climbs m 0 cs - d := ih 0 d
                calc climbs m (0 + d) cs = climbs m 0 cs - d := hd
                  _ = climbs m 0 cs + 1 - (d + 1) := by omega
      · simp only [climbs, if_neg h1, if_neg h2]
        rw [show n + d + 1 = n + 1 + d by omega]
        exact ih (n + 1) d

/-- A name in front saves one climb. -/
theorem climbs_name {c : List α} (h : Name m c) (cs : List (List α)) :
    climbs m 0 (c :: cs) = climbs m 0 cs - 1 := by
  rw [← climbs_add m 0 1 cs]
  simp [climbs, h.1, h.2.1, h.2.2]

/-- Without `..` nothing is climbed. -/
theorem climbs_eq_zero {cs : List (List α)} (h : m.up ∉ cs) (n : Nat) :
    climbs m n cs = 0 := by
  induction cs generalizing n with
  | nil => rfl
  | cons c cs ih =>
      obtain ⟨hc, hcs⟩ : m.up ≠ c ∧ m.up ∉ cs := by simpa using h
      by_cases h1 : c = [] ∨ c = m.here
      · simp only [climbs, if_pos h1]
        exact ih hcs n
      · simp only [climbs, if_neg h1, if_neg hc.symm]
        exact ih hcs (n + 1)

/-- What one step of a rooted walk leaves are names. -/
theorem push_rooted_names {s : List (List α)} (hs : ∀ c ∈ s, Name m c)
    (c : List α) : ∀ d ∈ push m true s c, Name m d := by
  by_cases h1 : c = [] ∨ c = m.here
  · simpa only [push, if_pos h1] using hs
  by_cases h2 : c = m.up
  · subst h2
    cases s with
    | nil => simp [push_up_root]
    | cons d s =>
        rw [push_up m (hs d (by simp))]
        exact fun e he => hs e (by simp [he])
  · have hn : Name m c := ⟨fun h => h1 (.inl h), fun h => h1 (.inr h), h2⟩
    rw [push_name m hn]
    intro d hd
    rcases List.mem_cons.1 hd with rfl | hd
    · exact hn
    · exact hs d hd

/-- A rooted walk leaves names. -/
theorem walk_rooted_names (cs : List (List α)) {s : List (List α)}
    (hs : ∀ c ∈ s, Name m c) : ∀ d ∈ walk m true s cs, Name m d := by
  induction cs generalizing s with
  | nil => exact hs
  | cons c cs ih => exact ih (push_rooted_names m hs c)

/-- One step brings in no component but its own. -/
theorem mem_of_mem_push {r : Bool} {s : List (List α)} {c d : List α}
    (h : d ∈ push m r s c) : d ∈ s ∨ d = c := by
  unfold push at h
  split at h
  · exact .inl h
  · split at h
    · cases s with
      | nil => cases r <;> simp_all
      | cons top rest =>
          simp only at h
          split at h
          · rcases List.mem_cons.1 h with rfl | h
            · exact .inr rfl
            · exact .inl h
          · exact .inl (List.mem_cons_of_mem _ h)
    · rcases List.mem_cons.1 h with rfl | h
      · exact .inr rfl
      · exact .inl h

/-- A walk brings in no components but its own. -/
theorem mem_of_mem_walk {r : Bool} {cs s : List (List α)} {d : List α}
    (h : d ∈ walk m r s cs) : d ∈ s ∨ d ∈ cs := by
  induction cs generalizing s with
  | nil => exact .inl h
  | cons c cs ih =>
      rcases ih h with h | h
      · rcases mem_of_mem_push m h with h | rfl
        · exact .inl h
        · exact .inr (by simp)
      · exact .inr (by simp [h])

/-! ## Cleaning -/

/-- What `clean` makes of a rooted path. -/
theorem clean_slash (p : List α) :
    clean m (m.slash :: p)
      = m.slash :: unsplit m (walk m true [] (comps m p)).reverse := by
  simp [clean]

/-- Joining from a rooted first element. -/
theorem join_slash (p : List α) (es : List (List α)) :
    join m ((m.slash :: p) :: es)
      = clean m (unsplit m ((m.slash :: p) :: es)) := by
  simp [join]

/-- Names are joined as they are. -/
theorem join_names {c : List α} {cs : List (List α)}
    (h : ∀ d ∈ c :: cs, Name m d ∧ m.slash ∉ d) :
    join m (c :: cs) = unsplit m (c :: cs) := by
  have hc := h c (by simp)
  obtain ⟨a, c', rfl⟩ := List.exists_cons_of_ne_nil hc.1.1
  have ha : a ≠ m.slash := fun ha => hc.2 (by simp [ha])
  obtain ⟨t, ht⟩ : ∃ t, unsplit m ((a :: c') :: cs) = a :: t := by
    cases cs with
    | nil => exact ⟨c', by simp [unsplit]⟩
    | cons d cs => exact ⟨c' ++ (m.slash :: unsplit m (d :: cs)), by
        simp [unsplit]⟩
  have hclean : clean m (unsplit m ((a :: c') :: cs))
      = unsplit m ((a :: c') :: cs) := by
    have hwalk : (walk m false [] (comps m (unsplit m ((a :: c') :: cs)))).reverse
        = (a :: c') :: cs := by
      rw [comps_unsplit m (fun d hd => (h d hd).2) (by simp),
        walk_names m (fun d hd => (h d hd).1), List.append_nil,
        List.reverse_reverse]
    rw [clean, if_neg (by simp [ht, ha]), hwalk]
    simp [ht]
  simpa [join] using hclean

/-- No component is longer than the path. -/
theorem length_of_mem_comps {p c : List α} (h : c ∈ comps m p) :
    c.length ≤ p.length := by
  induction p generalizing c with
  | nil =>
      obtain rfl : c = [] := by simpa using h
      simp
  | cons a p ih =>
      rw [comps, List.splitOn_cons_eq_if_modifyHead] at h
      split at h
      · rcases List.mem_cons.1 h with rfl | h
        · simp
        · exact Nat.le_succ_of_le (ih h)
      · obtain ⟨d, ds, hd⟩ := List.exists_cons_of_ne_nil (comps_ne_nil m p)
        rw [show List.splitOn m.slash p = d :: ds from hd,
          List.modifyHead_cons] at h
        rcases List.mem_cons.1 h with rfl | h
        · exact Nat.succ_le_succ (ih (by simp [hd]))
        · exact Nat.le_succ_of_le (ih (by simp [hd, h]))

end LexicalPath
