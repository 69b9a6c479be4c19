import KubernetesUpRunning.MemqStats

/-! # What a response of Stats is a picture of

    The entries of one response are read one after the other, and puts and gets
    go on in between, so they need not have been there together.  This file
    says what they are: all queues there are during the call, each as it was
    when it was read, with the drained messages of the whole call; and all of
    it one state of the broker if nothing was put or got in between. -/

namespace StatsSnapshot

open Linearizability MemqBroker MemqStats

/-- The response is the statistics of all queues of this broker. -/
structure SnapshotOf (b : Broker) (stats : Stats) : Prop where
  nodup : (stats.queues.map Stat.name).Nodup
  all : ∀ name p, b.queues name = some p →
    statOf name (b.heap p) ∈ stats.queues
  only : ∀ e ∈ stats.queues,
    ∃ p, b.queues e.name = some p ∧ e = statOf e.name (b.heap p)

/-- The entries were read between two times, one after the other, each as its
    queue was then. -/
structure ReadIn (past : Nat → Broker) (b e : Nat) (es : List Entry) :
    Prop where
  nodup : (names es).Nodup
  ordered : es.Pairwise fun x y => x.time < y.time
  within : ∀ x ∈ es, b < x.time ∧ x.time < e
  leads : ∀ x ∈ es, (past x.time).queues x.stat.name = some x.pointer
  stat : ∀ x ∈ es,
    x.stat = statOf x.stat.name ((past x.time).heap x.pointer)

/-- What a response is: the queues that are there in every state of the call,
    each with the statistics of one of these states, which follow one another
    in the order of the list; the drained messages are those of every state of
    the call; and if no operation is completed between two times around all the
    reads, it is a snapshot. -/
structure Pictures (past : Nat → Broker) (done : List (Done Call Result))
    (r : Response) : Prop where
  read : ReadIn past r.began r.ended r.entries
  all : ∀ t, r.began ≤ t → t ≤ r.ended → ∀ name,
    (∃ p, (past t).queues name = some p) ↔ name ∈ names r.entries
  drained : ∀ t, r.began ≤ t → t ≤ r.ended → ∀ e ∈ r.entries,
    ∃ p, (past t).queues e.stat.name = some p
      ∧ ((past t).heap p).drained = e.stat.drained
  quiet : ∀ t t', r.began ≤ t → t ≤ t' → t' ≤ r.ended →
    (∀ e ∈ r.entries, t ≤ e.time ∧ e.time ≤ t') →
    (∀ d ∈ done, ¬ (t ≤ d.ended ∧ d.ended < t')) →
    SnapshotOf (past t) r.stats

/-! ## The brokers of the past -/

section Runs

variable {ι κ : Type} {s s' : State ι κ}

/-- From one time to the next: names and drained messages stay, and all does
    unless an operation is completed. -/
structure Quiet (s : State ι κ) (t : Nat) : Prop where
  calm : Calm (s.past t) (s.past (t + 1))
  still : (∀ d ∈ s.base.done, d.ended ≠ t) → s.past (t + 1) = s.past t

/-- From one time to a later one. -/
theorem calm_of_quiet {b e : Nat}
    (h : ∀ t, b ≤ t → t < e → Quiet s t) {t t' : Nat} (hb : b ≤ t)
    (hle : t ≤ t') (he : t' ≤ e) :
    Calm (s.past t) (s.past t')
      ∧ ((∀ d ∈ s.base.done, ¬ (t ≤ d.ended ∧ d.ended < t')) →
        s.past t' = s.past t) := by
  induction hle with
  | refl => exact ⟨Calm.refl _, fun _ => rfl⟩
  | @step n hn ih =>
      have hn' : t ≤ n := hn
      obtain ⟨hcalm, hstill⟩ := ih (by omega)
      have hq := h n (by omega) (by omega)
      refine ⟨hcalm.trans hq.calm, fun hno => ?_⟩
      have hnot : ∀ d ∈ s.base.done, d.ended ≠ n := by
        intro d hd he
        exact hno d hd (by omega)
      rw [hq.still hnot]
      refine hstill fun d hd hbetween => hno d hd ?_
      omega

variable [DecidableEq ι] [DecidableEq κ]

/-- What one section does to the past, and to a call under way. -/
theorem past_of_step (h : Step s s') :
    s'.base.clock = s.base.clock + 1
      ∧ (∀ t, t ≤ s.base.clock → s'.past t = s.past t)
      ∧ s'.past s'.base.clock = s'.base.broker
      ∧ (∀ d ∈ s.base.done, d ∈ s'.base.done)
      ∧ ∀ j x, s.reader j = some x → Calm s.base.broker s'.base.broker
        ∧ ((∀ d ∈ s'.base.done, d.ended ≠ s.base.clock) →
          s'.base.broker = s.base.broker) := by
  have htick : ∀ t, t ≤ s.base.clock →
      Function.update s.past (s.base.clock + 1) s.base.broker t = s.past t :=
    fun t ht => Function.update_of_ne (by omega) _ _
  cases h with
  | client u hu hlock =>
      obtain ⟨hclock, hsec⟩ := section_of_step hu
      refine ⟨hclock, ?_, Function.update_self _ _ _, ?_, ?_⟩
      · intro t ht
        exact Function.update_of_ne (by omega) _ _
      · intro d hd
        show d ∈ u.done
        rcases hsec with ⟨-, hsame⟩ | ⟨d', hcons, -, -⟩
        · rwa [hsame]
        · rw [hcons]
          exact List.mem_cons_of_mem _ hd
      · intro j x hj
        show Calm s.base.broker u.broker ∧ (_ → u.broker = s.base.broker)
        rcases hsec with ⟨hb, -⟩ | ⟨d, hcons, hended, hs⟩
        · rw [hb]
          exact ⟨Calm.refl _, fun _ => rfl⟩
        · refine ⟨calm_of_section hs fun hneeds => ?_, fun hno => ?_⟩
          · have hfree := hlock d hcons hneeds j
            exact absurd (hfree.symm.trans hj) (by simp)
          · refine absurd hended (hno d ?_)
            show d ∈ u.done
            rw [hcons]
            exact List.mem_cons_self
  | begin j hj =>
      exact ⟨rfl, htick, Function.update_self _ _ _, fun _ hd => hd,
        fun _ _ _ => ⟨Calm.refl _, fun _ => rfl⟩⟩
  | read j x name p hj hp hnew =>
      exact ⟨rfl, htick, Function.update_self _ _ _, fun _ hd => hd,
        fun _ _ _ => ⟨Calm.refl _, fun _ => rfl⟩⟩
  | finish j x hj hall =>
      exact ⟨rfl, htick, Function.update_self _ _ _, fun _ hd => hd,
        fun _ _ _ => ⟨Calm.refl _, fun _ => rfl⟩⟩

/-- A call after a section: it has just begun, or is where it was or one entry
    further. -/
theorem reader_of_step (h : Step s s') {j : κ} {y : Reading}
    (hy : s'.reader j = some y) :
    (y = ⟨s.base.clock, []⟩ ∧ s'.base.broker = s.base.broker)
      ∨ ∃ x, s.reader j = some x ∧ y.began = x.began
        ∧ (y.entries = x.entries
          ∨ ∃ name p, s.base.broker.queues name = some p
            ∧ name ∉ names x.entries
            ∧ y.entries = x.entries
              ++ [⟨statOf name (s.base.broker.heap p), p, s.base.clock⟩]) := by
  cases h with
  | client u hu hlock => exact Or.inr ⟨y, hy, rfl, Or.inl rfl⟩
  | begin j' hj' =>
      rcases of_update hy with ⟨-, hnew⟩ | ⟨-, hold⟩
      · exact Or.inl ⟨(Option.some.inj hnew).symm, rfl⟩
      · exact Or.inr ⟨y, hold, rfl, Or.inl rfl⟩
  | read j' x name p hj' hp hnew =>
      rcases of_update hy with ⟨rfl, hmore⟩ | ⟨-, hold⟩
      · rw [← Option.some.inj hmore]
        exact Or.inr ⟨x, hj', rfl, Or.inr ⟨name, p, hp, hnew, rfl⟩⟩
      · exact Or.inr ⟨y, hold, rfl, Or.inl rfl⟩
  | finish j' x hj' hall =>
      rcases of_update hy with ⟨-, hnew⟩ | ⟨-, hold⟩
      · exact absurd hnew (by simp)
      · exact Or.inr ⟨y, hold, rfl, Or.inl rfl⟩

/-- A response after a section: it was there, or a call has just read all
    queues. -/
theorem response_of_step (h : Step s s') {r : Response}
    (hr : r ∈ s'.responses) :
    r ∈ s.responses
      ∨ ∃ j x, s.reader j = some x ∧ r = ⟨x.began, s.base.clock, x.entries⟩
        ∧ ∀ name p, s.base.broker.queues name = some p →
          name ∈ names x.entries := by
  cases h with
  | client u hu hlock => exact Or.inl hr
  | begin j hj => exact Or.inl hr
  | read j x name p hj hp hnew => exact Or.inl hr
  | finish j x hj hall =>
      rcases List.mem_cons.mp hr with rfl | hr
      · exact Or.inr ⟨j, x, hj, rfl, hall⟩
      · exact Or.inl hr

/-! ## The past of a run -/

/-- What holds of the past in every state of a run. -/
structure Hist (s : State ι κ) : Prop where
  now : s.past s.base.clock = s.base.broker
  quiet : ∀ j x, s.reader j = some x →
    ∀ t, x.began ≤ t → t < s.base.clock → Quiet s t
  quietOver : ∀ r ∈ s.responses, ∀ t, r.began ≤ t → t < r.ended → Quiet s t
  read : ∀ j x, s.reader j = some x →
    ReadIn s.past x.began s.base.clock x.entries
  readOver : ∀ r ∈ s.responses, ReadIn s.past r.began r.ended r.entries
  full : ∀ r ∈ s.responses, ∀ name p,
    (s.past r.ended).queues name = some p → name ∈ names r.entries

/-- What was read stays what was read. -/
theorem ReadIn.later {past past' : Nat → Broker} {b e e' : Nat}
    {es : List Entry} (h : ReadIn past b e es) (hle : e ≤ e')
    (hpast : ∀ t, t < e → past' t = past t) : ReadIn past' b e' es := by
  refine ⟨h.nodup, h.ordered, ?_, ?_, ?_⟩
  · intro x hx
    obtain ⟨hb, he⟩ := h.within x hx
    exact ⟨hb, Nat.lt_of_lt_of_le he hle⟩
  · intro x hx
    rw [hpast _ (h.within x hx).2]
    exact h.leads x hx
  · intro x hx
    rw [hpast _ (h.within x hx).2]
    exact h.stat x hx

/-- One more queue is read. -/
theorem ReadIn.snoc {past : Nat → Broker} {b e : Nat} {es : List Entry}
    (h : ReadIn past b e es) (hbe : b < e) {name : String} {p : Pointer}
    (hp : (past e).queues name = some p) (hnew : name ∉ names es) :
    ReadIn past b (e + 1)
      (es ++ [⟨statOf name ((past e).heap p), p, e⟩]) := by
  have hmem : ∀ x ∈ es ++ [⟨statOf name ((past e).heap p), p, e⟩],
      x ∈ es ∨ x = ⟨statOf name ((past e).heap p), p, e⟩ := by
    intro x hx
    rcases List.mem_append.mp hx with hx | hx
    · exact Or.inl hx
    · exact Or.inr (List.mem_singleton.mp hx)
  refine ⟨?_, ?_, ?_, ?_, ?_⟩
  · rw [names, List.map_append, List.nodup_append]
    refine ⟨h.nodup, List.nodup_singleton _, ?_⟩
    intro n hn n' hn' he
    rw [he, List.mem_singleton.mp hn'] at hn
    exact hnew hn
  · rw [List.pairwise_append]
    refine ⟨h.ordered, List.pairwise_singleton _ _, ?_⟩
    intro x hx y hy
    rw [List.mem_singleton.mp hy]
    exact (h.within x hx).2
  · intro x hx
    rcases hmem x hx with hx | rfl
    · obtain ⟨hb, he⟩ := h.within x hx
      exact ⟨hb, Nat.lt_succ_of_lt he⟩
    · exact ⟨hbe, Nat.lt_succ_self e⟩
  · intro x hx
    rcases hmem x hx with hx | rfl
    · exact h.leads x hx
    · exact hp
  · intro x hx
    rcases hmem x hx with hx | rfl
    · exact h.stat x hx
    · rfl

/-- **ONE SECTION** keeps the past. -/
theorem hist_step (hi : Inv s) (h : Hist s) (hst : Step s s') : Hist s' := by
  obtain ⟨hclock, hpast, hnow, hsub, hcalm⟩ := past_of_step hst
  have hquiet : ∀ t, t < s.base.clock → Quiet s t → Quiet s' t := by
    intro t ht hq
    refine ⟨?_, fun hno => ?_⟩
    · rw [hpast t (by omega), hpast (t + 1) (by omega)]
      exact hq.calm
    · rw [hpast t (by omega), hpast (t + 1) (by omega)]
      exact hq.still fun d hd => hno d (hsub d hd)
  -- a call under way sees what this section does
  have hopen : ∀ j x, s.reader j = some x →
      ∀ t, x.began ≤ t → t < s'.base.clock → Quiet s' t := by
    intro j x hj t hb ht
    by_cases hlt : t < s.base.clock
    · exact hquiet t hlt (h.quiet j x hj t hb hlt)
    · obtain rfl : t = s.base.clock := by omega
      obtain ⟨hc, hstill⟩ := hcalm j x hj
      refine ⟨?_, fun hno => ?_⟩
      · rw [hpast _ (Nat.le_refl _), ← hclock, hnow, h.now]
        exact hc
      · rw [hpast _ (Nat.le_refl _), ← hclock, hnow, h.now]
        exact hstill hno
  have hended : ∀ r ∈ s.responses, r.ended < s.base.clock :=
    fun r hr => (hi.found r hr).1
  have hread : ∀ j x, s.reader j = some x →
      ReadIn s'.past x.began s.base.clock x.entries := fun j x hj =>
    (h.read j x hj).later (Nat.le_refl _) fun t ht => hpast t (by omega)
  refine ⟨hnow, ?_, ?_, ?_, ?_, ?_⟩
  · -- a call that begins now has seen nothing yet
    intro j y hy t hb ht
    rcases reader_of_step hst hy with ⟨rfl, hsame⟩ | ⟨x, hx, hbegan, -⟩
    · have hb' : s.base.clock ≤ t := hb
      obtain rfl : t = s.base.clock := by omega
      have heq : s'.past (s.base.clock + 1) = s'.past s.base.clock := by
        rw [hpast _ (Nat.le_refl _), ← hclock, hnow, h.now, hsame]
      exact ⟨heq ▸ Calm.refl _, fun _ => heq⟩
    · exact hopen j x hx t (hbegan ▸ hb) ht
  · intro r hr t hb ht
    rcases response_of_step hst hr with hr | ⟨j, x, hj, rfl, -⟩
    · have he := hended r hr
      exact hquiet t (by omega) (h.quietOver r hr t hb ht)
    · have ht' : t < s.base.clock := ht
      exact hopen j x hj t hb (by omega)
  · -- one that reads now adds an entry of this time
    intro j y hy
    rw [hclock]
    rcases reader_of_step hst hy with ⟨rfl, -⟩ | ⟨x, hx, hbegan, hes⟩
    · exact ⟨List.nodup_nil, List.Pairwise.nil,
        fun _ hx => absurd hx List.not_mem_nil,
        fun _ hx => absurd hx List.not_mem_nil,
        fun _ hx => absurd hx List.not_mem_nil⟩
    · rw [hbegan]
      have hb := hi.began x (Or.inl ⟨j, hx⟩)
      rcases hes with hes | ⟨name, p, hp, hnew, hes⟩
      · rw [hes]
        exact (hread j x hx).later (Nat.le_succ _) fun _ _ => rfl
      · have hbroker : s'.past s.base.clock = s.base.broker :=
          (hpast _ (Nat.le_refl _)).trans h.now
        rw [hes, ← hbroker]
        exact (hread j x hx).snoc hb (by rw [hbroker]; exact hp) hnew
  · intro r hr
    rcases response_of_step hst hr with hr | ⟨j, x, hj, rfl, -⟩
    · have he := hended r hr
      exact (h.readOver r hr).later (Nat.le_refl _) fun t ht =>
        hpast t (by omega)
    · exact hread j x hj
  · intro r hr name p hp
    rcases response_of_step hst hr with hr | ⟨j, x, hj, rfl, hall⟩
    · have he := hended r hr
      rw [hpast _ (by omega)] at hp
      exact h.full r hr name p hp
    · have hbroker : s'.past s.base.clock = s.base.broker :=
        (hpast _ (Nat.le_refl _)).trans h.now
      have hp' : (s'.past s.base.clock).queues name = some p := hp
      rw [hbroker] at hp'
      exact hall name p hp'

/-- **A RUN** keeps it. -/
theorem hist_of_runs (h : Runs (start ι κ) s) : Inv s ∧ Hist s := by
  induction h with
  | refl =>
      refine ⟨inv_start, rfl, ?_, ?_, ?_, ?_, ?_⟩
      · exact fun j x hj => absurd hj (by simp [start])
      · exact fun r hr => absurd hr List.not_mem_nil
      · exact fun j x hj => absurd hj (by simp [start])
      · exact fun r hr => absurd hr List.not_mem_nil
      · exact fun r hr => absurd hr List.not_mem_nil
  | tail _ hst ih => exact ⟨inv_step ih.1 hst, hist_step ih.1 ih.2 hst⟩

/-! ## Responses -/

theorem names_stats (r : Response) :
    r.stats.queues.map Stat.name = names r.entries := by
  show (r.entries.map Entry.stat).map Stat.name = _
  rw [List.map_map]
  rfl

/-- **STATS**: what a response pictures, in every run. -/
theorem pictures_of_runs (h : Runs (start ι κ) s) {r : Response}
    (hr : r ∈ s.responses) : Pictures s.past s.base.done r := by
  obtain ⟨-, hh⟩ := hist_of_runs h
  have hread := hh.readOver r hr
  have hcalm : ∀ t t', r.began ≤ t → t ≤ t' → t' ≤ r.ended → _ :=
    fun _ _ hb hle he => calm_of_quiet (hh.quietOver r hr) hb hle he
  -- an entry's queue is behind its name during the whole call
  have hleads : ∀ t, r.began ≤ t → t ≤ r.ended → ∀ e ∈ r.entries,
      (s.past t).queues e.stat.name = some e.pointer
        ∧ ((s.past t).heap e.pointer).drained = e.stat.drained := by
    intro t hb ht e he
    obtain ⟨hbe, het⟩ := hread.within e he
    have hdrained := congrArg Stat.drained (hread.stat e he)
    rcases Nat.le_total t e.time with hle | hle
    · obtain ⟨hq, -⟩ := hcalm t e.time hb hle (by omega)
      rw [← hq.queues, ← hq.drained]
      exact ⟨hread.leads e he, hdrained.symm⟩
    · obtain ⟨hq, -⟩ := hcalm e.time t (by omega) hle ht
      rw [hq.queues, hq.drained]
      exact ⟨hread.leads e he, hdrained.symm⟩
  have hall : ∀ t, r.began ≤ t → t ≤ r.ended → ∀ name p,
      (s.past t).queues name = some p → name ∈ names r.entries := by
    intro t hb ht name p hp
    obtain ⟨hq, -⟩ := hcalm t r.ended hb ht (Nat.le_refl _)
    rw [← hq.queues] at hp
    exact hh.full r hr name p hp
  refine ⟨hread, ?_, ?_, ?_⟩
  · intro t hb ht name
    constructor
    · rintro ⟨p, hp⟩
      exact hall t hb ht name p hp
    · intro hname
      obtain ⟨e, he, rfl⟩ := List.mem_map.mp hname
      exact ⟨e.pointer, (hleads t hb ht e he).1⟩
  · intro t hb ht e he
    exact ⟨e.pointer, hleads t hb ht e he⟩
  · intro t t' hb htt ht' haround hno
    -- every entry is as its queue was at `t`
    have hstat : ∀ e ∈ r.entries,
        e.stat = statOf e.stat.name ((s.past t).heap e.pointer) := by
      intro e he
      obtain ⟨hle, hle'⟩ := haround e he
      obtain ⟨-, hsame⟩ := hcalm t e.time hb hle (by omega)
      have hpast := hsame fun d hd hbetween => hno d hd (by omega)
      rw [← hpast]
      exact hread.stat e he
    have ht : t ≤ r.ended := by omega
    refine ⟨?_, ?_, ?_⟩
    · rw [names_stats]
      exact hread.nodup
    · intro name p hp
      obtain ⟨e, he, hname⟩ := List.mem_map.mp (hall t hb ht name p hp)
      have hpe := (hleads t hb ht e he).1
      rw [show e.stat.name = name from hname, hp] at hpe
      rw [Option.some.inj hpe, ← show e.stat.name = name from hname,
        ← hstat e he]
      exact List.mem_map_of_mem he
    · intro x hx
      obtain ⟨e, he, rfl⟩ := List.mem_map.mp hx
      exact ⟨e.pointer, (hleads t hb ht e he).1, hstat e he⟩

end Runs

/-! ## A response that is no snapshot -/

/-- The call saw b after the second put and a before the first one. -/
theorem not_snapshot_tornCall :
    ¬ ∀ s : State Unit Unit, Runs (start Unit Unit) s →
      ∀ r ∈ s.responses, ∃ t, r.began ≤ t ∧ t ≤ r.ended
        ∧ SnapshotOf (s.past t) r.stats := by
  intro h
  obtain ⟨t, -, ht, hsnap⟩ := h tornCall runs_tornCall
    ⟨2, 9, readBoth.entries⟩ List.mem_cons_self
  obtain ⟨p, hp, ha⟩ := hsnap.only ⟨"a", 0, 0, 0, 0⟩ (by decide)
  obtain ⟨q, hq, hb⟩ := hsnap.only ⟨"b", 1, 1, 0, 0⟩ (by decide)
  -- no broker of the past has put into b and not into a
  have hnever : ∀ t ∈ List.range 10,
      ((tornCall.past t).queues "a").map
          (fun p => ((tornCall.past t).heap p).enqueued) = some 0 →
      ((tornCall.past t).queues "b").map
          (fun p => ((tornCall.past t).heap p).enqueued) ≠ some 1 := by
    decide
  refine hnever t (List.mem_range.mpr (Nat.lt_succ_of_le ht)) ?_ ?_
  · rw [show (tornCall.past t).queues "a" = some p from hp]
    exact congrArg some (congrArg Stat.enqueued ha).symm
  · rw [show (tornCall.past t).queues "b" = some q from hq]
    exact congrArg some (congrArg Stat.enqueued hb).symm

/-- What the same response pictures all the same. -/
theorem pictures_tornCall :
    Pictures tornCall.past tornCall.base.done ⟨2, 9, readBoth.entries⟩ :=
  pictures_of_runs runs_tornCall List.mem_cons_self

end StatsSnapshot
