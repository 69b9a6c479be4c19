import Mathlib.Data.List.Induction

/-! # Coming to rest by rounds

    A system in which one of many parties takes its turn at a time.  A `Ladder`
    of stages says how far each party has come: a turn of its own takes a party
    one stage up once everybody has reached the stage below, and the turns of
    others do not throw it back.  Then every round that gives each live party a
    turn, in any order and with any repetitions, takes everybody one stage up,
    and a fair schedule comes to rest. -/

namespace FairRounds

variable {σ κ : Type} {step : σ → κ → σ}

/-- The state after the listed parties have taken their turns. -/
def turns (step : σ → κ → σ) (s : σ) (ks : List κ) : σ := ks.foldl step s

@[simp] theorem turns_nil (s : σ) : turns step s [] = s := rfl

@[simp] theorem turns_cons (s : σ) (k : κ) (ks : List κ) :
    turns step s (k :: ks) = turns step (step s k) ks := rfl

theorem turns_append (s : σ) (ks ks' : List κ) :
    turns step s (ks ++ ks') = turns step (turns step s ks) ks' :=
  List.foldl_append

/-- **RUN INVARIANT**: what every turn keeps, every run keeps. -/
theorem turns_keep {I : σ → Prop} (hI : ∀ s k, I s → I (step s k)) {s : σ}
    (h : I s) (ks : List κ) : I (turns step s ks) := by
  induction ks generalizing s with
  | nil => exact h
  | cons k ks ih => exact ih (hI s k h)

/-- A state that no turn moves stays. -/
theorem turns_rest {s : σ} (h : ∀ k, step s k = s) (ks : List κ) :
    turns step s ks = s := by
  induction ks with
  | nil => rfl
  | cons k ks ih => rw [turns_cons, h k, ih]

/-! ## Ladders -/

/-- Stages `0 .. top` of every party, and how turns move along them. -/
structure Ladder (step : σ → κ → σ) (top : Nat) where
  inv : σ → Prop
  live : σ → κ → Prop
  stage : Nat → σ → κ → Prop
  inv_step : ∀ s k, inv s → inv (step s k)
  live_step : ∀ s k k', live (step s k') k → live s k
  zero : ∀ s k, stage 0 s k
  idle : ∀ n s k, ¬ live s k → stage n s k
  lower : ∀ n s k, stage (n + 1) s k → stage n s k
  reach : ∀ n s k, n < top → inv s → (∀ j, stage n s j) →
    stage (n + 1) (step s k) k
  keep : ∀ n s k k', n < top → inv s → (∀ j, stage n s j) → k' ≠ k →
    stage (n + 1) s k → stage (n + 1) (step s k') k

namespace Ladder

variable {top : Nat} (L : Ladder step top)

/-- A stage everybody has reached is not lost. -/
theorem stage_step {n : Nat} (hn : n ≤ top) {s : σ} (hs : L.inv s)
    (h : ∀ j, L.stage n s j) (k : κ) : ∀ j, L.stage n (step s k) j := by
  intro j
  cases n with
  | zero => exact L.zero _ j
  | succ n =>
      have hbelow : ∀ j, L.stage n s j := fun j => L.lower n s j (h j)
      by_cases hk : k = j
      · subst hk
        exact L.reach n s k (by omega) hs hbelow
      · exact L.keep n s j k (by omega) hs hbelow hk (h j)

theorem stage_turns {n : Nat} (hn : n ≤ top) {s : σ} (hs : L.inv s)
    (h : ∀ j, L.stage n s j) (ks : List κ) :
    ∀ j, L.stage n (turns step s ks) j :=
  (turns_keep (I := fun s => L.inv s ∧ ∀ j, L.stage n s j)
    (fun s k hI => ⟨L.inv_step s k hI.1, L.stage_step hn hI.1 hI.2 k⟩)
    ⟨hs, h⟩ ks).2

/-- Every live party has its turn in the round. -/
def Covers (s : σ) (ks : List κ) : Prop := ∀ k, L.live s k → k ∈ ks

/-- What covers the parties now covers those of later. -/
theorem Covers.turns {s : σ} {ks : List κ} (h : L.Covers s ks)
    (ks' : List κ) : L.Covers (turns step s ks') ks := by
  have hlive : ∀ k, L.live (FairRounds.turns step s ks') k → L.live s k :=
    turns_keep (I := fun s' => ∀ k, L.live s' k → L.live s k)
      (fun s' k' hI k hk => hI k (L.live_step s' k k' hk))
      (fun _ hk => hk) ks'
  exact fun k hk => h k (hlive k hk)

/-- Within a round: who is still to come is in what is left of it. -/
theorem stage_round {n : Nat} (hn : n < top) {s : σ} (hs : L.inv s)
    (h : ∀ j, L.stage n s j) {ks : List κ}
    (hrest : ∀ k, k ∈ ks ∨ L.stage (n + 1) s k) :
    ∀ k, L.stage (n + 1) (turns step s ks) k := by
  induction ks generalizing s with
  | nil =>
      intro k
      rcases hrest k with hk | hk
      · exact absurd hk List.not_mem_nil
      · exact hk
  | cons j ks ih =>
      refine ih (L.inv_step s j hs) (L.stage_step (by omega) hs h j) ?_
      intro k
      by_cases hjk : j = k
      · subst hjk
        exact Or.inr (L.reach n s j hn hs h)
      · rcases hrest k with hk | hk
        · rcases List.mem_cons.mp hk with hk | hk
          · exact absurd hk.symm hjk
          · exact Or.inl hk
        · exact Or.inr (L.keep n s k j hn hs h hjk hk)

/-- **ONE ROUND**: it takes everybody one stage up. -/
theorem stage_of_covers {n : Nat} (hn : n < top) {s : σ} (hs : L.inv s)
    (h : ∀ j, L.stage n s j) {ks : List κ} (hc : L.Covers s ks) :
    ∀ k, L.stage (n + 1) (turns step s ks) k := by
  refine L.stage_round hn hs h ?_
  intro k
  by_cases hk : L.live s k
  · exact Or.inl (hc k hk)
  · exact Or.inr (L.idle _ s k hk)

/-- A round more, or nothing to climb any more. -/
theorem stage_of_round {n : Nat} (hn : n ≤ top) {s : σ} (hs : L.inv s)
    (h : ∀ j, L.stage n s j) {ks : List κ} (hc : L.Covers s ks) :
    ∀ k, L.stage (min (n + 1) top) (turns step s ks) k := by
  by_cases htop : n = top
  · subst htop
    rw [Nat.min_eq_right (Nat.le_succ n)]
    exact L.stage_turns hn hs h ks
  · rw [Nat.min_eq_left (by omega)]
    exact L.stage_of_covers (by omega) hs h hc

/-- **AS MANY ROUNDS AS STAGES** take everybody to the top. -/
theorem stage_of_rounds {s : σ} (hs : L.inv s) {rounds : List (List κ)}
    (hc : ∀ r ∈ rounds, L.Covers s r) :
    ∀ k, L.stage (min rounds.length top) (turns step s rounds.flatten) k := by
  -- peeled off from the end, where the stage is known for all but one round
  induction rounds using List.reverseRecOn with
  | nil =>
      rw [List.length_nil, Nat.zero_min]
      exact L.zero s
  | append_singleton rounds r ih =>
      have hrun : turns step s (rounds ++ [r]).flatten
          = turns step (turns step s rounds.flatten) r := by
        rw [List.flatten_append, turns_append, List.flatten_singleton]
      have hround : L.Covers s r :=
        hc r (List.mem_append_right _ (List.mem_singleton_self r))
      have hnext := L.stage_of_round (Nat.min_le_right rounds.length top)
        (turns_keep L.inv_step hs rounds.flatten)
        (ih fun r' hr' => hc r' (List.mem_append_left _ hr'))
        (hround.turns L rounds.flatten)
      rw [hrun, List.length_append, List.length_singleton]
      rwa [show min (min rounds.length top + 1) top
        = min (rounds.length + 1) top by omega] at hnext

end Ladder

/-! ## Fair schedules -/

/-- The turns from `a` up to `b` of an endless schedule. -/
def window (sched : Nat → κ) (a b : Nat) : List κ :=
  (List.range' a (b - a)).map sched

theorem mem_window {sched : Nat → κ} {a b n : Nat} (ha : a ≤ n) (hb : n < b) :
    sched n ∈ window sched a b :=
  List.mem_map.mpr ⟨n, List.mem_range'_1.mpr ⟨ha, by omega⟩, rfl⟩

theorem window_append {sched : Nat → κ} {a b c : Nat} (hab : a ≤ b)
    (hbc : b ≤ c) : window sched a b ++ window sched b c = window sched a c := by
  have hb : b = a + (b - a) := by omega
  have hlen : c - a = (b - a) + (c - b) := by omega
  rw [window, window, window, ← List.map_append, hlen, ← List.range'_append_1,
    ← hb]

/-- The state before turn `n` of the schedule. -/
def visited (step : σ → κ → σ) (s : σ) (sched : Nat → κ) (n : Nat) : σ :=
  turns step s (window sched 0 n)

/-- `k` has a turn after every moment. -/
def Recurs (sched : Nat → κ) (k : κ) : Prop := ∀ n, ∃ m, n ≤ m ∧ sched m = k

/-- From any moment on there is a round over finitely many parties. -/
theorem exists_window {sched : Nat → κ} {ks : List κ}
    (h : ∀ k ∈ ks, Recurs sched k) (a : Nat) :
    ∃ b, a ≤ b ∧ ∀ k ∈ ks, k ∈ window sched a b := by
  induction ks with
  | nil => exact ⟨a, Nat.le_refl a, fun k hk => absurd hk List.not_mem_nil⟩
  | cons k ks ih =>
      obtain ⟨b, hab, hb⟩ := ih fun k' hk' => h k' (List.mem_cons_of_mem _ hk')
      obtain ⟨m, ham, hm⟩ := h k List.mem_cons_self a
      refine ⟨max b (m + 1), by omega, ?_⟩
      intro k' hk'
      rcases List.mem_cons.mp hk' with rfl | hk'
      · exact hm ▸ mem_window ham (by omega)
      · rw [← window_append hab (Nat.le_max_left b (m + 1))]
        exact List.mem_append_left _ (hb k' hk')

/-- Any number of rounds, one after the other. -/
theorem exists_rounds {sched : Nat → κ} {ks : List κ}
    (h : ∀ k ∈ ks, Recurs sched k) (n : Nat) :
    ∃ (rounds : List (List κ)) (b : Nat), rounds.length = n
      ∧ rounds.flatten = window sched 0 b
      ∧ ∀ r ∈ rounds, ∀ k ∈ ks, k ∈ r := by
  induction n with
  | zero => exact ⟨[], 0, rfl, rfl, fun r hr => absurd hr List.not_mem_nil⟩
  | succ n ih =>
      obtain ⟨rounds, a, hlen, hflat, hall⟩ := ih
      obtain ⟨b, hab, hb⟩ := exists_window h a
      refine ⟨rounds ++ [window sched a b], b, ?_, ?_, ?_⟩
      · rw [List.length_append, hlen, List.length_singleton]
      · rw [List.flatten_append, List.flatten_singleton, hflat,
          window_append (Nat.zero_le a) hab]
      · intro r hr
        rcases List.mem_append.mp hr with hr | hr
        · exact hall r hr
        · rw [List.mem_singleton.mp hr]
          exact hb

/-- **A FAIR SCHEDULE** in which finitely many parties are live reaches the top
    and, when nobody moves there, stays where it is. -/
theorem Ladder.rests {top : Nat} (L : Ladder step top)
    (hrest : ∀ s, L.inv s → (∀ k, L.stage top s k) → ∀ k, step s k = s)
    {s : σ} (hs : L.inv s) {ks : List κ} (hlive : ∀ k, L.live s k → k ∈ ks)
    {sched : Nat → κ} (hfair : ∀ k ∈ ks, Recurs sched k) :
    ∃ N, (∀ k, L.stage top (visited step s sched N) k)
      ∧ ∀ n, N ≤ n → visited step s sched n = visited step s sched N := by
  obtain ⟨rounds, N, hlen, hflat, hall⟩ := exists_rounds hfair top
  have hcover : ∀ r ∈ rounds, L.Covers s r :=
    fun r hr k hk => hall r hr k (hlive k hk)
  have htop : ∀ k, L.stage top (visited step s sched N) k := by
    have hall := L.stage_of_rounds hs hcover
    rwa [hlen, hflat, Nat.min_self] at hall
  have hinv : L.inv (visited step s sched N) :=
    turns_keep L.inv_step hs (window sched 0 N)
  refine ⟨N, htop, ?_⟩
  intro n hn
  rw [visited, ← window_append (Nat.zero_le N) hn, turns_append]
  exact turns_rest (hrest _ hinv htop) _

end FairRounds
