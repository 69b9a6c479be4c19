import KubernetesUpRunning.DebugProbe
import KubernetesUpRunning.KeygenStory

/-! # What the keygen workers put out

    Every worker of `kuard/pkg/keygen` puts its lines out through
    `WorkloadOutput`, which numbers them and keeps the last twenty.  The lines
    of all workers, those that were cancelled and go on for a while included,
    come in the order in which they get the lock.  Beside the process of
    `KeygenWorkers` stands here everything that was ever put out, and by whom:
    the history is the end of it, and what one worker has put out is its
    story, as far as that worker has come. -/

namespace KeygenHistory

open KeygenStory KeygenWorkers
open MemqWorker (Config)

/-! ## The history -/

/-- `maxHistory`. -/
def maxHistory : Nat := 20

/-- `History`. -/
structure History where
  id : Int
  data : String
deriving DecidableEq, Repr

/-- The process with the rest of `KeyGen`, and all that was put out.  The
    counters are not bounded as an `int` is: they are the source's for fewer
    than 2^63 lines and restarts. -/
structure Recorder (κ : Type) where
  process : Process κ
  history : List History
  nextHistoryID : Int
  out : List (Nat × String)

/-- `New`. -/
def start (κ : Type) : Recorder κ := ⟨KeygenWorkers.start κ, [], 0, []⟩

/-- `KeyGenStatus`. -/
structure KeyGenStatus where
  config : Config
  history : List History
deriving DecidableEq, Repr

section Recorder

variable {κ : Type}

/-- `WorkloadOutput`, called by the worker `i`. -/
def Recorder.workloadOutput (s : Recorder κ) (i : Nat) (text : String) :
    Recorder κ :=
  let history := s.history ++ [⟨s.nextHistoryID, text⟩]
  { s with
    history :=
      if history.length > maxHistory then
        history.drop (history.length - maxHistory)
      else history
    nextHistoryID := s.nextHistoryID + 1
    out := s.out ++ [(i, text)] }

/-- The worker `i` takes a step, which may put a line out. -/
def Recorder.move (s : Recorder κ) (i : Nat) (g : Goroutine) :
    Option String → Recorder κ
  | none => { s with process := s.process.move i g }
  | some text =>
      { s with process := s.process.move i g }.workloadOutput i text

/-- `APIGet`, what it serves. -/
def Recorder.apiGet (s : Recorder κ) : KeyGenStatus :=
  ⟨s.process.kg.config, s.history⟩

@[simp] theorem process_move (s : Recorder κ) (i : Nat) (g : Goroutine)
    (line : Option String) :
    (s.move i g line).process = s.process.move i g := by
  cases line <;> rfl

variable [DecidableEq κ]

/-- One step: a half of a `LoadConfig`, or a step of a worker. -/
inductive Step (s : Recorder κ) : Recorder κ → Prop
  | loadConfig {a : Act κ} {p : Process κ} (ha : ∀ i e, a ≠ .worker i e)
      (h : KeygenWorkers.Step s.process a p) : Step s { s with process := p }
  | worker (i : Nat) (t : Texts) {g g' : Goroutine} {e : Input}
      (hr : Running s.process) (hg : s.process.goroutines[i]? = some g)
      (hm : Move g e g') : Step s (s.move i g' (lineOf t g g'))

/-- Runs with what is put out. -/
abbrev Runs : Recorder κ → Recorder κ → Prop := Relation.ReflTransGen Step

variable {s s' : Recorder κ}

/-- The workers do not look at what is put out. -/
theorem process_step (h : Step s s') :
    ∃ a, KeygenWorkers.Step s.process a s'.process := by
  cases h with
  | @loadConfig a p ha h => exact ⟨a, h⟩
  | worker i t hr hg hm =>
      rw [process_move]
      exact ⟨_, .worker i hr hg hm⟩

theorem runs_process (h : Runs s s') :
    KeygenWorkers.Runs s.process s'.process := by
  induction h with
  | refl => exact .refl
  | tail _ hst ih => exact ih.tail (process_step hst)

/-- Every run of the workers is one with what they put out. -/
theorem exists_runs {p p' : Process κ} (h : KeygenWorkers.Runs p p')
    (hp : s.process = p) : ∃ s', Runs s s' ∧ s'.process = p' := by
  induction h with
  | refl => exact ⟨s, .refl, hp⟩
  | tail _ hst ih =>
      obtain ⟨s', hr, rfl⟩ := ih
      obtain ⟨a, ha⟩ := hst
      cases ha with
      | assign k c hrun hk =>
          exact ⟨_, hr.tail (.loadConfig (by simp) (.assign k c hrun hk)), rfl⟩
      | restart k hrun hk =>
          exact ⟨_, hr.tail (.loadConfig (by simp) (.restart k hrun hk)), rfl⟩
      | worker i hrun hg hm =>
          exact ⟨_, hr.tail (.worker i ⟨"", "", ""⟩ hrun hg hm),
            process_move _ _ _ _⟩

end Recorder

/-! ## Everything that was put out -/

/-- The history that has all of it, numbered from zero. -/
def entries (out : List (Nat × String)) : List History :=
  out.mapIdx fun j e => ⟨j, e.2⟩

/-- What the worker `i` has put out. -/
def linesOf (i : Nat) (out : List (Nat × String)) : List String :=
  (out.filter fun e => decide (e.1 = i)).map Prod.snd

theorem linesOf_append (i j : Nat) (out : List (Nat × String)) (x : String) :
    linesOf i (out ++ [(j, x)])
      = linesOf i out ++ if j = i then [x] else [] := by
  rw [linesOf, linesOf, List.filter_append, List.map_append]
  congr 1
  by_cases h : j = i <;> simp [h]

/-- Nobody of a later number has put anything out. -/
theorem linesOf_eq_nil {i : Nat} {out : List (Nat × String)}
    (h : ∀ e ∈ out, e.1 < i) : linesOf i out = [] := by
  rw [linesOf, List.map_eq_nil_iff, List.filter_eq_nil_iff]
  intro e he
  simpa using Nat.ne_of_lt (h e he)

/-- A worker goes on with its story. -/
def Tells (g : Goroutine) (lines : List String) : Prop :=
  match g.worker with
  | .workload w => Telling g.c w lines
  | .memQ ph => MemQTold g.c ph lines

theorem tells_move {g g' : Goroutine} {e : Input} {lines : List String}
    (h : Tells g lines) (hm : Move g e g') (t : Texts) :
    Tells g' (lines ++ (lineOf t g g').toList) := by
  cases hm with
  | workload hs => exact telling_step h hs t
  | memQ hs => exact memQTold_step h hs t

/-- Whether a worker is cancelled is no part of its story. -/
theorem tells_of_same {g g' : Goroutine} {lines : List String}
    (h : Tells g lines) (hc : g'.c = g.c) (hw : g'.worker = g.worker) :
    Tells g' lines := by
  rw [Tells, hw, hc]
  exact h

/-! ## The invariant -/

/-- The `id` of a `workload`. -/
def workloadID (g : Goroutine) : Option Int :=
  match g.worker with
  | .workload w => some w.id
  | .memQ _ => none

/-- The workloads are numbered below `next`, each with a number of its own. -/
structure Numbered (gs : List Goroutine) (next : Int) : Prop where
  below : ∀ (i : Nat) (g : Goroutine) (k : Int), gs[i]? = some g →
    workloadID g = some k → k < next
  apart : ∀ (i j : Nat) (g g' : Goroutine) (k : Int), gs[i]? = some g →
    gs[j]? = some g' → workloadID g = some k → workloadID g' = some k → i = j

/-- What holds in every state: the history is the end of what was put out, the
    workloads have numbers of their own, and every worker tells its story. -/
structure Inv {κ : Type} (s : Recorder κ) : Prop where
  history : s.history = (entries s.out).rtake maxHistory
  next : s.nextHistoryID = s.out.length
  known : ∀ e ∈ s.out, e.1 < s.process.goroutines.length
  numbered : Numbered s.process.goroutines s.process.kg.nextWorkloadID
  tells : ∀ i g, s.process.goroutines[i]? = some g → Tells g (linesOf i s.out)

/-- A worker keeps its number. -/
theorem workloadID_move {g g' : Goroutine} {e : Input} (h : Move g e g') :
    workloadID g' = workloadID g := by
  cases h with
  | workload h => cases h <;> rfl
  | memQ h => rfl

/-- Where the workers are those that were there, with their numbers. -/
theorem Numbered.of_back {gs gs' : List Goroutine} {next : Int}
    (h : Numbered gs next) (hb : ∀ (i : Nat) g, gs'[i]? = some g →
      ∃ g₀, gs[i]? = some g₀ ∧ workloadID g = workloadID g₀) :
    Numbered gs' next := by
  constructor
  · intro i g k hg hk
    obtain ⟨g₀, hg₀, he⟩ := hb i g hg
    exact h.below i g₀ k hg₀ (he ▸ hk)
  · intro i j g g' k hg hg' hk hk'
    obtain ⟨g₀, hg₀, he⟩ := hb i g hg
    obtain ⟨g₁, hg₁, he'⟩ := hb j g' hg'
    exact h.apart i j g₀ g₁ k hg₀ hg₁ (he ▸ hk) (he' ▸ hk')

/-- One more worker at the end. -/
theorem Numbered.concat {gs : List Goroutine} {next next' : Int}
    (h : Numbered gs next) {g : Goroutine} (hle : next ≤ next')
    (hg : ∀ k, workloadID g = some k → k = next ∧ next < next') :
    Numbered (gs ++ [g]) next' := by
  have hcase : ∀ (i : Nat) x, (gs ++ [g])[i]? = some x →
      gs[i]? = some x ∨ i = gs.length ∧ x = g := by
    intro i x hx
    rw [List.getElem?_append] at hx
    split at hx
    · exact Or.inl hx
    · rw [List.getElem?_singleton] at hx
      split at hx
      · exact Or.inr ⟨by omega, (Option.some.inj hx).symm⟩
      · exact absurd hx (by simp)
  constructor
  · intro i x k hx hk
    rcases hcase i x hx with hx | ⟨-, rfl⟩
    · have hlt := h.below i x k hx hk
      omega
    · obtain ⟨rfl, hlt⟩ := hg k hk
      exact hlt
  · intro i j x y k hx hy hk hk'
    rcases hcase i x hx with hx₀ | ⟨hi, rfl⟩
    · rcases hcase j y hy with hy₀ | ⟨-, rfl⟩
      · exact h.apart i j x y k hx₀ hy₀ hk hk'
      · obtain ⟨rfl, -⟩ := hg k hk'
        exact absurd (h.below i x _ hx₀ hk) (by omega)
    · rcases hcase j y hy with hy₀ | ⟨hj, -⟩
      · obtain ⟨rfl, -⟩ := hg k hk
        exact absurd (h.below j y _ hy₀ hk') (by omega)
      · rw [hi, hj]

theorem length_cancel (gs : List Goroutine) (f : Option Nat) :
    (cancel gs f).length = gs.length := by
  cases f with
  | none => rfl
  | some i => exact List.length_modify _ _ _

/-- The workers after a `Restart`: those that were there, and perhaps one that
    has not begun. -/
theorem restart_getElem? {kg : KeyGen} {gs : List Goroutine} {i : Nat}
    {g : Goroutine} (h : (kg.restart gs).2[i]? = some g) :
    (∃ g₀, gs[i]? = some g₀ ∧ g.c = g₀.c ∧ g.worker = g₀.worker)
      ∨ (i = gs.length ∧ (g.worker = .memQ .starting
        ∨ g.worker = .workload ⟨kg.nextWorkloadID, 0, none, .starting⟩)) := by
  have hold : ∀ g, (cancel gs kg.cancelFunc)[i]? = some g →
      ∃ g₀, gs[i]? = some g₀ ∧ g.c = g₀.c ∧ g.worker = g₀.worker := by
    intro g hg
    obtain ⟨g₀, hg₀, rfl⟩ := getElem?_cancel hg
    refine ⟨g₀, hg₀, ?_⟩
    split <;> exact ⟨rfl, rfl⟩
  have hlen := length_cancel gs kg.cancelFunc
  have hconcat : ∀ x, (cancel gs kg.cancelFunc ++ [x])[i]? = some g →
      (∃ g₀, gs[i]? = some g₀ ∧ g.c = g₀.c ∧ g.worker = g₀.worker)
        ∨ i = gs.length ∧ g = x := by
    intro x hx
    rw [List.getElem?_append] at hx
    split at hx
    · exact Or.inl (hold g hx)
    · rw [List.getElem?_singleton] at hx
      split at hx
      · exact Or.inr ⟨by omega, (Option.some.inj hx).symm⟩
      · exact absurd hx (by simp)
  rw [KeyGen.restart] at h
  split at h
  · split at h
    · refine (hconcat _ h).imp_right ?_
      rintro ⟨hi, rfl⟩
      exact ⟨hi, Or.inl rfl⟩
    · refine (hconcat _ h).imp_right ?_
      rintro ⟨hi, rfl⟩
      exact ⟨hi, Or.inr rfl⟩
  · exact Or.inl (hold g h)

/-- The numbers after a `Restart`. -/
theorem Numbered.restart {kg : KeyGen} {gs : List Goroutine}
    (h : Numbered gs kg.nextWorkloadID) :
    Numbered (kg.restart gs).2 (kg.restart gs).1.nextWorkloadID := by
  have hold : Numbered (cancel gs kg.cancelFunc) kg.nextWorkloadID := by
    refine h.of_back fun i g hg => ?_
    obtain ⟨g₀, hg₀, rfl⟩ := getElem?_cancel hg
    refine ⟨g₀, hg₀, ?_⟩
    split <;> rfl
  rw [KeyGen.restart]
  split
  · split
    · exact hold.concat (Int.le_refl _) (by simp [workloadID])
    · refine hold.concat (by show _ ≤ kg.nextWorkloadID + 1; omega) ?_
      intro k hk
      obtain rfl : kg.nextWorkloadID = k := Option.some.inj hk
      exact ⟨rfl, by show _ < kg.nextWorkloadID + 1; omega⟩
  · exact hold

section Runs

variable {κ : Type} {s s' : Recorder κ}

theorem inv_start : Inv (start κ) := by
  refine ⟨rfl, rfl, by simp [start], ⟨?_, ?_⟩, ?_⟩ <;>
    simp [start, KeygenWorkers.start]

/-- **WORKLOADOUTPUT** keeps the end of what was put out. -/
theorem history_workloadOutput (i : Nat) (text : String)
    (h : s.history = (entries s.out).rtake maxHistory)
    (hn : s.nextHistoryID = s.out.length) :
    (s.workloadOutput i text).history
      = (entries (s.workloadOutput i text).out).rtake maxHistory := by
  have hentries : entries (s.out ++ [(i, text)])
      = entries s.out ++ [⟨s.nextHistoryID, text⟩] := by
    rw [entries, entries, List.mapIdx_concat, hn]
  show _ = (entries (s.out ++ [(i, text)])).rtake maxHistory
  rw [hentries, ← DebugProbe.rtake_push, ← h]
  rfl

/-- A step of a worker, with its line or without. -/
theorem inv_worker (h : Inv s) {i : Nat} {g g' : Goroutine} {e : Input}
    (hg : s.process.goroutines[i]? = some g) (hm : Move g e g') (t : Texts) :
    Inv (s.move i g' (lineOf t g g')) := by
  have hlt : i < s.process.goroutines.length :=
    (List.getElem?_eq_some_iff.mp hg).1
  have hnum : Numbered (s.process.move i g').goroutines
      s.process.kg.nextWorkloadID := by
    refine h.numbered.of_back fun j x hx => ?_
    by_cases hj : i = j
    · subst hj
      obtain rfl : g' = x := by
        rw [← Option.some.inj ((List.getElem?_set_self hlt).symm.trans hx)]
      exact ⟨g, hg, workloadID_move hm⟩
    · exact ⟨x, (List.getElem?_set_ne hj).symm.trans hx, rfl⟩
  have htells : ∀ out, (∀ j, linesOf j out = linesOf j s.out
        ++ if i = j then (lineOf t g g').toList else []) →
      ∀ j x, (s.process.move i g').goroutines[j]? = some x →
        Tells x (linesOf j out) := by
    intro out hout j x hx
    rw [hout j]
    by_cases hj : i = j
    · subst hj
      obtain rfl : g' = x := by
        rw [← Option.some.inj ((List.getElem?_set_self hlt).symm.trans hx)]
      rw [if_pos rfl]
      exact tells_move (h.tells i g hg) hm t
    · rw [if_neg hj, List.append_nil]
      exact h.tells j x ((List.getElem?_set_ne hj).symm.trans hx)
  have hlen : (s.process.move i g').goroutines.length
      = s.process.goroutines.length := List.length_set
  cases hline : lineOf t g g' with
  | none =>
      refine ⟨h.history, h.next, fun x hx => ?_, hnum, htells s.out fun j => ?_⟩
      · show x.1 < (s.process.move i g').goroutines.length
        rw [hlen]
        exact h.known x hx
      · rw [hline, Option.toList_none, ite_self, List.append_nil]
  | some text =>
      refine ⟨history_workloadOutput i text h.history h.next, ?_,
        fun x hx => ?_, hnum, htells _ fun j => ?_⟩
      · show s.nextHistoryID + 1 = ((s.out ++ [(i, text)]).length : Int)
        rw [List.length_append, h.next]
        rfl
      · show x.1 < (s.process.move i g').goroutines.length
        rw [hlen]
        rcases List.mem_append.mp hx with hx | hx
        · exact h.known x hx
        · rw [List.mem_singleton.mp hx]
          exact hlt
      · rw [hline]
        exact linesOf_append j i s.out text

variable [DecidableEq κ]

/-- The two halves of `LoadConfig` put nothing out. -/
theorem inv_loadConfig (h : Inv s) {a : Act κ} {p : Process κ}
    (ha : ∀ i e, a ≠ .worker i e) (hs : KeygenWorkers.Step s.process a p) :
    Inv { s with process := p } := by
  cases hs with
  | assign k c hr hk =>
      exact ⟨h.history, h.next, h.known, h.numbered, h.tells⟩
  | restart k hr hk =>
      refine ⟨h.history, h.next, fun e he => ?_, h.numbered.restart,
        fun i g hg => ?_⟩
      · have hlt := h.known e he
        show e.1 < (s.process.kg.restart s.process.goroutines).2.length
        have hlen := length_cancel s.process.goroutines s.process.kg.cancelFunc
        rw [KeyGen.restart]
        split
        · split <;> (rw [List.length_append]; omega)
        · show e.1 < (cancel _ _).length
          omega
      · rcases restart_getElem? hg with ⟨g₀, hg₀, hc, hw⟩ | ⟨rfl, hw⟩
        · exact tells_of_same (h.tells i g₀ hg₀) hc hw
        · -- one that has not begun has put nothing out
          rw [linesOf_eq_nil h.known]
          rcases hw with hw | hw
          · rw [Tells, hw]
            exact ⟨[], by simp, fun _ => rfl, rfl⟩
          · rw [Tells, hw]
            exact telling_start g.c _
  | worker i hr hg hm => exact absurd rfl (ha i _)

/-- **ONE STEP** keeps the invariant. -/
theorem inv_step (h : Inv s) (hs : Step s s') : Inv s' := by
  cases hs with
  | @loadConfig a p ha hst => exact inv_loadConfig h ha hst
  | worker i t hr hg hm => exact inv_worker h hg hm t

/-- **A RUN** keeps it. -/
theorem inv_of_runs (h : Runs (start κ) s) : Inv s := by
  induction h with
  | refl => exact inv_start
  | tail _ hst ih => exact inv_step ih hst

/-! ## What the page shows -/

/-- The workers tell their stories in `out`, the workloads under numbers of
    their own. -/
structure Stories (s : Recorder κ) : Prop where
  known : ∀ e ∈ s.out, e.1 < s.process.goroutines.length
  numbers : ∀ (i j : Nat) g g' k, s.process.goroutines[i]? = some g →
    s.process.goroutines[j]? = some g' → workloadID g = some k →
    workloadID g' = some k → i = j
  workload : ∀ (i : Nat) c b w,
    s.process.goroutines[i]? = some ⟨c, b, .workload w⟩ →
    Told c w (linesOf i s.out)
  memQ : ∀ (i : Nat) c b ph,
    s.process.goroutines[i]? = some ⟨c, b, .memQ ph⟩ →
    MemQTold c ph (linesOf i s.out)

/-- **THE HISTORY**: whatever the order of the calls and of the workers, a page
    shows the last twenty of all lines, with their numbers, and the lines of
    every worker are its story so far. -/
theorem history_tells (h : Runs (start κ) s) :
    s.apiGet.history = (entries s.out).rtake maxHistory
      ∧ s.nextHistoryID = s.out.length ∧ Stories s := by
  have hi := inv_of_runs h
  refine ⟨hi.history, hi.next, hi.known, hi.numbered.apart, ?_, ?_⟩
  · intro i c b w hg
    have ht : Telling c w (linesOf i s.out) := hi.tells i _ hg
    exact ht.toTold
  · intro i c b ph hg
    exact hi.tells i _ hg

/-! ## After a cancel -/

/-- How many lines a cancelled worker may still put out. -/
def linesLeft : Worker → Nat
  | .workload ⟨_, _, _, .starting⟩ => 2
  | .workload ⟨_, _, _, .counting⟩ => 2
  | .workload ⟨_, _, _, .generating⟩ => 2
  | .workload ⟨_, _, _, .selecting⟩ => 1
  | .workload ⟨_, _, _, .done _⟩ => 1
  | .workload _ => 0
  | .memQ .starting => 2
  | .memQ .calling => 2
  | .memQ (.returned _) => 2
  | .memQ .selecting => 1
  | .memQ .sleeping => 1
  | .memQ .stopping => 1
  | .memQ _ => 0

theorem linesLeft_le (w : Worker) : linesLeft w ≤ 2 := by
  cases w with
  | workload w =>
      obtain ⟨k, n, tm, ph⟩ := w
      cases ph <;> simp [linesLeft]
  | memQ ph => cases ph <;> simp [linesLeft]

/-- Every line of a cancelled worker is one of these. -/
theorem linesLeft_move {g g' : Goroutine} {e : Input} (h : Move g e g')
    (hc : g.canceled = true) (t : Texts) :
    linesLeft g'.worker + (lineOf t g g').toList.length
      ≤ linesLeft g.worker := by
  cases h with
  | @workload c ctx w w' e h =>
      obtain rfl : ctx = true := hc
      cases h with
      | @fire k n ph => cases ph <;> simp [linesLeft, lineOf, workLine]
      | default h ht => exact absurd h (by simp)
      | _ => simp [linesLeft, lineOf, workLine]
  | @memQ c ctx ph ph' e h =>
      obtain rfl : ctx = true := hc
      cases h with
      | default h => exact absurd h (by simp)
      | @retry x hx => cases x <;> simp [linesLeft, lineOf, memQLine]
      | @exit x code hx => cases x <;> simp [linesLeft, lineOf, memQLine]
      | @itemDone x hx => cases x <;> simp [linesLeft, lineOf, memQLine]
      | _ => simp [linesLeft, lineOf, memQLine]

/-- The worker `i` is cancelled, and has put out at most `n` lines when it is
    through. -/
def Waning (i n : Nat) (s : Recorder κ) : Prop :=
  ∃ g, s.process.goroutines[i]? = some g ∧ g.canceled = true
    ∧ (linesOf i s.out).length + linesLeft g.worker ≤ n

/-- A `Restart` leaves a cancelled worker as it is. -/
theorem restart_canceled {kg : KeyGen} {gs : List Goroutine} {i : Nat}
    {g : Goroutine} (hg : gs[i]? = some g) (hc : g.canceled = true) :
    (kg.restart gs).2[i]? = some g := by
  have hlt := (List.getElem?_eq_some_iff.mp hg).1
  have hlen := length_cancel gs kg.cancelFunc
  have hold : (cancel gs kg.cancelFunc)[i]? = some g := by
    cases hx : (cancel gs kg.cancelFunc)[i]? with
    | none =>
        have := List.getElem?_eq_none_iff.mp hx
        omega
    | some x =>
        obtain ⟨g₀, hg₀, rfl⟩ := getElem?_cancel hx
        obtain rfl := Option.some.inj (hg.symm.trans hg₀)
        split
        · rw [← hc]
        · rfl
  rw [KeyGen.restart]
  split
  · split
    · exact (List.getElem?_append_left (by omega)).trans hold
    · exact (List.getElem?_append_left (by omega)).trans hold
  · exact hold

theorem waning_step {i n : Nat} (h : Waning i n s) (hs : Step s s') :
    Waning i n s' := by
  obtain ⟨g, hg, hc, hle⟩ := h
  cases hs with
  | @loadConfig a p ha hst =>
      cases hst with
      | assign k c hr hk => exact ⟨g, hg, hc, hle⟩
      | restart k hr hk => exact ⟨g, restart_canceled hg hc, hc, hle⟩
      | worker j hr hj hm => exact absurd rfl (ha j _)
  | @worker j t x x' e hr hx hm =>
      have hout : linesOf i (s.move j x' (lineOf t x x')).out
          = linesOf i s.out
            ++ if j = i then (lineOf t x x').toList else [] := by
        cases lineOf t x x' with
        | none => rw [Option.toList_none, ite_self, List.append_nil]; rfl
        | some text => exact linesOf_append i j s.out text
      rw [Waning, hout, process_move]
      by_cases hj : j = i
      · subst hj
        obtain rfl := Option.some.inj (hg.symm.trans hx)
        have hless := linesLeft_move hm hc t
        refine ⟨x', List.getElem?_set_self
          (List.getElem?_eq_some_iff.mp hg).1, ?_, ?_⟩
        · rw [(same_of_move hm).2.1]
          exact hc
        · rw [if_pos rfl, List.length_append]
          omega
      · rw [if_neg hj, List.append_nil]
        exact ⟨g, (List.getElem?_set_ne hj).trans hg, hc, hle⟩

/-- **AFTER ITS CANCEL** a worker puts out at most two more lines, whoever calls
    `LoadConfig` meanwhile and whatever the other workers do. -/
theorem two_more_lines {i : Nat} {g : Goroutine} (h : Runs s s')
    (hg : s.process.goroutines[i]? = some g) (hc : g.canceled = true) :
    (linesOf i s'.out).length ≤ (linesOf i s.out).length + 2 := by
  have hstart : Waning i ((linesOf i s.out).length + 2) s :=
    ⟨g, hg, hc, Nat.add_le_add_left (linesLeft_le _) _⟩
  have hend : Waning i ((linesOf i s.out).length + 2) s' := by
    induction h with
    | refl => exact hstart
    | tail _ hst ih => exact waning_step ih hst
  obtain ⟨g', -, -, hle⟩ := hend
  omega

end Runs

/-! ## A restart in the middle of an item -/

/-- What `generateKey` gives. -/
def aKey : Texts := ⟨"SHA256:key", "", ""⟩

theorem running_of_all {κ : Type} {p : Process κ}
    (h : p.goroutines.all fun g => g.worker.exitCode.isNone) : Running p := by
  intro g hg
  simpa using List.all_eq_true.mp h g hg

/-- The first workload is cancelled while it generates a key; the second begins,
    and the first puts its item out and exits. -/
theorem runs_restarted :
    ∃ s s' : Recorder Bool, Runs (start Bool) s ∧ Runs s s'
      ∧ (∃ g, s.process.goroutines[0]? = some g ∧ g.canceled = true)
      ∧ s.out = [(0, startingLine 0)]
      ∧ s'.out = [(0, startingLine 0), (1, startingLine 1),
        (0, itemLine tenItems 0 1 false aKey), (0, exitingLine 0)] := by
  have hten : ¬ reached tenItems 0 := fun h => absurd h.2 (by decide)
  have h : Runs (start Bool) _ := .refl
  have h := h.tail (.loadConfig (by simp)
    (.assign true tenItems (running_of_all rfl) rfl))
  have h := h.tail (.loadConfig (by simp)
    (.restart true (running_of_all rfl) rfl))
  have h := h.tail (.worker 0 aKey (running_of_all rfl) rfl
    (.workload .startWork))
  have h := h.tail (.worker 0 aKey (running_of_all rfl) rfl
    (.workload (.default rfl (by decide))))
  have h := h.tail (.worker 0 aKey (running_of_all rfl) rfl
    (.workload (.notDone hten)))
  have h := h.tail (.loadConfig (by simp)
    (.assign true tenItems (running_of_all rfl) rfl))
  have h := h.tail (.loadConfig (by simp)
    (.restart true (running_of_all rfl) rfl))
  -- from here on the first workload is cancelled
  have hfrom : ∀ {a b : Recorder Bool}, Runs a b → Runs b b := fun _ => .refl
  have h' := (hfrom h).tail (.worker 1 aKey (running_of_all rfl) rfl
    (.workload .startWork))
  have h' := h'.tail (.worker 0 aKey (running_of_all rfl) rfl
    (.workload .itemDone))
  have h' := h'.tail (.worker 0 aKey (running_of_all rfl) rfl
    (.workload (.canceled rfl)))
  have h' := h'.tail (.worker 0 aKey (running_of_all rfl) rfl
    (.workload (.log true)))
  exact ⟨_, _, h, h', ⟨_, rfl, rfl⟩, rfl, rfl⟩

/-- The four lines on the page. -/
theorem history_tells_restarted :
    ∃ s : Recorder Bool, Stories s ∧ s.apiGet.history
      = [⟨0, startingLine 0⟩, ⟨1, startingLine 1⟩,
        ⟨2, itemLine tenItems 0 1 false aKey⟩, ⟨3, exitingLine 0⟩] := by
  obtain ⟨s, s', h, h', -, -, hout⟩ := runs_restarted
  obtain ⟨hist, -, hs⟩ := history_tells (h.trans h')
  refine ⟨s', hs, ?_⟩
  rw [hist, hout]
  rfl

/-- Two of them are of the first workload, and came after its cancel. -/
theorem two_more_lines_restarted :
    ∃ s s' : Recorder Bool, Runs s s'
      ∧ (linesOf 0 s.out).length = 1 ∧ (linesOf 0 s'.out).length = 3
      ∧ (linesOf 0 s'.out).length ≤ (linesOf 0 s.out).length + 2 := by
  obtain ⟨s, s', -, h', ⟨g, hg, hc⟩, hout, hout'⟩ := runs_restarted
  refine ⟨s, s', h', ?_, ?_, two_more_lines h' hg hc⟩
  · rw [hout]
    rfl
  · rw [hout']
    rfl

end KeygenHistory
