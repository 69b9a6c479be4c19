import KubernetesUpRunning.MemqWorker
import Mathlib.Logic.Function.Basic
import Mathlib.Logic.Relation

/-! # The keygen workloads of one process

    `LoadConfig` assigns the configuration and then restarts the work: under the
    lock it calls the cancel function of the last worker and starts a new one.
    A worker that was cancelled goes on until it looks at its context.  Workers
    are numbered in the order in which they were started, and a cancel function
    is the number of its worker; what they log is left out, but for the moments
    at which they log, where a restart may come between. -/

namespace KeygenWorkers

open MemqWorker (Config ClientError Next afterDequeue)
open MemqBroker (Message)

/-- What comes to a worker from outside: its `select` receives from the timer,
    its `Dequeue` returns, or neither. -/
inductive Input where
  | timeout
  | reply (x : Except ClientError (Option Message))
  | nothing

/-! ## The workload -/

/-- Where a `workload` is: before `startWork`, at the `select` of `isDone`, at
    the check of the count, in `generateKey`, in `done` before and after its
    log, back from `startWork`, or gone with the process. -/
inductive WorkPhase where
  | starting
  | selecting
  | counting
  | generating
  | done (canceled : Bool)
  | logged (canceled : Bool)
  | returned
  | exited (code : Int)
deriving DecidableEq, Repr

/-- What `workload` keeps beside its configuration and its context.  A timer of
    which nothing is to come is `none`; any other has fired or not.
    `generated` is the source's for fewer than 2^63 items. -/
structure Workload where
  id : Int
  generated : Int
  timeout : Option Bool
  phase : WorkPhase
deriving DecidableEq, Repr

/-- The limit of `isDone` on the items. -/
def reached (c : Config) (generated : Int) : Prop :=
  0 < c.numToGen ∧ c.numToGen ≤ generated

/-- One step of a `workload`; `ctx` says whether its context is done. -/
inductive WorkStep (c : Config) (ctx : Bool) :
    Workload → Input → Workload → Prop
  | startWork {k n : Int} {t : Option Bool} :
      WorkStep c ctx ⟨k, n, t, .starting⟩ .nothing
        ⟨k, n, if 0 < c.timeToRun then some false else t, .selecting⟩
  -- the runtime sends on the channel of `time.After`
  | fire {k n : Int} {ph : WorkPhase} :
      WorkStep c ctx ⟨k, n, some false, ph⟩ .nothing ⟨k, n, some true, ph⟩
  -- `select` takes any case that is ready
  | canceled {k n : Int} {t : Option Bool} (h : ctx = true) :
      WorkStep c ctx ⟨k, n, t, .selecting⟩ .nothing ⟨k, n, t, .done true⟩
  | timeout {k n : Int} :
      WorkStep c ctx ⟨k, n, some true, .selecting⟩ .timeout
        ⟨k, n, none, .done false⟩
  -- no other case is ready
  | default {k n : Int} {t : Option Bool} (h : ctx = false)
      (ht : t ≠ some true) :
      WorkStep c ctx ⟨k, n, t, .selecting⟩ .nothing ⟨k, n, t, .counting⟩
  -- the context is not looked at again before the next `select`
  | complete {k n : Int} {t : Option Bool} (h : reached c n) :
      WorkStep c ctx ⟨k, n, t, .counting⟩ .nothing ⟨k, n, t, .done false⟩
  | notDone {k n : Int} {t : Option Bool} (h : ¬ reached c n) :
      WorkStep c ctx ⟨k, n, t, .counting⟩ .nothing ⟨k, n, t, .generating⟩
  | itemDone {k n : Int} {t : Option Bool} :
      WorkStep c ctx ⟨k, n, t, .generating⟩ .nothing ⟨k, n + 1, t, .selecting⟩
  -- the log of `done` waits for the lock that `Restart` holds
  | log {k n : Int} {t : Option Bool} (b : Bool) :
      WorkStep c ctx ⟨k, n, t, .done b⟩ .nothing ⟨k, n, t, .logged b⟩
  | exit {k n : Int} {t : Option Bool} (h : c.exitOnComplete = true) :
      WorkStep c ctx ⟨k, n, t, .logged false⟩ .nothing
        ⟨k, n, t, .exited c.exitCode⟩
  | stop {k n : Int} {t : Option Bool} {b : Bool}
      (h : b = true ∨ c.exitOnComplete = false) :
      WorkStep c ctx ⟨k, n, t, .logged b⟩ .nothing ⟨k, n, t, .returned⟩

/-! ## The MemQ worker -/

/-- Where a `memQWorker` is: before `startWork`, at the `select` of `isDone`,
    in `Dequeue`, back from it, asleep, shutting down, back from `startWork`, or
    gone with the process. -/
inductive MemQPhase where
  | starting
  | selecting
  | calling
  | returned (x : Except ClientError (Option Message))
  | sleeping
  | stopping
  | stopped
  | exited (code : Int)

/-- One step of a `memQWorker`; `Dequeue` may return anything. -/
inductive MemQStep (c : Config) (ctx : Bool) :
    MemQPhase → Input → MemQPhase → Prop
  | startWork : MemQStep c ctx .starting .nothing .selecting
  | canceled (h : ctx = true) : MemQStep c ctx .selecting .nothing .stopping
  | default (h : ctx = false) : MemQStep c ctx .selecting .nothing .calling
  | reply (x : Except ClientError (Option Message)) :
      MemQStep c ctx .calling (.reply x) (.returned x)
  | retry {x : Except ClientError (Option Message)}
      (h : afterDequeue c x = .retry) :
      MemQStep c ctx (.returned x) .nothing .sleeping
  | exit {x : Except ClientError (Option Message)} {code : Int}
      (h : afterDequeue c x = .exit code) :
      MemQStep c ctx (.returned x) .nothing (.exited code)
  | itemDone {x : Except ClientError (Option Message)}
      (h : afterDequeue c x = .itemDone) :
      MemQStep c ctx (.returned x) .nothing .selecting
  | wake : MemQStep c ctx .sleeping .nothing .selecting
  | log : MemQStep c ctx .stopping .nothing .stopped

/-- The phase of a worker that nobody cancels, with its request in `Dequeue`. -/
def phaseOf : MemqWorker.Phase → MemQPhase
  | .ready => .selecting
  | .calling => .calling
  | .serving _ => .calling
  | .answered _ => .calling
  | .returned x => .returned x
  | .sleeping => .sleeping
  | .exited code => .exited code

/-- **ONE WORKER**: what the worker of the broker does is what a worker does
    whose context is not done. -/
theorem memQStep_of_local {c : Config} {b b' : MemqBroker.Broker}
    {ph ph' : MemqWorker.Phase} {es : List MemqWorker.Event}
    (h : MemqWorker.Local c b ph es ph' b') :
    phaseOf ph' = phaseOf ph
      ∨ ∃ e, MemQStep c false (phaseOf ph) e (phaseOf ph') := by
  cases h with
  | call => exact Or.inr ⟨_, .default rfl⟩
  | unsent text => exact Or.inr ⟨_, .reply _⟩
  | unnamed h => exact Or.inl rfl
  | missing h he => exact Or.inl rfl
  | found h hp => exact Or.inl rfl
  | getMessage p => exact Or.inl rfl
  | returned r => exact Or.inr ⟨_, .reply _⟩
  | retry h => exact Or.inr ⟨_, .retry h⟩
  | exit h => exact Or.inr ⟨_, .exit h⟩
  | itemDone h => exact Or.inr ⟨_, .itemDone h⟩
  | wake => exact Or.inr ⟨_, .wake⟩

/-! ## Goroutines -/

/-- A worker of either kind. -/
inductive Worker where
  | workload (w : Workload)
  | memQ (ph : MemQPhase)

def Worker.isMemQ : Worker → Bool
  | .workload _ => false
  | .memQ _ => true

/-- The worker has called `os.Exit`. -/
def Worker.exitCode : Worker → Option Int
  | .workload ⟨_, _, _, .exited code⟩ => some code
  | .memQ (.exited code) => some code
  | _ => none

/-- A worker with its configuration and its context. -/
structure Goroutine where
  c : Config
  canceled : Bool
  worker : Worker

/-- One step of a worker. -/
inductive Move : Goroutine → Input → Goroutine → Prop
  | workload {c : Config} {ctx : Bool} {w w' : Workload} {e : Input}
      (h : WorkStep c ctx w e w') :
      Move ⟨c, ctx, .workload w⟩ e ⟨c, ctx, .workload w'⟩
  | memQ {c : Config} {ctx : Bool} {ph ph' : MemQPhase} {e : Input}
      (h : MemQStep c ctx ph e ph') :
      Move ⟨c, ctx, .memQ ph⟩ e ⟨c, ctx, .memQ ph'⟩

/-- A worker keeps its configuration, its context and its kind. -/
theorem same_of_move {g g' : Goroutine} {e : Input} (h : Move g e g') :
    g'.c = g.c ∧ g'.canceled = g.canceled
      ∧ g'.worker.isMemQ = g.worker.isMemQ := by
  cases h with
  | workload h => exact ⟨rfl, rfl, rfl⟩
  | memQ h => exact ⟨rfl, rfl, rfl⟩

/-! ## Restarts -/

/-- What `KeyGen` keeps, but for its history; the counter is the source's for
    fewer than 2^63 restarts. -/
structure KeyGen where
  config : Config
  nextWorkloadID : Int
  cancelFunc : Option Nat

/-- `New`. -/
def new : KeyGen := ⟨⟨false, 0, 0, "", "", false, 0⟩, 0, none⟩

/-- The call of a cancel function, if there is one. -/
def cancel (gs : List Goroutine) : Option Nat → List Goroutine
  | none => gs
  | some i => gs.modify i fun g => { g with canceled := true }

/-- A worker after the call of a cancel function. -/
theorem getElem?_cancel {gs : List Goroutine} {f : Option Nat} {i : Nat}
    {g' : Goroutine} (h : (cancel gs f)[i]? = some g') :
    ∃ g, gs[i]? = some g
      ∧ g' = if f = some i then { g with canceled := true } else g := by
  cases f with
  | none => exact ⟨g', h, (if_neg (by simp)).symm⟩
  | some j =>
      have hmod : (gs[i]?).map (fun g => if j = i then
          { g with canceled := true } else g) = some g' := by
        rw [← h, cancel, List.getElem?_modify]
        by_cases hj : j = i
        · simp [hj]
        · simp [hj]
      obtain ⟨g, hg, rfl⟩ := Option.map_eq_some_iff.mp hmod
      refine ⟨g, hg, ?_⟩
      by_cases hj : j = i
      · rw [if_pos hj, if_pos (by rw [hj])]
      · rw [if_neg hj, if_neg (by simp [hj])]

/-- The worker whose cancel function is called. -/
theorem getElem?_cancel_self {gs : List Goroutine} {i : Nat} {g : Goroutine}
    (h : gs[i]? = some g) :
    (cancel gs (some i))[i]? = some { g with canceled := true } := by
  rw [cancel, List.getElem?_modify, h]
  simp

/-- `KeyGen.Restart`. -/
def KeyGen.restart (kg : KeyGen) (gs : List Goroutine) :
    KeyGen × List Goroutine :=
  let gs := cancel gs kg.cancelFunc
  if kg.config.enable then
    if kg.config.memQQueue ≠ "" ∧ kg.config.memQServer ≠ "" then
      ({ kg with cancelFunc := some gs.length },
        gs ++ [⟨kg.config, false, .memQ .starting⟩])
    else
      ({ kg with
          cancelFunc := some gs.length
          nextWorkloadID := kg.nextWorkloadID + 1 },
        gs ++ [⟨kg.config, false,
          .workload ⟨kg.nextWorkloadID, 0, none, .starting⟩⟩])
  else ({ kg with cancelFunc := none }, gs)

/-- What `Restart` does: the last worker is cancelled, and one is started if the
    configuration says so. -/
theorem restart_cases (kg : KeyGen) (gs : List Goroutine) :
    (kg.config.enable = false
        ∧ (kg.restart gs).1.config = kg.config
        ∧ (kg.restart gs).1.cancelFunc = none
        ∧ (kg.restart gs).2 = cancel gs kg.cancelFunc)
      ∨ (kg.config.enable = true
        ∧ (kg.restart gs).1.config = kg.config
        ∧ (kg.restart gs).1.cancelFunc = some (cancel gs kg.cancelFunc).length
        ∧ ∃ w : Worker, w.exitCode = none
          ∧ (w.isMemQ = true ↔
            kg.config.memQQueue ≠ "" ∧ kg.config.memQServer ≠ "")
          ∧ (kg.restart gs).2
              = cancel gs kg.cancelFunc ++ [⟨kg.config, false, w⟩]) := by
  rw [KeyGen.restart]
  -- the branches of `Restart`; the kinds of worker differ in nothing else
  by_cases he : kg.config.enable = true
  · refine Or.inr ⟨he, ?_⟩
    rw [if_pos he]
    by_cases hm : kg.config.memQQueue ≠ "" ∧ kg.config.memQServer ≠ ""
    · rw [if_pos hm]
      exact ⟨rfl, rfl, .memQ .starting, rfl, iff_of_true rfl hm, rfl⟩
    · rw [if_neg hm]
      exact ⟨rfl, rfl, .workload ⟨kg.nextWorkloadID, 0, none, .starting⟩, rfl,
        iff_of_false (by simp [Worker.isMemQ]) hm, rfl⟩
  · refine Or.inl ⟨by simpa using he, ?_⟩
    rw [if_neg he]
    exact ⟨rfl, rfl, rfl⟩

/-! ## The process -/

/-- The process: what `KeyGen` keeps, the workers started so far, and the calls
    of `LoadConfig` that have assigned and not yet restarted. -/
structure Process (κ : Type) where
  kg : KeyGen
  goroutines : List Goroutine
  assigned : κ → Bool

/-- A new `KeyGen`. -/
def start (κ : Type) : Process κ := ⟨new, [], fun _ => false⟩

/-- The two halves of `LoadConfig`, and the steps of the workers. -/
inductive Act (κ : Type) where
  | assign (k : κ) (c : Config)
  | restart (k : κ)
  | worker (i : Nat) (e : Input)

section Process

variable {κ : Type}

/-- A step of one worker. -/
def Process.move (s : Process κ) (i : Nat) (g : Goroutine) : Process κ :=
  { s with goroutines := s.goroutines.set i g }

/-- `os.Exit` has not been called. -/
def Running (s : Process κ) : Prop :=
  ∀ g ∈ s.goroutines, g.worker.exitCode = none

/-- A worker that is not cancelled. -/
def Live (s : Process κ) (i : Nat) (g : Goroutine) : Prop :=
  s.goroutines[i]? = some g ∧ g.canceled = false

/-- The worker that runs is the configured one. -/
structure Settled (s : Process κ) : Prop where
  enabled : (∃ i g, Live s i g) ↔ s.kg.config.enable = true
  configured : ∀ i g, Live s i g →
    g.c = s.kg.config ∧ (g.worker.isMemQ = true ↔
      s.kg.config.memQQueue ≠ "" ∧ s.kg.config.memQServer ≠ "")

/-- At most one worker is not cancelled, and its cancel function is stored;
    while no call is under way it is the configured one. -/
structure OneLive (s : Process κ) : Prop where
  one : ∀ i j g g', Live s i g → Live s j g' → i = j
  stored : ∀ i g, Live s i g → s.kg.cancelFunc = some i
  settled : (∀ k, s.assigned k = false) → Settled s

/-- What holds in every state. -/
structure Inv (s : Process κ) : Prop where
  stored : ∀ i g, Live s i g → s.kg.cancelFunc = some i
  settled : Settled s ∨ ∃ k, s.assigned k = true

theorem inv_start : Inv (start κ) := by
  have hnone : ∀ i g, ¬ Live (start κ) i g :=
    fun i g h => absurd h.1 (by simp [start])
  refine ⟨fun i g h => absurd h (hnone i g), Or.inl ⟨?_, ?_⟩⟩
  · refine iff_of_false ?_ (by simp [start, new])
    rintro ⟨i, g, h⟩
    exact hnone i g h
  · exact fun i g h => absurd h (hnone i g)

/-- `Restart` cancels every worker there was. -/
theorem canceled_of_cancel {s : Process κ} (h : Inv s) {i : Nat} {g : Goroutine}
    (hg : (cancel s.goroutines s.kg.cancelFunc)[i]? = some g) :
    g.canceled = true := by
  obtain ⟨g₀, hg₀, rfl⟩ := getElem?_cancel hg
  by_cases hi : s.kg.cancelFunc = some i
  · rw [if_pos hi]
  · rw [if_neg hi]
    cases hlive : g₀.canceled with
    | true => rfl
    | false => exact absurd (h.stored i g₀ ⟨hg₀, hlive⟩) hi

/-- **RESTART** settles the worker on the configuration that it finds. -/
theorem inv_restart {s : Process κ} (h : Inv s) (assigned : κ → Bool) :
    Inv ⟨(s.kg.restart s.goroutines).1, (s.kg.restart s.goroutines).2,
      assigned⟩ := by
  rcases restart_cases s.kg s.goroutines with
    ⟨he, hc, hf, hgs⟩ | ⟨he, hc, hf, w, -, hw, hgs⟩
  · -- every worker is cancelled
    have hnone : ∀ i g, ¬ Live ⟨(s.kg.restart s.goroutines).1,
        (s.kg.restart s.goroutines).2, assigned⟩ i g := by
      rintro i g ⟨hg, hlive⟩
      have hg' : (s.kg.restart s.goroutines).2[i]? = some g := hg
      rw [hgs] at hg'
      exact absurd ((canceled_of_cancel h hg').symm.trans hlive) (by simp)
    refine ⟨fun i g hl => absurd hl (hnone i g), Or.inl ⟨?_, ?_⟩⟩
    · refine iff_of_false ?_ (by simp [hc, he])
      rintro ⟨i, g, hl⟩
      exact hnone i g hl
    · exact fun i g hl => absurd hl (hnone i g)
  · -- every worker but the new one
    have hnew : ∀ i g, Live ⟨(s.kg.restart s.goroutines).1,
        (s.kg.restart s.goroutines).2, assigned⟩ i g →
        i = (cancel s.goroutines s.kg.cancelFunc).length
          ∧ g = ⟨s.kg.config, false, w⟩ := by
      rintro i g ⟨hg, hlive⟩
      have hg' : (s.kg.restart s.goroutines).2[i]? = some g := hg
      rw [hgs, List.getElem?_append] at hg'
      by_cases hi : i < (cancel s.goroutines s.kg.cancelFunc).length
      · rw [if_pos hi] at hg'
        exact absurd ((canceled_of_cancel h hg').symm.trans hlive) (by simp)
      · rw [if_neg hi, List.getElem?_singleton] at hg'
        split at hg'
        · exact ⟨by omega, (Option.some.inj hg').symm⟩
        · exact absurd hg' (by simp)
    refine ⟨?_, Or.inl ⟨?_, ?_⟩⟩
    · intro i g hl
      obtain ⟨rfl, -⟩ := hnew i g hl
      exact hf
    · refine iff_of_true ⟨(cancel s.goroutines s.kg.cancelFunc).length,
        ⟨s.kg.config, false, w⟩, ?_, rfl⟩ (by simp [hc, he])
      show (s.kg.restart s.goroutines).2[_]? = _
      rw [hgs]
      exact List.getElem?_concat_length
    · intro i g hl
      obtain ⟨-, rfl⟩ := hnew i g hl
      show s.kg.config = (s.kg.restart s.goroutines).1.config ∧ _
      rw [hc]
      exact ⟨rfl, hw⟩

/-- A step of a worker leaves the other workers alone. -/
theorem getElem?_set_move {gs : List Goroutine} {i j : Nat} {g g' x : Goroutine}
    {e : Input} (hg : gs[i]? = some g) (h : Move g e g')
    (hx : (gs.set i g')[j]? = some x) :
    ∃ y, gs[j]? = some y ∧ x.c = y.c ∧ x.canceled = y.canceled
      ∧ x.worker.isMemQ = y.worker.isMemQ := by
  rw [List.getElem?_set] at hx
  by_cases hij : i = j
  · subst hij
    rw [if_pos rfl] at hx
    split at hx
    · obtain rfl := Option.some.inj hx
      exact ⟨g, hg, same_of_move h⟩
    · exact absurd hx (by simp)
  · rw [if_neg hij] at hx
    exact ⟨x, hx, rfl, rfl, rfl⟩

/-- A step of a worker keeps the invariant. -/
theorem inv_move {s : Process κ} (h : Inv s) {i : Nat} {g g' : Goroutine}
    {e : Input} (hg : s.goroutines[i]? = some g) (hm : Move g e g') :
    Inv (s.move i g') := by
  have hback : ∀ j x, Live (s.move i g') j x →
      ∃ y, Live s j y ∧ x.c = y.c ∧ x.worker.isMemQ = y.worker.isMemQ := by
    rintro j x ⟨hx, hlive⟩
    obtain ⟨y, hy, hc, hcanceled, hkind⟩ := getElem?_set_move hg hm hx
    exact ⟨y, ⟨hy, hcanceled.symm.trans hlive⟩, hc, hkind⟩
  have hforth : ∀ j y, Live s j y →
      ∃ x, Live (s.move i g') j x := by
    rintro j y ⟨hy, hlive⟩
    by_cases hij : i = j
    · subst hij
      obtain rfl := Option.some.inj (hg.symm.trans hy)
      obtain ⟨hlt, -⟩ := List.getElem?_eq_some_iff.mp hg
      exact ⟨g', List.getElem?_set_self hlt, (same_of_move hm).2.1.trans hlive⟩
    · exact ⟨y, (List.getElem?_set_ne hij).trans hy, hlive⟩
  refine ⟨?_, h.settled.imp (fun hs => ⟨?_, ?_⟩) id⟩
  · intro j x hx
    obtain ⟨y, hy, -, -⟩ := hback j x hx
    exact h.stored j y hy
  · refine Iff.trans ⟨?_, ?_⟩ hs.enabled
    · rintro ⟨j, x, hx⟩
      obtain ⟨y, hy, -, -⟩ := hback j x hx
      exact ⟨j, y, hy⟩
    · rintro ⟨j, y, hy⟩
      exact ⟨j, hforth j y hy⟩
  · intro j x hx
    obtain ⟨y, hy, hc, hkind⟩ := hback j x hx
    rw [hc, hkind]
    exact hs.configured j y hy

theorem Inv.oneLive {s : Process κ} (h : Inv s) : OneLive s := by
  refine ⟨?_, h.stored, fun hall => ?_⟩
  · intro i j g g' hl hl'
    exact Option.some.inj ((h.stored i g hl).symm.trans (h.stored j g' hl'))
  · rcases h.settled with hs | ⟨k, hk⟩
    · exact hs
    · exact absurd ((hall k).symm.trans hk) (by simp)

variable [DecidableEq κ]

/-- The first half of `LoadConfig`. -/
def Process.assign (s : Process κ) (k : κ) (c : Config) : Process κ :=
  ⟨{ s.kg with config := c }, s.goroutines, Function.update s.assigned k true⟩

/-- The second half of `LoadConfig`. -/
def Process.restart (s : Process κ) (k : κ) : Process κ :=
  ⟨(s.kg.restart s.goroutines).1, (s.kg.restart s.goroutines).2,
    Function.update s.assigned k false⟩

/-- One step of the process, which ends with the first `os.Exit`. -/
inductive Step (s : Process κ) : Act κ → Process κ → Prop
  | assign (k : κ) (c : Config) (hr : Running s) (hk : s.assigned k = false) :
      Step s (.assign k c) (s.assign k c)
  | restart (k : κ) (hr : Running s) (hk : s.assigned k = true) :
      Step s (.restart k) (s.restart k)
  | worker (i : Nat) {g g' : Goroutine} {e : Input} (hr : Running s)
      (hg : s.goroutines[i]? = some g) (h : Move g e g') :
      Step s (.worker i e) (s.move i g')

/-- Runs of the process. -/
abbrev Runs : Process κ → Process κ → Prop :=
  Relation.ReflTransGen fun s s' => ∃ a, Step s a s'

variable {s s' : Process κ}

/-- **ONE STEP** keeps the invariant. -/
theorem inv_step {a : Act κ} (h : Inv s) (hst : Step s a s') : Inv s' := by
  cases hst with
  | assign k c hr hk =>
      refine ⟨h.stored, Or.inr ⟨k, ?_⟩⟩
      show Function.update s.assigned k true k = true
      rw [Function.update_self]
  | restart k hr hk => exact inv_restart h _
  | worker i hr hg hm => exact inv_move h hg hm

/-- **A RUN** keeps it. -/
theorem inv_of_runs (h : Runs (start κ) s) : Inv s := by
  induction h with
  | refl => exact inv_start
  | tail _ hst ih =>
      obtain ⟨a, ha⟩ := hst
      exact inv_step ih ha

/-- **ONE LIVE WORKER**: in every run of any number of calls of `LoadConfig` and
    of the workers that they start. -/
theorem oneLive_of_runs (h : Runs (start κ) s) : OneLive s :=
  (inv_of_runs h).oneLive

end Process

/-! ## Two calls at once -/

/-- Ten items, and then the exit. -/
def tenItems : Config := ⟨true, 10, 0, "", "", true, 0⟩

/-- Items from a queue, until it is empty. -/
def fromQueue : Config := ⟨true, 0, 0, "http://memq", "jobs", true, 0⟩

/-- The first call assigns, the second assigns and restarts, and the restart of
    the first finds the configuration of the second. -/
theorem oneLive_twoCalls :
    ∃ s : Process Bool, (∀ k, s.assigned k = false)
      ∧ s.kg.config = fromQueue ∧ s.goroutines.length = 2 ∧ OneLive s := by
  have hnone : ∀ s : Process Bool, s.goroutines = [] → Running s :=
    fun s hs g hg => absurd hg (by simp [hs])
  have h : Runs (start Bool)
      (((start Bool).assign true tenItems).assign false fromQueue) :=
    .tail (.single ⟨_, .assign true tenItems (hnone _ rfl) rfl⟩)
      ⟨_, .assign false fromQueue (hnone _ rfl) rfl⟩
  have h := h.tail ⟨_, .restart false (hnone _ rfl) rfl⟩
  have h := h.tail ⟨_, .restart true (List.forall_mem_singleton.mpr rfl) rfl⟩
  exact ⟨_, by decide, rfl, rfl, oneLive_of_runs h⟩

end KeygenWorkers
