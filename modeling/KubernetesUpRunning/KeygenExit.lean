import KubernetesUpRunning.KeygenWorkers

/-! # Who ends the process

    A cancelled worker looks at its context at its `select` only.  Between that
    and `os.Exit` lie the check of the count and the log of `done` in one kind of
    worker, and a whole `Dequeue` in the other; and a `select` that finds both
    the context and the timer ready may take the timer.  These are all the ways:
    in a run without them a cancelled worker never exits. -/

namespace KeygenExit

open MemqWorker (Config afterDequeue exit_of_next)
open KeygenWorkers

/-! ## Past the last look -/

/-- The worker has looked at its context for the last time, and finds that its
    work is complete. -/
def Complete (c : Config) : Worker → Prop
  | .workload w => (w.phase = .counting ∧ reached c w.generated)
      ∨ w.phase = .done false ∨ w.phase = .logged false
  | .memQ ph => ph = .returned (.ok none)

/-- The next steps of the worker end in `os.Exit`. -/
def WillExit (g : Goroutine) : Prop :=
  g.c.exitOnComplete = true ∧ Complete g.c g.worker

/-- What comes from outside makes the work complete. -/
def Completes : Input → Prop
  | .timeout => True
  | .reply x => x = .ok none
  | .nothing => False

/-- The worker neither exits next nor has exited. -/
structure Harmless (g : Goroutine) : Prop where
  next : ¬ WillExit g
  past : g.worker.exitCode = none

/-- A cancelled `workload` comes to its exit through the timer only. -/
theorem harmless_workload {c : Config} {w w' : Workload} {e : Input}
    (h : WorkStep c true w e w') (hw : Harmless ⟨c, true, .workload w⟩)
    (he : c.exitOnComplete = true → ¬ Completes e) :
    Harmless ⟨c, true, .workload w'⟩ := by
  have hnot : ∀ ph, w'.phase = ph → ph ≠ .counting → ph ≠ .done false →
      ph ≠ .logged false → ¬ WillExit ⟨c, true, .workload w'⟩ := by
    rintro ph rfl hcount hdone hlog ⟨-, hphase | hphase | hphase⟩
    · exact hcount hphase.1
    · exact hdone hphase
    · exact hlog hphase
  cases h with
  | startWork => exact ⟨hnot _ rfl (by simp) (by simp) (by simp), rfl⟩
  | @fire k n ph =>
      -- a timer may fire wherever the worker is
      have hpast : (Worker.workload ⟨k, n, some false, ph⟩).exitCode = none :=
        hw.past
      refine ⟨fun hx => hw.next hx, ?_⟩
      show (Worker.workload ⟨k, n, some true, ph⟩).exitCode = none
      cases ph with
      | exited code => exact absurd hpast (by simp [Worker.exitCode])
      | _ => rfl
  | canceled h => exact ⟨hnot _ rfl (by simp) (by simp) (by simp), rfl⟩
  | timeout => exact ⟨fun hx => he hx.1 trivial, rfl⟩
  | default h ht => exact absurd h (by simp)
  -- the count was reached before
  | complete h => exact ⟨fun hx => hw.next ⟨hx.1, Or.inl ⟨rfl, h⟩⟩, rfl⟩
  | notDone h => exact ⟨hnot _ rfl (by simp) (by simp) (by simp), rfl⟩
  | itemDone => exact ⟨hnot _ rfl (by simp) (by simp) (by simp), rfl⟩
  | log b =>
      refine ⟨fun hx => hw.next ⟨hx.1, ?_⟩, rfl⟩
      obtain ⟨-, hphase | hphase | hphase⟩ := hx
      · exact absurd hphase.1 (by simp)
      · exact absurd hphase (by simp)
      · obtain rfl := WorkPhase.logged.inj hphase
        exact Or.inr (Or.inl rfl)
  | exit h => exact absurd ⟨h, Or.inr (Or.inr rfl)⟩ hw.next
  | stop h => exact ⟨hnot _ rfl (by simp) (by simp) (by simp), rfl⟩

/-- A cancelled `memQWorker` comes to its exit through a reply only. -/
theorem harmless_memQ {c : Config} {ph ph' : MemQPhase} {e : Input}
    (h : MemQStep c true ph e ph') (hw : Harmless ⟨c, true, .memQ ph⟩)
    (he : c.exitOnComplete = true → ¬ Completes e) :
    Harmless ⟨c, true, .memQ ph'⟩ := by
  have hnot : (∀ x, ph' ≠ .returned x) → ¬ WillExit ⟨c, true, .memQ ph'⟩ :=
    fun hph hx => hph _ hx.2
  cases h with
  | startWork => exact ⟨hnot (by simp), rfl⟩
  | canceled h => exact ⟨hnot (by simp), rfl⟩
  | default h => exact absurd h (by simp)
  | reply x =>
      refine ⟨?_, rfl⟩
      rintro ⟨hx, hreply⟩
      exact he hx (MemQPhase.returned.inj hreply)
  | retry h => exact ⟨hnot (by simp), rfl⟩
  | exit h =>
      obtain ⟨hx, rfl⟩ := exit_of_next h
      exact absurd ⟨hx, rfl⟩ hw.next
  | itemDone h => exact ⟨hnot (by simp), rfl⟩
  | wake => exact ⟨hnot (by simp), rfl⟩
  | log => exact ⟨hnot (by simp), rfl⟩

/-- **ONE STEP** of a cancelled worker: it comes to its exit only through what
    comes from outside. -/
theorem harmless_move {g g' : Goroutine} {e : Input} (h : Move g e g')
    (hc : g.canceled = true) (hg : Harmless g)
    (he : g.c.exitOnComplete = true → ¬ Completes e) : Harmless g' := by
  cases h with
  | workload h =>
      obtain rfl := hc
      exact harmless_workload h hg he
  | memQ h =>
      obtain rfl := hc
      exact harmless_memQ h hg he

/-! ## Timely runs -/

section Runs

variable {κ : Type}

/-- A restart comes before the last look of the worker that it cancels, or that
    worker goes on; and nothing that comes from outside completes the work of a
    cancelled worker that exits then. -/
def Timely (s : Process κ) : Act κ → Prop
  | .assign _ _ => True
  | .restart _ => ∀ (i : Nat) (g : Goroutine), s.kg.cancelFunc = some i →
      s.goroutines[i]? = some g → ¬ WillExit g
  | .worker i e => ∀ g, s.goroutines[i]? = some g → g.canceled = true →
      g.c.exitOnComplete = true → ¬ Completes e

/-- No cancelled worker exits or has exited. -/
def OnTime (s : Process κ) : Prop :=
  ∀ (i : Nat) (g : Goroutine), s.goroutines[i]? = some g →
    g.canceled = true → Harmless g

/-- A cancelled worker has not called `os.Exit`; and while no call is under way
    a worker that has is one of the stored configuration. -/
structure NoLateExit (s : Process κ) : Prop where
  canceled : ∀ (i : Nat) (g : Goroutine), s.goroutines[i]? = some g →
    g.canceled = true → g.worker.exitCode = none
  ordered : (∀ k, s.assigned k = false) →
    ∀ (i : Nat) (g : Goroutine), s.goroutines[i]? = some g →
      g.worker.exitCode ≠ none →
      s.kg.config.enable = true ∧ g.c = s.kg.config

theorem NoLateExit.of_onTime {s : Process κ} (h : OnTime s) (hi : Inv s) :
    NoLateExit s := by
  refine ⟨fun i g hg hc => (h i g hg hc).past, fun hall i g hg hx => ?_⟩
  have hlive : Live s i g := by
    refine ⟨hg, ?_⟩
    cases hc : g.canceled with
    | false => rfl
    | true => exact absurd (h i g hg hc).past hx
  have hs := hi.oneLive.settled hall
  exact ⟨hs.enabled.mp ⟨i, g, hlive⟩, (hs.configured i g hlive).1⟩

/-- `Restart` in time keeps the cancelled workers from exiting. -/
theorem onTime_restart {s : Process κ} (h : OnTime s) (hr : Running s)
    (ht : ∀ (i : Nat) (g : Goroutine), s.kg.cancelFunc = some i →
      s.goroutines[i]? = some g → ¬ WillExit g) {i : Nat} {g : Goroutine}
    (hg : (s.kg.restart s.goroutines).2[i]? = some g)
    (hc : g.canceled = true) : Harmless g := by
  have hold : (cancel s.goroutines s.kg.cancelFunc)[i]? = some g →
      Harmless g := by
    intro hg
    obtain ⟨g₀, hg₀, rfl⟩ := getElem?_cancel hg
    by_cases hi : s.kg.cancelFunc = some i
    · rw [if_pos hi]
      exact ⟨ht i g₀ hi hg₀, hr g₀ (List.mem_of_getElem? hg₀)⟩
    · rw [if_neg hi] at hc ⊢
      exact h i g₀ hg₀ hc
  rcases restart_cases s.kg s.goroutines with
    ⟨-, -, -, hgs⟩ | ⟨-, -, -, w, -, -, hgs⟩
  · rw [hgs] at hg
    exact hold hg
  · rw [hgs, List.getElem?_append] at hg
    split at hg
    · exact hold hg
    · -- the new worker is not cancelled
      rw [List.getElem?_singleton] at hg
      split at hg
      · rw [← Option.some.inj hg] at hc
        exact absurd hc (by simp)
      · exact absurd hg (by simp)

variable [DecidableEq κ] {s s' : Process κ}

/-- **ONE TIMELY STEP** keeps the cancelled workers from exiting. -/
theorem onTime_step {a : Act κ} (h : OnTime s) (hst : Step s a s')
    (ht : Timely s a) : OnTime s' := by
  cases hst with
  | assign k c hr hk => exact h
  | restart k hr hk => exact fun i g hg hc => onTime_restart h hr ht hg hc
  | @worker i g g' e hr hg hm =>
      intro j x hx hc
      have hx' : (s.goroutines.set i g')[j]? = some x := hx
      rw [List.getElem?_set] at hx'
      by_cases hij : i = j
      · subst hij
        rw [if_pos rfl] at hx'
        split at hx'
        · obtain rfl := Option.some.inj hx'
          have hc₀ : g.canceled = true := (same_of_move hm).2.1.symm.trans hc
          exact harmless_move hm hc₀ (h i g hg hc₀) (ht g hg hc₀)
        · exact absurd hx' (by simp)
      · rw [if_neg hij] at hx'
        exact h j x hx' hc

/-- Runs of timely steps. -/
abbrev TimelyRuns : Process κ → Process κ → Prop :=
  Relation.ReflTransGen fun s s' => ∃ a, Step s a s' ∧ Timely s a

/-- **A TIMELY RUN** keeps the cancelled workers from exiting. -/
theorem onTime_of_runs (h : OnTime s) (hr : TimelyRuns s s') : OnTime s' := by
  induction hr with
  | refl => exact h
  | tail _ hst ih =>
      obtain ⟨a, ha, ht⟩ := hst
      exact onTime_step ih ha ht

theorem runs_of_timely (h : TimelyRuns s s') : Runs s s' := by
  induction h with
  | refl => exact .refl
  | tail _ hst ih =>
      obtain ⟨a, ha, -⟩ := hst
      exact ih.tail ⟨a, ha⟩

/-- **NO LATE EXIT**: in every state of every timely run. -/
theorem noLateExit_of_runs (h : TimelyRuns (start κ) s) : NoLateExit s := by
  have hstart : OnTime (start κ) := fun i g hg => absurd hg (by simp [start])
  exact .of_onTime (onTime_of_runs hstart h) (inv_of_runs (runs_of_timely h))

/-! ## Every late step matters -/

omit [DecidableEq κ] in
theorem running_move {i : Nat} {g : Goroutine} (hr : Running s)
    (hg : g.worker.exitCode = none) : Running (s.move i g) := by
  intro x hx
  rcases List.mem_or_eq_of_mem_set hx with hx | rfl
  · exact hr x hx
  · exact hg

/-- What a cancelled worker does by itself is timely. -/
theorem runs_move {i : Nat} {g g' : Goroutine} (hr : Running s)
    (hg : s.goroutines[i]? = some g) (hm : Move g .nothing g') :
    TimelyRuns s (s.move i g') ∧ (s.move i g').goroutines[i]? = some g' := by
  obtain ⟨hlt, -⟩ := List.getElem?_eq_some_iff.mp hg
  exact ⟨.single ⟨_, .worker i hr hg hm, fun _ _ _ _ h => h⟩,
    List.getElem?_set_self hlt⟩

/-- A cancelled worker has called `os.Exit`. -/
def LateExit (s : Process κ) : Prop :=
  ∃ (i : Nat) (g : Goroutine), s.goroutines[i]? = some g ∧ g.canceled = true
    ∧ g.worker.exitCode ≠ none

/-- A cancelled worker that is past its last look can exit. -/
theorem lateExit_of_willExit {i : Nat} {g : Goroutine} (hr : Running s)
    (hg : s.goroutines[i]? = some g) (hc : g.canceled = true)
    (hw : WillExit g) : ∃ s', TimelyRuns s s' ∧ LateExit s' := by
  obtain ⟨c, ctx, w⟩ := g
  obtain rfl : ctx = true := hc
  obtain ⟨hx, hcomplete⟩ := hw
  have hx' : c.exitOnComplete = true := hx
  cases w with
  | memQ ph =>
      -- one step: the exit itself
      obtain rfl : ph = .returned (.ok none) := hcomplete
      have hexit : afterDequeue c (.ok none) = .exit c.exitCode := by
        rw [afterDequeue, if_pos hx']
      obtain ⟨hruns, hget⟩ := runs_move hr hg (.memQ (.exit hexit))
      exact ⟨_, hruns, i, _, hget, rfl, by simp [Worker.exitCode]⟩
  | workload w =>
      obtain ⟨k, n, t, ph⟩ := w
      -- at most three: into `done`, its log, and the exit
      have hlogged : ∀ s : Process κ, Running s → s.goroutines[i]?
          = some ⟨c, true, .workload ⟨k, n, t, .logged false⟩⟩ →
          ∃ s', TimelyRuns s s' ∧ LateExit s' := by
        intro s hr hg
        obtain ⟨hruns, hget⟩ := runs_move hr hg (.workload (.exit hx'))
        exact ⟨_, hruns, i, _, hget, rfl, by simp [Worker.exitCode]⟩
      have hdone : ∀ s : Process κ, Running s → s.goroutines[i]?
          = some ⟨c, true, .workload ⟨k, n, t, .done false⟩⟩ →
          ∃ s', TimelyRuns s s' ∧ LateExit s' := by
        intro s hr hg
        obtain ⟨hruns, hget⟩ := runs_move hr hg (.workload (.log false))
        obtain ⟨s', hruns', hlate⟩ := hlogged _ (running_move hr rfl) hget
        exact ⟨s', hruns.trans hruns', hlate⟩
      rcases hcomplete with ⟨hph, hn⟩ | hph | hph
      · obtain rfl : ph = .counting := hph
        obtain ⟨hruns, hget⟩ := runs_move hr hg (.workload (.complete hn))
        obtain ⟨s', hruns', hlate⟩ := hdone _ (running_move hr rfl) hget
        exact ⟨s', hruns.trans hruns', hlate⟩
      · obtain rfl : ph = .done false := hph
        exact hdone s hr hg
      · obtain rfl : ph = .logged false := hph
        exact hlogged s hr hg

/-- What completes the work from outside leaves the worker past its last
    look. -/
theorem complete_of_move {g g' : Goroutine} {e : Input} (h : Move g e g')
    (he : Completes e) :
    Complete g'.c g'.worker ∧ g'.worker.exitCode = none := by
  cases h with
  | workload h =>
      cases h with
      | timeout => exact ⟨Or.inr (Or.inl rfl), rfl⟩
      | _ => exact he.elim
  | memQ h =>
      cases h with
      | reply x => exact ⟨congrArg MemQPhase.returned he, rfl⟩
      | _ => exact he.elim

/-- The worker that `Restart` cancels. -/
theorem restart_last {kg : KeyGen} {gs : List Goroutine} {i : Nat}
    {g : Goroutine} (hi : kg.cancelFunc = some i) (hg : gs[i]? = some g) :
    (kg.restart gs).2[i]? = some { g with canceled := true } := by
  have hcancel := getElem?_cancel_self hg
  obtain ⟨hlt, -⟩ := List.getElem?_eq_some_iff.mp hcancel
  rcases restart_cases kg gs with ⟨-, -, -, hgs⟩ | ⟨-, -, -, w, -, -, hgs⟩
  · rw [hgs, hi]
    exact hcancel
  · rw [hgs, hi, List.getElem?_append_left hlt]
    exact hcancel

theorem running_restart {k : κ} (hr : Running s) : Running (s.restart k) := by
  have hold : ∀ x ∈ cancel s.goroutines s.kg.cancelFunc,
      x.worker.exitCode = none := by
    intro x hx
    obtain ⟨i, hi⟩ := List.mem_iff_getElem?.mp hx
    obtain ⟨g, hg, rfl⟩ := getElem?_cancel hi
    have hnone := hr g (List.mem_of_getElem? hg)
    split
    · exact hnone
    · exact hnone
  intro x hx
  have hx' : x ∈ (s.kg.restart s.goroutines).2 := hx
  rcases restart_cases s.kg s.goroutines with
    ⟨-, -, -, hgs⟩ | ⟨-, -, -, w, hw, -, hgs⟩
  · rw [hgs] at hx'
    exact hold x hx'
  · rw [hgs] at hx'
    rcases List.mem_append.mp hx' with hx' | hx'
    · exact hold x hx'
    · rw [List.mem_singleton.mp hx']
      exact hw

/-- **A LATE STEP** lets a cancelled worker exit. -/
theorem lateExit_of_late {a : Act κ} (hst : Step s a s')
    (ht : ¬ Timely s a) : ∃ t, TimelyRuns s' t ∧ LateExit t := by
  cases hst with
  | assign k c hr hk => exact absurd trivial ht
  | restart k hr hk =>
      have hex : ∃ i g, s.kg.cancelFunc = some i ∧ s.goroutines[i]? = some g
          ∧ WillExit g := by
        by_contra hno
        exact ht fun i g hi hg hw => hno ⟨i, g, hi, hg, hw⟩
      obtain ⟨i, g, hi, hg, hw⟩ := hex
      exact lateExit_of_willExit (running_restart hr) (restart_last hi hg) rfl hw
  | @worker i g g' e hr hg hm =>
      have hex : g.canceled = true ∧ g.c.exitOnComplete = true
          ∧ Completes e := by
        by_contra hno
        refine ht fun x hx hc hexit he => hno ?_
        obtain rfl := Option.some.inj (hg.symm.trans hx)
        exact ⟨hc, hexit, he⟩
      obtain ⟨hc, hexit, he⟩ := hex
      obtain ⟨hcfg, hctx, -⟩ := same_of_move hm
      obtain ⟨hcomplete, hnone⟩ := complete_of_move hm he
      obtain ⟨hlt, -⟩ := List.getElem?_eq_some_iff.mp hg
      exact lateExit_of_willExit (running_move hr hnone)
        (List.getElem?_set_self hlt) (hctx.trans hc)
        ⟨hcfg ▸ hexit, hcomplete⟩

/-- **EXACTLY THE TIMELY STEPS**: after them no cancelled worker exits in a
    timely run, and after any other step one can. -/
theorem timely_iff {a : Act κ} (h : OnTime s) (hst : Step s a s') :
    Timely s a ↔ ∀ t, TimelyRuns s' t → ¬ LateExit t := by
  constructor
  · rintro ht t hruns ⟨i, g, hg, hc, hx⟩
    exact hx (onTime_of_runs (onTime_step h hst ht) hruns i g hg hc).past
  · intro hno
    by_contra ht
    obtain ⟨t, hruns, hlate⟩ := lateExit_of_late hst ht
    exact hno t hruns hlate

end Runs

/-! ## Stopped too late, and in time -/

/-- The configuration of `PUT {"enable": false}`. -/
def disabled : Config := new.config

/-- A timely run leads to one worker, with no call under way. -/
def LeadsTo (kg : KeyGen) (g : Goroutine) : Prop :=
  ∃ s : Process Unit, TimelyRuns (start Unit) s ∧ s.kg = kg
    ∧ s.goroutines = [g] ∧ s.assigned () = false

theorem running_one {s : Process Unit} {g : Goroutine}
    (hs : s.goroutines = [g]) (hg : g.worker.exitCode = none) :
    Running s := by
  intro x hx
  rw [hs, List.mem_singleton] at hx
  rw [hx]
  exact hg

/-- The worker of the queue starts. -/
theorem leadsTo_fromQueue :
    LeadsTo ⟨fromQueue, 0, some 0⟩ ⟨fromQueue, false, .memQ .selecting⟩ := by
  have hnone : ∀ s : Process Unit, s.goroutines = [] → Running s :=
    fun s hs g hg => absurd hg (by simp [hs])
  have h : TimelyRuns (start Unit) ((start Unit).assign () fromQueue) :=
    .single ⟨_, .assign () fromQueue (hnone _ rfl) rfl, trivial⟩
  have h := h.tail ⟨_, .restart () (hnone _ rfl) rfl,
    fun i g hi => absurd hi (Option.some_ne_none i).symm⟩
  have h := h.tail ⟨_, .worker 0 (running_one rfl rfl) rfl (.memQ .startWork),
    fun _ _ _ _ he => he⟩
  exact ⟨_, h, rfl, rfl, rfl⟩

/-- The worker takes a step by itself. -/
theorem LeadsTo.move {kg : KeyGen} {g g' : Goroutine} (h : LeadsTo kg g)
    (hg : g.worker.exitCode = none) (hm : Move g .nothing g') :
    LeadsTo kg g' := by
  obtain ⟨s, hs, hkg, hgs, hk⟩ := h
  obtain ⟨hruns, -⟩ := runs_move (running_one hgs hg) (i := 0)
    (by rw [hgs]; rfl) hm
  exact ⟨_, hs.trans hruns, hkg, by rw [Process.move, hgs]; rfl, hk⟩

/-- The work is disabled. -/
theorem LeadsTo.disable {c : Config} {n : Int} {g : Goroutine}
    (h : LeadsTo ⟨c, n, some 0⟩ g) (hg : g.worker.exitCode = none)
    (hw : ¬ WillExit g) :
    LeadsTo ⟨disabled, n, none⟩ { g with canceled := true } := by
  obtain ⟨⟨kg, gs, assigned⟩, hs, rfl, rfl, hk⟩ := h
  have hs := hs.tail ⟨_, .assign () disabled (running_one rfl hg) hk, trivial⟩
  have hs := hs.tail ⟨_, .restart () (running_one rfl hg) rfl, ?_⟩
  · exact ⟨_, hs, rfl, rfl, rfl⟩
  · intro i x hi hx
    obtain rfl := Option.some.inj hi
    obtain rfl := Option.some.inj hx
    exact hw

/-- The worker is at its `select` when the work is disabled, and stops. -/
theorem noLateExit_atSelect :
    ∃ s : Process Unit, s.kg.config = disabled ∧ NoLateExit s
      ∧ s.goroutines = [⟨fromQueue, true, .memQ .stopped⟩] := by
  have h := leadsTo_fromQueue.disable rfl fun hw => absurd hw.2 (by simp [Complete])
  have h := h.move rfl (.memQ (.canceled rfl))
  have h := h.move rfl (.memQ .log)
  obtain ⟨s, hs, hkg, hgs, -⟩ := h
  exact ⟨s, congrArg KeyGen.config hkg, noLateExit_of_runs hs, hgs⟩

/-- The worker is in `Dequeue` when the work is disabled, and then `Dequeue`
    comes back from an empty queue. -/
theorem not_noLateExit_inFlight :
    ∃ s : Process Unit, Runs (start Unit) s ∧ (∀ k, s.assigned k = false)
      ∧ s.kg.config = disabled ∧ ¬ NoLateExit s := by
  have h := leadsTo_fromQueue.move rfl (.memQ (.default rfl))
  have h := h.disable rfl fun hw => absurd hw.2 (by simp [Complete])
  obtain ⟨⟨kg, gs, assigned⟩, hs, rfl, rfl, hk⟩ := h
  have hruns := runs_of_timely hs
  have hruns := hruns.tail ⟨_, .worker 0 (running_one rfl rfl) rfl
    (.memQ (.reply (.ok none)))⟩
  have hruns := hruns.tail ⟨_, .worker 0 (running_one rfl rfl) rfl
    (.memQ (.exit rfl))⟩
  refine ⟨_, hruns, fun _ => hk, rfl, fun hno => ?_⟩
  exact absurd (hno.canceled 0 _ rfl rfl) (by simp [Worker.exitCode])

end KeygenExit
