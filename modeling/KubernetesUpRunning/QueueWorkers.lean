import KubernetesUpRunning.Reconcile
import KubernetesUpRunning.WorkQueue
import Mathlib.Data.List.Infix
import Mathlib.Logic.Relation

/-! # The workers and their queue

    Event handlers put keys into the queue; workers take a key, fetch the CR and
    reconcile it, call by call, and put the key back to wait when that fails.
    The API server may answer any call in any way.  `phase` reads off the
    history what became of a key since it was last notified, and `Accounted`
    ties it to the queue: a key that neither the queue nor a worker accounts
    for has been processed since, and its reconcile did not fail.  What is left
    is the fetch, any error of which is taken for "the CR is gone". -/

namespace QueueWorkers

open ApiServer CallProgram KubeObjects Reconcile VersionedStore WorkQueue

/-! ## Keys -/

/-- The key of an object, as the event handlers build it. -/
def keyFor (ns name : String) : String :=
  (if ns = "" then "default" else ns) ++ "/" ++ name

/-- `strings.SplitN(key, "/", 2)`. -/
def splitKey (key : String) : Key :=
  (String.ofList (key.toList.takeWhile fun ch => decide (ch ≠ '/')),
    String.ofList ((key.toList.dropWhile fun ch => decide (ch ≠ '/')).drop 1))

theorem splitKey_append {ns name : String} (h : '/' ∉ ns.toList) :
    splitKey (ns ++ "/" ++ name) = (ns, name) := by
  have hns : ∀ ch ∈ ns.toList, decide (ch ≠ '/') = true := by
    intro ch hch
    rw [decide_eq_true_eq]
    rintro rfl
    exact h hch
  have hkey : (ns ++ "/" ++ name).toList = ns.toList ++ '/' :: name.toList := by
    simp [String.toList_append]
  rw [splitKey]
  rw [hkey, List.takeWhile_append_of_pos hns, List.dropWhile_append_of_pos hns]
  simp

/-- The worker fetches the CR that was enqueued. -/
theorem splitKey_keyFor {ns name : String} (h : '/' ∉ ns.toList) :
    splitKey (keyFor ns name)
      = (if ns = "" then "default" else ns, name) := by
  refine splitKey_append ?_
  split
  · decide
  · exact h

/-- `gvr.Group`. -/
def gvrGroup : String := "gz.com"

/-- `strings.Contains(s, t)`. -/
def containsText (s t : String) : Bool := decide (t.toList <:+: s.toList)

/-- The reference has the kind, or the group in its version. -/
def hits (r : OwnerReference) : Bool :=
  decide (r.kind = "Multiplicador") || containsText r.apiVersion gvrGroup

/-- The loop over the owner references, which stops at the first hit. -/
def enqueueOwner (ns : String) : List OwnerReference → List String
  | [] => []
  | r :: rest => if hits r then [keyFor ns r.name] else enqueueOwner ns rest

/-- What the informers report: a CR (added, updated, deleted, or the last known
    state of a deleted one), a tombstone without an object, a Deployment. -/
inductive Notice where
  | object (ns name : String)
  | tombstone
  | deployment (d : Deployment)

/-- The key that the handler adds: of the CR, or of the first owner of the
    Deployment that is one. -/
def Notice.key : Notice → Option String
  | .object ns name => some (keyFor ns name)
  | .tombstone => none
  | .deployment d => (enqueueOwner d.ns d.ownerReferences).head?

/-! ## Workers -/

/-- How the processing of a key came out: the CR could not be fetched, or
    `reconcileOne` came back. -/
inductive Verdict where
  | fetchError (e : ApiError)
  | reconciled (o : Outcome)

/-- What happened to a key. -/
inductive Event where
  | notified (key : String)
  | begun (key : String)
  | concluded (key : String) (v : Verdict)

/-- A worker inside `processNextItem`: waiting for a key, about to fetch its
    CR, reconciling it, or about to tell the queue that it is done. -/
inductive Worker where
  | idle
  | fetching (key : String)
  | reconciling (key : String) (p : Api Outcome)
  | finishing (key : String)

/-- The key in hand. -/
def Worker.key : Worker → Option String
  | .idle => none
  | .fetching key => some key
  | .reconciling key _ => some key
  | .finishing key => some key

/-- The queue, the workers, and what has happened, latest first. -/
structure State (ι : Type) where
  queue : Queue String
  worker : ι → Worker
  history : List Event

section Steps

variable {ι : Type} [DecidableEq ι]

/-- An event handler runs. -/
def State.notify (s : State ι) (n : Notice) : State ι :=
  match n.key with
  | none => s
  | some key => { s with
      queue := s.queue.add key
      history := .notified key :: s.history }

/-- A worker leaves a key to be finished, with this verdict. -/
def State.conclude (s : State ι) (i : ι) (key : String) (v : Verdict)
    (q : Queue String) : State ι where
  queue := q
  worker := Function.update s.worker i (.finishing key)
  history := .concluded key v :: s.history

/-- The fetch has been answered: on any error the key is forgotten. -/
def State.fetched (s : State ι) (i : ι) (key : String) :
    Resp (.getCR (splitKey key)) → State ι
  | .error e => s.conclude i key (.fetchError e) (s.queue.forget key)
  | .ok u => { s with
      worker := Function.update s.worker i (.reconciling key (reconcileOne u)) }

/-- One step: an event handler runs, a wait is over, or a worker goes on.  A
    reconcile that panics takes the process down: it goes nowhere. -/
inductive Step (s : State ι) : State ι → Prop where
  | notify (n : Notice) : Step s (s.notify n)
  | due (key : String) (h : key ∈ s.queue.waiting) :
      Step s { s with queue := s.queue.due key }
  | get (i : ι) (key : String) (q : Queue String) (hw : s.worker i = .idle)
      (hg : s.queue.get = some (key, q)) :
      Step s ⟨q, Function.update s.worker i (.fetching key),
        .begun key :: s.history⟩
  | fetch (i : ι) (key : String) (x : Resp (.getCR (splitKey key)))
      (hw : s.worker i = .fetching key) : Step s (s.fetched i key x)
  | call (i : ι) (key : String) (r : Req) (f : Resp r → Api Outcome)
      (x : Resp r) (hw : s.worker i = .reconciling key (.call r f)) :
      Step s { s with
        worker := Function.update s.worker i (.reconciling key (f x)) }
  | succeed (i : ι) (key : String)
      (hw : s.worker i = .reconciling key (.ret .nil)) :
      Step s (s.conclude i key (.reconciled .nil) (s.queue.forget key))
  | fail (i : ι) (key : String) (e : GoError)
      (hw : s.worker i = .reconciling key (.ret (.error e))) :
      Step s (s.conclude i key (.reconciled (.error e))
        (s.queue.addRateLimited key))
  | done (i : ι) (key : String) (hw : s.worker i = .finishing key) :
      Step s { s with
        queue := s.queue.done key
        worker := Function.update s.worker i .idle }

/-- Runs of the workers. -/
abbrev Runs : State ι → State ι → Prop := Relation.ReflTransGen Step

end Steps

/-- The operator as it starts. -/
def start (ι : Type) : State ι := ⟨Queue.empty, fun _ => .idle, []⟩

/-! ## What the history says of a key -/

/-- Since the last notification: none yet, not begun, begun, or concluded. -/
inductive Phase where
  | never
  | notified
  | begun
  | concluded (v : Verdict)

/-- A processing that was begun is concluded. -/
def Phase.conclude (v : Verdict) : Phase → Phase
  | .begun => .concluded v
  | p => p

/-- What became of a key since it was last notified. -/
def phase (key : String) : List Event → Phase
  | [] => .never
  | .notified k :: h => if k = key then .notified else phase key h
  | .begun k :: h => if k = key then .begun else phase key h
  | .concluded k v :: h =>
      if k = key then (phase key h).conclude v else phase key h

/-- At the last processing of the key, begun after its last notification, the
    server answered that the CR does not exist or the reconcile returned
    nil. -/
def Attended (key : String) (h : List Event) : Prop :=
  phase key h = .concluded (.fetchError (.refused .notFound))
    ∨ phase key h = .concluded (.reconciled .nil)

/-- At the last processing of the key the CR could not be fetched, though the
    server did not answer that it does not exist. -/
def LastGetFailed (key : String) (h : List Event) : Prop :=
  ∃ e, e ≠ .refused .notFound ∧ phase key h = .concluded (.fetchError e)

/-- No fetch of the run failed but for want of the CR. -/
def GetsAnswered (h : List Event) : Prop :=
  ∀ key e, Event.concluded key (.fetchError e) ∈ h → e = .refused .notFound

/-- A processing that is not concluded was begun after the last
    notification. -/
theorem history_of_begun {key : String} {h : List Event}
    (hp : phase key h = .begun) :
    ∃ newer older, h = newer ++ .begun key :: older
      ∧ ∀ e ∈ newer, e ≠ .notified key ∧ e ≠ .begun key := by
  induction h with
  | nil => exact absurd hp (by simp [phase])
  | cons e h ih =>
      -- an event of another key, or the end of an older processing
      have hskip : phase key h = .begun → e ≠ .notified key → e ≠ .begun key →
          ∃ newer older, e :: h = newer ++ .begun key :: older
            ∧ ∀ e ∈ newer, e ≠ .notified key ∧ e ≠ .begun key := by
        intro hp' h₁ h₂
        obtain ⟨newer, older, rfl, hall⟩ := ih hp'
        refine ⟨e :: newer, older, rfl, ?_⟩
        intro e' he'
        rcases List.mem_cons.mp he' with rfl | he'
        · exact ⟨h₁, h₂⟩
        · exact hall e' he'
      rw [phase.eq_def] at hp
      cases e with
      | notified k =>
          dsimp only at hp
          split at hp
          · exact absurd hp (by simp)
          · rename_i hk
            exact hskip hp (by simpa using hk) (by simp)
      | begun k =>
          dsimp only at hp
          split at hp
          · rename_i hk
            exact ⟨[], h, by rw [hk]; rfl, by simp⟩
          · rename_i hk
            exact hskip hp (by simp) (by simpa using hk)
      | concluded k v =>
          dsimp only at hp
          split at hp
          · cases hp' : phase key h <;> rw [hp'] at hp <;>
              exact absurd hp (by simp [Phase.conclude])
          · exact hskip hp (by simp) (by simp)

/-- A verdict is that of the last processing, begun after the last
    notification. -/
theorem history_of_concluded {key : String} {v : Verdict} {h : List Event}
    (hp : phase key h = .concluded v) :
    ∃ newer during older,
      h = newer ++ .concluded key v :: (during ++ .begun key :: older)
      ∧ ∀ e ∈ newer ++ during, e ≠ .notified key ∧ e ≠ .begun key := by
  induction h with
  | nil => exact absurd hp (by simp [phase])
  | cons e h ih =>
      have hskip : phase key h = .concluded v → e ≠ .notified key →
          e ≠ .begun key → ∃ newer during older,
            e :: h = newer ++ .concluded key v :: (during ++ .begun key :: older)
            ∧ ∀ e ∈ newer ++ during, e ≠ .notified key ∧ e ≠ .begun key := by
        intro hp' h₁ h₂
        obtain ⟨newer, during, older, rfl, hall⟩ := ih hp'
        refine ⟨e :: newer, during, older, rfl, ?_⟩
        intro e' he'
        rcases List.mem_cons.mp he' with rfl | he'
        · exact ⟨h₁, h₂⟩
        · exact hall e' he'
      rw [phase.eq_def] at hp
      cases e with
      | notified k =>
          dsimp only at hp
          split at hp
          · exact absurd hp (by simp)
          · rename_i hk
            exact hskip hp (by simpa using hk) (by simp)
      | begun k =>
          dsimp only at hp
          split at hp
          · exact absurd hp (by simp)
          · rename_i hk
            exact hskip hp (by simp) (by simpa using hk)
      | concluded k w =>
          dsimp only at hp
          split at hp
          · rename_i hk
            cases hp' : phase key h with
            | never => rw [hp'] at hp; exact absurd hp (by simp [Phase.conclude])
            | notified =>
                rw [hp'] at hp
                exact absurd hp (by simp [Phase.conclude])
            | begun =>
                rw [hp'] at hp
                obtain ⟨during, older, rfl, hall⟩ := history_of_begun hp'
                refine ⟨[], during, older, ?_, hall⟩
                rw [hk, Phase.concluded.inj hp]
                rfl
            | concluded w' =>
                rw [hp'] at hp
                rw [Phase.concluded.inj hp] at hp'
                exact hskip hp' (by simp) (by simp)
          · exact hskip hp (by simp) (by simp)

/-! ## Everything is accounted for -/

/-- The worker has not come to a verdict on the key. -/
def Worker.Busy (w : Worker) (key : String) : Prop :=
  w = .fetching key ∨ ∃ p, w = .reconciling key p

theorem Worker.Busy.key {w : Worker} {key : String} (h : w.Busy key) :
    w.key = some key := by
  rcases h with rfl | ⟨p, rfl⟩
  · rfl
  · rfl

/-- The queue is orderly, every key in hand is in process and in one hand, and
    what the history says of a key is accounted for: work to be done is in the
    queue, a processing that was begun is in some worker's hands, and what
    failed waits or is to be done again. -/
structure Accounted {ι : Type} (s : State ι) : Prop where
  orderly : Orderly s.queue
  held : ∀ i key, (s.worker i).key = some key →
    s.queue.processing key = true
  alone : ∀ i j key, (s.worker i).key = some key →
    (s.worker j).key = some key → i = j
  notified : ∀ key, phase key s.history = .notified →
    s.queue.dirty key = true
  begun : ∀ key, phase key s.history = .begun →
    ∃ i, (s.worker i).Busy key
  failed : ∀ key o, phase key s.history = .concluded (.reconciled o) →
    o = .nil ∨ s.queue.dirty key = true ∨ key ∈ s.queue.waiting

theorem accounted_start (ι : Type) : Accounted (start ι) := by
  refine ⟨orderly_empty, ?_, ?_, ?_, ?_, ?_⟩
  · intro i key h
    exact absurd h (by simp [start, Worker.key])
  · intro i j key h
    exact absurd h (by simp [start, Worker.key])
  · intro key h
    exact absurd h (by simp [start, phase])
  · intro key h
    exact absurd h (by simp [start, phase])
  · intro key o h
    exact absurd h (by simp [start, phase])

section Steps

variable {ι : Type} {s : State ι}

/-- An event handler puts the key into the queue. -/
theorem accounted_notify (h : Accounted s) (n : Notice) :
    Accounted (s.notify n) := by
  rw [State.notify]
  cases n.key with
  | none => exact h
  | some key =>
      dsimp only
      refine ⟨orderly_add h.orderly key, ?_, h.alone, ?_, ?_, ?_⟩
      · intro i k hk
        rw [processing_add]
        exact h.held i k hk
      · intro k hk
        rw [phase] at hk
        split at hk
        · rename_i e
          rw [← e]
          exact dirty_add_self
        · exact dirty_add (h.notified k hk)
      · intro k hk
        rw [phase] at hk
        split at hk
        · exact absurd hk (by simp)
        · exact h.begun k hk
      · intro k o hk
        rw [phase] at hk
        split at hk
        · exact absurd hk (by simp)
        · rw [waiting_add]
          rcases h.failed k o hk with ho | hd | hw
          · exact Or.inl ho
          · exact Or.inr (Or.inl (dirty_add hd))
          · exact Or.inr (Or.inr hw)

/-- A wait is over. -/
theorem accounted_due (h : Accounted s) (key : String) :
    Accounted { s with queue := s.queue.due key } := by
  refine ⟨orderly_due h.orderly key, ?_, h.alone, ?_, h.begun, ?_⟩
  · intro i k hk
    rw [processing_due]
    exact h.held i k hk
  · intro k hk
    exact dirty_add (h.notified k hk)
  · intro k o hk
    rcases h.failed k o hk with ho | howed
    · exact Or.inl ho
    · exact Or.inr (owed_due howed)

variable [DecidableEq ι]

/-- Who holds a key after one worker has moved. -/
theorem key_update {f : ι → Worker} {i j : ι} {w : Worker} {key : String}
    (h : (Function.update f i w j).key = some key) :
    (j = i ∧ w.key = some key) ∨ (j ≠ i ∧ (f j).key = some key) := by
  by_cases hj : j = i
  · rw [hj, Function.update_self] at h
    exact Or.inl ⟨hj, h⟩
  · rw [Function.update_of_ne hj] at h
    exact Or.inr ⟨hj, h⟩

/-- A worker that is busy stays so while another moves. -/
theorem busy_update {f : ι → Worker} {i j : ι} {w : Worker} {key : String}
    (h : (f j).Busy key) (hj : j ≠ i) :
    (Function.update f i w j).Busy key := by
  rw [Function.update_of_ne hj]
  exact h

/-- A worker that moves on with the key it holds. -/
theorem accounted_busy (h : Accounted s) {i : ι} {key : String} {w : Worker}
    (hk : (s.worker i).key = some key) (hw : w.Busy key) :
    Accounted { s with worker := Function.update s.worker i w } := by
  have hold : ∀ j k, (Function.update s.worker i w j).key = some k →
      (s.worker j).key = some k := by
    intro j k hj
    rcases key_update hj with ⟨rfl, hnew⟩ | ⟨-, hsame⟩
    · rw [hk, ← hw.key]
      exact hnew
    · exact hsame
  refine ⟨h.orderly, fun j k hj => h.held j k (hold j k hj),
    fun j j' k hj hj' => h.alone j j' k (hold j k hj) (hold j' k hj'),
    h.notified, ?_, h.failed⟩
  intro k hp
  obtain ⟨j, hj⟩ := h.begun k hp
  by_cases hji : j = i
  · subst hji
    have hkk : k = key := Option.some.inj (hj.key.symm.trans hk)
    refine ⟨j, ?_⟩
    show (Function.update s.worker j w j).Busy k
    rw [Function.update_self, hkk]
    exact hw
  · exact ⟨j, busy_update hj hji⟩

/-- An idle worker takes a key. -/
theorem accounted_get (h : Accounted s) {i : ι} {key : String}
    {q : Queue String} (hw : s.worker i = .idle)
    (hg : s.queue.get = some (key, q)) :
    Accounted ⟨q, Function.update s.worker i (.fetching key),
      .begun key :: s.history⟩ := by
  obtain ⟨hfree, hdirty, hproc, hwait, horderly⟩ := get_some h.orderly hg
  -- nobody holds a key that the queue hands out
  have hnobody : ∀ j, (s.worker j).key ≠ some key := by
    intro j hj
    exact absurd (h.held j key hj) (by simp [hfree])
  have hidle : ∀ k, ¬ (s.worker i).Busy k := by
    rintro k (e | ⟨p, e⟩)
    · exact absurd (hw.symm.trans e) (by simp)
    · exact absurd (hw.symm.trans e) (by simp)
  refine ⟨horderly, ?_, ?_, ?_, ?_, ?_⟩
  · intro j k hj
    show q.processing k = true
    rw [hproc]
    rcases key_update hj with ⟨-, hnew⟩ | ⟨-, hsame⟩
    · rw [← Option.some.inj hnew, Function.update_self]
    · have hk : k ≠ key := by
        rintro rfl
        exact hnobody j hsame
      rw [Function.update_of_ne hk]
      exact h.held j k hsame
  · intro j j' k hj hj'
    rcases key_update hj with ⟨e, hj⟩ | ⟨-, hj⟩
    · rcases key_update hj' with ⟨e', -⟩ | ⟨-, hj'⟩
      · exact e.trans e'.symm
      · rw [← Option.some.inj hj] at hj'
        exact absurd hj' (hnobody j')
    · rcases key_update hj' with ⟨-, hj'⟩ | ⟨-, hj'⟩
      · rw [← Option.some.inj hj'] at hj
        exact absurd hj (hnobody j)
      · exact h.alone j j' k hj hj'
  · intro k hp
    show q.dirty k = true
    rw [phase] at hp
    split at hp
    · exact absurd hp (by simp)
    · rename_i hk
      rw [hdirty, Function.update_of_ne (Ne.symm hk)]
      exact h.notified k hp
  · intro k hp
    rw [phase] at hp
    split at hp
    · rename_i hk
      refine ⟨i, Or.inl ?_⟩
      show Function.update s.worker i (.fetching key) i = _
      rw [Function.update_self, hk]
    · obtain ⟨j, hj⟩ := h.begun k hp
      refine ⟨j, busy_update hj ?_⟩
      rintro rfl
      exact hidle k hj
  · intro k o hp
    rw [phase] at hp
    split at hp
    · exact absurd hp (by simp)
    · rename_i hk
      show o = .nil ∨ q.dirty k = true ∨ k ∈ q.waiting
      rw [hdirty, hwait, Function.update_of_ne (Ne.symm hk)]
      exact h.failed k o hp

/-- A worker comes to a verdict; a failed reconcile leaves the key waiting. -/
theorem accounted_conclude (h : Accounted s) {i : ι} {key : String}
    {v : Verdict} {q : Queue String} (hb : (s.worker i).Busy key)
    (ho : Orderly q) (hdirty : q.dirty = s.queue.dirty)
    (hproc : q.processing = s.queue.processing)
    (hwait : ∀ k ∈ s.queue.waiting, k ∈ q.waiting)
    (hfail : ∀ o, v = .reconciled o → o = .nil ∨ key ∈ q.waiting) :
    Accounted (s.conclude i key v q) := by
  have hold : ∀ j k, ((s.conclude i key v q).worker j).key = some k →
      (s.worker j).key = some k := by
    intro j k hj
    rcases key_update hj with ⟨rfl, hnew⟩ | ⟨-, hsame⟩
    · rw [hb.key]
      exact hnew
    · exact hsame
  refine ⟨ho, ?_, fun j j' k hj hj' => h.alone j j' k (hold j k hj)
    (hold j' k hj'), ?_, ?_, ?_⟩
  · intro j k hj
    show q.processing k = true
    rw [hproc]
    exact h.held j k (hold j k hj)
  · intro k hp
    show q.dirty k = true
    rw [hdirty]
    have hp' : phase k (.concluded key v :: s.history) = .notified := hp
    rw [phase] at hp'
    split at hp'
    · cases hold' : phase k s.history with
      | notified => exact h.notified k hold'
      | never => rw [hold'] at hp'; exact absurd hp' (by simp [Phase.conclude])
      | begun => rw [hold'] at hp'; exact absurd hp' (by simp [Phase.conclude])
      | concluded w =>
          rw [hold'] at hp'
          exact absurd hp' (by simp [Phase.conclude])
    · exact h.notified k hp'
  · intro k hp
    have hp' : phase k (.concluded key v :: s.history) = .begun := hp
    rw [phase] at hp'
    split at hp'
    · cases hold' : phase k s.history <;> rw [hold'] at hp' <;>
        exact absurd hp' (by simp [Phase.conclude])
    · rename_i hk
      obtain ⟨j, hj⟩ := h.begun k hp'
      refine ⟨j, busy_update hj ?_⟩
      rintro rfl
      exact hk (Option.some.inj (hb.key.symm.trans hj.key))
  · intro k o hp
    show o = .nil ∨ q.dirty k = true ∨ k ∈ q.waiting
    rw [hdirty]
    have hkeep : phase k s.history = .concluded (.reconciled o) →
        o = .nil ∨ s.queue.dirty k = true ∨ k ∈ q.waiting := by
      intro hp'
      rcases h.failed k o hp' with hnil | hd | hw
      · exact Or.inl hnil
      · exact Or.inr (Or.inl hd)
      · exact Or.inr (Or.inr (hwait k hw))
    have hp' : phase k (.concluded key v :: s.history)
        = .concluded (.reconciled o) := hp
    rw [phase] at hp'
    split at hp'
    · rename_i hk
      cases hold' : phase k s.history with
      | never => rw [hold'] at hp'; exact absurd hp' (by simp [Phase.conclude])
      | notified =>
          rw [hold'] at hp'
          exact absurd hp' (by simp [Phase.conclude])
      | begun =>
          rw [hold'] at hp'
          rcases hfail o (Phase.concluded.inj hp') with hnil | hw
          · exact Or.inl hnil
          · rw [← hk]
            exact Or.inr (Or.inr hw)
      | concluded w =>
          rw [hold'] at hp'
          rw [Phase.concluded.inj hp'] at hold'
          exact hkeep hold'
    · exact hkeep hp'

/-- A worker lets go of its key. -/
theorem accounted_done (h : Accounted s) {i : ι} {key : String}
    (hw : s.worker i = .finishing key) :
    Accounted { s with
      queue := s.queue.done key
      worker := Function.update s.worker i .idle } := by
  have hkey : (s.worker i).key = some key := by rw [hw]; rfl
  have hold : ∀ j k, (Function.update s.worker i .idle j).key = some k →
      j ≠ i ∧ (s.worker j).key = some k := by
    intro j k hj
    rcases key_update hj with ⟨-, hj⟩ | hj
    · exact absurd hj (by simp [Worker.key])
    · exact hj
  refine ⟨orderly_done h.orderly (h.held i key hkey), ?_, ?_, h.notified, ?_,
    h.failed⟩
  · intro j k hj
    obtain ⟨hne, hsame⟩ := hold j k hj
    show Function.update s.queue.processing key false k = true
    have hk : k ≠ key := by
      rintro rfl
      exact hne (h.alone j i k hsame hkey)
    rw [Function.update_of_ne hk]
    exact h.held j k hsame
  · intro j j' k hj hj'
    exact h.alone j j' k (hold j k hj).2 (hold j' k hj').2
  · intro k hp
    obtain ⟨j, hj⟩ := h.begun k hp
    refine ⟨j, busy_update hj ?_⟩
    rintro rfl
    rcases hj with e | ⟨p, e⟩
    · exact absurd (hw.symm.trans e) (by simp)
    · exact absurd (hw.symm.trans e) (by simp)

/-- **EVERY STEP** keeps everything accounted for. -/
theorem accounted_step {s' : State ι} (h : Accounted s) (hs : Step s s') :
    Accounted s' := by
  cases hs with
  | notify n => exact accounted_notify h n
  | due key hk => exact accounted_due h key
  | get i key q hw hg => exact accounted_get h hw hg
  | fetch i key x hw =>
      have hb : (s.worker i).Busy key := Or.inl hw
      cases x with
      | error e =>
          exact accounted_conclude h hb (orderly_forget h.orderly key) rfl rfl
            (fun _ hk => hk) (fun o e => absurd e (by simp))
      | ok u => exact accounted_busy h hb.key (Or.inr ⟨_, rfl⟩)
  | call i key r f x hw =>
      exact accounted_busy h (Worker.Busy.key (Or.inr ⟨_, hw⟩))
        (Or.inr ⟨_, rfl⟩)
  | succeed i key hw =>
      exact accounted_conclude h (Or.inr ⟨_, hw⟩)
        (orderly_forget h.orderly key) rfl rfl (fun _ hk => hk)
        (fun o e => Or.inl (Verdict.reconciled.inj e).symm)
  | fail i key e hw =>
      exact accounted_conclude h (Or.inr ⟨_, hw⟩)
        (orderly_addRateLimited h.orderly key) rfl rfl
        (fun k hk => List.mem_insert_of_mem hk)
        (fun o _ => Or.inr List.mem_insert_self)
  | done i key hw => exact accounted_done h hw

end Steps

/-! ## Every run -/

section Runs

variable {ι : Type} {s : State ι}

/-- A key that was ever notified has a phase. -/
theorem phase_ne_never {key : String} {h : List Event}
    (hn : Event.notified key ∈ h) : phase key h ≠ .never := by
  induction h with
  | nil => exact absurd hn List.not_mem_nil
  | cons e h ih =>
      intro hp
      rw [phase.eq_def] at hp
      cases e with
      | notified k =>
          dsimp only at hp
          split at hp
          · exact absurd hp (by simp)
          · rename_i hk
            rcases List.mem_cons.mp hn with e | hn
            · exact hk (Event.notified.inj e).symm
            · exact ih hn hp
      | begun k =>
          dsimp only at hp
          have hn' := (List.mem_cons.mp hn).resolve_left (by simp)
          split at hp
          · exact absurd hp (by simp)
          · exact ih hn' hp
      | concluded k v =>
          dsimp only at hp
          have hn' := (List.mem_cons.mp hn).resolve_left (by simp)
          split at hp
          · cases hp' : phase key h with
            | never => exact ih hn' hp'
            | notified =>
                rw [hp'] at hp
                exact absurd hp (by simp [Phase.conclude])
            | begun =>
                rw [hp'] at hp
                exact absurd hp (by simp [Phase.conclude])
            | concluded w =>
                rw [hp'] at hp
                exact absurd hp (by simp [Phase.conclude])
          · exact ih hn' hp

/-- A key that nothing is to be done for has been processed since it was last
    notified, and its reconcile, if it came to one, returned nil. -/
theorem concluded_of_quiet {key : String} (h : Accounted s)
    (hn : Event.notified key ∈ s.history) (hq : Quiet s.queue key) :
    (∃ e, phase key s.history = .concluded (.fetchError e))
      ∨ phase key s.history = .concluded (.reconciled .nil) := by
  have hclean := hq.not_dirty h.orderly
  cases hp : phase key s.history with
  | never => exact absurd hp (phase_ne_never hn)
  | notified => exact absurd (h.notified key hp) (by simp [hclean])
  | begun =>
      obtain ⟨i, hi⟩ := h.begun key hp
      exact absurd (h.held i key hi.key) (by simp [hq.processing])
  | concluded v =>
      cases v with
      | fetchError e => exact Or.inl ⟨e, rfl⟩
      | reconciled o =>
          rcases h.failed key o hp with rfl | hd | hw
          · exact Or.inr rfl
          · exact absurd hd (by simp [hclean])
          · exact absurd hw hq.waiting

variable [DecidableEq ι]

theorem accounted_of_runs (h : Runs (start ι) s) : Accounted s := by
  induction h with
  | refl => exact accounted_start ι
  | tail _ hs ih => exact accounted_step ih hs

/-- **NO WORK IS DROPPED**, unless a fetch fails: in every state that any
    number of workers reach, with any notifications and any answers of the
    server, a key that was notified and that nothing is to be done for has been
    attended to exactly when its last fetch did not fail for another reason
    than the absence of the CR. -/
theorem attended_iff (h : Runs (start ι) s) :
    (GetsAnswered s.history → ∀ key, Event.notified key ∈ s.history →
        Quiet s.queue key → Attended key s.history)
      ∧ ∀ key, Event.notified key ∈ s.history → Quiet s.queue key →
        (Attended key s.history ↔ ¬ LastGetFailed key s.history) := by
  have hacc := accounted_of_runs h
  have hiff : ∀ key, Event.notified key ∈ s.history → Quiet s.queue key →
      (Attended key s.history ↔ ¬ LastGetFailed key s.history) := by
    intro key hn hq
    constructor
    · rintro (hgone | hnil) ⟨e, hne, he⟩
      · rw [hgone] at he
        exact hne (Verdict.fetchError.inj (Phase.concluded.inj he)).symm
      · rw [hnil] at he
        exact absurd (Phase.concluded.inj he) (by simp)
    · intro hget
      rcases concluded_of_quiet hacc hn hq with ⟨e, he⟩ | hnil
      · by_cases hne : e = .refused .notFound
        · rw [hne] at he
          exact Or.inl he
        · exact absurd ⟨e, hne, he⟩ hget
      · exact Or.inr hnil
  refine ⟨?_, hiff⟩
  intro hgets key hn hq
  refine (hiff key hn hq).mpr ?_
  rintro ⟨e, hne, he⟩
  obtain ⟨newer, during, older, hh, -⟩ := history_of_concluded he
  refine hne (hgets key e ?_)
  rw [hh]
  exact List.mem_append_right _ List.mem_cons_self

end Runs

/-! ## A fetch that times out -/

/-- The key of the only CR. -/
def webKey : String := keyFor "default" "web"

/-- One notification, and the first worker takes the key. -/
def webTaken : State (Fin 2) where
  queue := { (Queue.empty : Queue String) with
    dirty := Function.update (Function.update (fun _ => false) webKey true)
      webKey false
    processing := Function.update (fun _ => false) webKey true }
  worker := Function.update (fun _ => .idle) 0 (.fetching webKey)
  history := [.begun webKey, .notified webKey]

theorem runs_webTaken : Runs (start (Fin 2)) webTaken :=
  .tail (.single (.notify (.object "default" "web")))
    (.get 0 webKey webTaken.queue rfl rfl)

/-- The worker fetches the CR, with this answer, and lets go of the key. -/
def webFetched (e : ApiError) : State (Fin 2) :=
  let s := webTaken.fetched 0 webKey (.error e)
  { s with
    queue := s.queue.done webKey
    worker := Function.update s.worker 0 .idle }

theorem runs_webFetched (e : ApiError) :
    Runs (start (Fin 2)) (webFetched e) :=
  .tail (.tail runs_webTaken (.fetch 0 webKey (.error e) rfl))
    (.done 0 webKey rfl)

theorem history_webFetched (e : ApiError) : (webFetched e).history
    = [.concluded webKey (.fetchError e), .begun webKey, .notified webKey] :=
  rfl

theorem phase_webFetched (e : ApiError) :
    phase webKey (webFetched e).history = .concluded (.fetchError e) := by
  rw [history_webFetched]
  simp [phase, Phase.conclude]

theorem notified_webFetched (e : ApiError) :
    Event.notified webKey ∈ (webFetched e).history := by
  rw [history_webFetched]
  simp

theorem quiet_webFetched (e : ApiError) :
    Quiet (webFetched e).queue webKey := by
  have hqueue : (webFetched e).queue
      = (webTaken.queue.forget webKey).done webKey := rfl
  refine ⟨?_, ?_, ?_⟩
  · rw [hqueue]
    simp [Queue.done, Queue.forget, webTaken, Queue.empty]
  · rw [hqueue]
    simp [Queue.done]
  · rw [hqueue]
    exact List.not_mem_nil

/-- A CR that is gone is attended to. -/
theorem attended_webGone :
    Attended webKey (webFetched (.refused .notFound)).history := by
  refine ((attended_iff (runs_webFetched _)).2 webKey (notified_webFetched _)
    (quiet_webFetched _)).mpr ?_
  rintro ⟨e, hne, he⟩
  rw [phase_webFetched] at he
  exact hne (Verdict.fetchError.inj (Phase.concluded.inj he)).symm

/-- A fetch that times out drops the key: nothing is to be done for it any
    more, and the CR has not been looked at. -/
theorem not_attended_webTimeout :
    ¬ ∀ s : State (Fin 2), Runs (start (Fin 2)) s → ∀ key,
      Event.notified key ∈ s.history → Quiet s.queue key →
      Attended key s.history := by
  intro h
  rcases h (webFetched .failed) (runs_webFetched .failed) webKey
    (notified_webFetched .failed) (quiet_webFetched .failed) with hgone | hnil
  · rw [phase_webFetched] at hgone
    exact absurd (Verdict.fetchError.inj (Phase.concluded.inj hgone)) (by simp)
  · rw [phase_webFetched] at hnil
    exact absurd (Phase.concluded.inj hnil) (by simp)

end QueueWorkers
