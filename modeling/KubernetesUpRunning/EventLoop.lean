import KubernetesUpRunning.Convergence
import KubernetesUpRunning.Notifications
import KubernetesUpRunning.RemainingWrites

/-! # The event loop of operator v2 goes quiet

    Every write of a reconcile comes back to the operator as an event, and an
    event puts its CR into the queue again.  The loop is closed here: the
    cluster, the reports of the informers that have not been delivered yet, and
    the queue of the workers.  A turn takes the next key, fetches the CR and
    reconciles it to the end, nobody else calling in between: of the two
    workers that the source starts, at most one is inside a reconcile at any
    time, and no call fails.  Every turn and every delivery uses up some of the
    writes that are still to be done, so the operator does not feed itself for
    ever, and when it goes quiet every CR is `Calm`.  What two workers do when
    their turns overlap is the subject of `SerialWorkers`. -/

namespace EventLoop

open ApiServer ClusterRuns Convergence FixedPoint GoJson KubeObjects Neighbours
open Notifications QueueWorkers Reconcile ReconcileEffect RemainingWrites
open ServerSteps VersionedStore WorkQueue

/-! ## The reports of the informers -/

/-- A report that waits for its handler. -/
inductive News where
  | cr (e : Event Multiplicador)
  | deployment (e : Event Deployment)

/-- The keys that its handler adds. -/
def News.keys : News → List String
  | .cr e => crKeys e
  | .deployment e => deploymentKeys e

/-- What an informer reports of an object that was `old` and is `new` now. -/
def changes {α : Type} [DecidableEq α] : Option α → Option α → List (Event α)
  | none, none => []
  | none, some new => [.add new]
  | some old, none => [.delete old]
  | some old, some new => if new = old then [] else [.update old new]

theorem length_changes {α : Type} [DecidableEq α] (old new : Option α) :
    (changes old new).length = lacking (new = old) := by
  cases old with
  | none =>
      cases new with
      | none => rfl
      | some new => exact (lacking_of_not (by simp)).symm
  | some old =>
      cases new with
      | none => exact (lacking_of_not (by simp)).symm
      | some new =>
          by_cases h : new = old
          · rw [changes, if_pos h, lacking_of (congrArg some h)]
            rfl
          · rw [changes, if_neg h, lacking_of_not (by simpa using h)]
            rfl

/-- What the informers report of the reconcile of the CR at `k`. -/
def newsOf (c c' : Cluster) (k : Key) : List News :=
  (changes (content c.crs k) (content c'.crs k)).map .cr
    ++ (changes (content c.deployments (deploymentKey k))
      (content c'.deployments (deploymentKey k))).map .deployment

theorem length_newsOf (c c' : Cluster) (k : Key) :
    (newsOf c c' k).length
      = lacking (SameCR c c' k) + lacking (SameDeployment c c' k) := by
  rw [newsOf, List.length_append, List.length_map, List.length_map,
    length_changes, length_changes]
  rfl

/-! ## The loop -/

/-- The cluster, what is still to be delivered, and the queue. -/
structure Loop where
  cluster : Cluster
  pending : List News
  queue : Queue String

/-- What can happen next. -/
inductive Move where
  | report (n : News)
  | deliver (n : News)
  | work (key : String)

/-- What the handlers do with the keys of a report: at most one is added. -/
def addAll (q : Queue String) (keys : List String) : Queue String :=
  keys.foldl Queue.add q

/-- One step: somebody else causes a report, a report is delivered, or a worker
    processes the next key, up to `Forget` and `Done`.  Left out are turns of
    the two workers that overlap, and a reconcile that fails and is queued
    again or panics; without overlap and failing calls there is none among
    proxies that can be merged (`outcomeOf_of_maps`). -/
inductive Step (s : Loop) : Move → Loop → Prop where
  | report (n : News) :
      Step s (.report n) { s with pending := s.pending ++ [n] }
  | deliver (before after : List News) (n : News)
      (hp : s.pending = before ++ n :: after) :
      Step s (.deliver n)
        ⟨s.cluster, before ++ after, addAll s.queue n.keys⟩
  | work (key : String) (q : Queue String)
      (hg : s.queue.get = some (key, q))
      (ho : outcomeOf s.cluster (splitKey key) = .nil) :
      Step s (.work key)
        ⟨reconcileNow s.cluster (splitKey key),
          s.pending ++ newsOf s.cluster
            (reconcileNow s.cluster (splitKey key)) (splitKey key),
          (q.forget key).done key⟩

/-- Runs of the loop, with the moves that were made. -/
inductive Run : Loop → List Move → Loop → Prop where
  | nil (s : Loop) : Run s [] s
  | cons {s s' s'' : Loop} {m : Move} {ms : List Move} (h : Step s m s')
      (hr : Run s' ms s'') : Run s (m :: ms) s''

/-- Nothing is to be delivered and nothing is queued. -/
def Loop.Quiet (s : Loop) : Prop := s.pending = [] ∧ s.queue.queue = []

/-- The operator as it starts: the caches are filled with the CRs at `ks`. -/
def start (c : Cluster) (ks : List Key) : Loop where
  cluster := c
  pending := (ks.filterMap fun k => content c.crs k).map fun u => .cr (.add u)
  queue := Queue.empty

/-! ## The queue between two turns -/

/-- The queue while no key is in process. -/
structure Resting (q : Queue String) : Prop where
  orderly : Orderly q
  free : ∀ key, q.processing key = false

theorem resting_empty : Resting Queue.empty := ⟨orderly_empty, fun _ => rfl⟩

section Queue

variable {q : Queue String} {key key' : String}

theorem resting_add (h : Resting q) : Resting (q.add key) := by
  refine ⟨orderly_add h.orderly key, fun key' => ?_⟩
  rw [processing_add]
  exact h.free key'

/-- A key is in the resting queue exactly when it is dirty. -/
theorem Resting.mem_iff (h : Resting q) :
    key ∈ q.queue ↔ q.dirty key = true := by
  rw [h.orderly.queued, h.free key]
  simp

theorem mem_add_self (h : Resting q) : key ∈ (q.add key).queue :=
  (resting_add h).mem_iff.mpr dirty_add_self

theorem mem_add (h : Resting q) (hk : key' ∈ q.queue) :
    key' ∈ (q.add key).queue :=
  (resting_add h).mem_iff.mpr (dirty_add (h.mem_iff.mp hk))

theorem length_add (q : Queue String) (key : String) :
    (q.add key).queue.length ≤ q.queue.length + 1 := by
  rw [Queue.add]
  split
  · exact Nat.le_succ _
  · split
    · exact Nat.le_succ _
    · exact Nat.le_of_eq (List.length_append)

theorem resting_addAll (h : Resting q) (keys : List String) :
    Resting (addAll q keys) := by
  induction keys generalizing q with
  | nil => exact h
  | cons key keys ih => exact ih (resting_add h)

theorem mem_addAll (h : Resting q) {keys : List String}
    (hk : key ∈ q.queue ∨ key ∈ keys) : key ∈ (addAll q keys).queue := by
  induction keys generalizing q with
  | nil =>
      rcases hk with hk | hk
      · exact hk
      · exact absurd hk List.not_mem_nil
  | cons key' keys ih =>
      refine ih (resting_add h) ?_
      rcases hk with hk | hk
      · exact Or.inl (mem_add h hk)
      · rcases List.mem_cons.mp hk with rfl | hk
        · exact Or.inl (mem_add_self h)
        · exact Or.inr hk

theorem length_addAll (q : Queue String) (keys : List String) :
    (addAll q keys).queue.length ≤ q.queue.length + keys.length := by
  induction keys generalizing q with
  | nil => exact Nat.le_refl _
  | cons key keys ih =>
      have hrest := ih (q := q.add key)
      have hone := length_add q key
      have hlen : (addAll q (key :: keys)).queue.length
          = (addAll (q.add key) keys).queue.length := rfl
      rw [hlen, List.length_cons]
      omega

/-- A turn that gets the next key, forgets it and is done with it takes it out
    of the queue. -/
theorem queue_of_turn {q' : Queue String} (h : Resting q)
    (hg : q.get = some (key, q')) :
    Resting ((q'.forget key).done key)
      ∧ q.queue = key :: ((q'.forget key).done key).queue := by
  obtain ⟨-, hdirty, hproc, -, horderly⟩ := get_some h.orderly hg
  have hclean : q'.dirty key = false := by
    rw [hdirty, Function.update_self]
  have hheld : (q'.forget key).processing key = true := by
    show q'.processing key = true
    rw [hproc, Function.update_self]
  refine ⟨⟨orderly_done (orderly_forget horderly key) hheld, ?_⟩, ?_⟩
  · intro key'
    show Function.update q'.processing key false key' = false
    by_cases hk : key' = key
    · rw [hk, Function.update_self]
    · rw [Function.update_of_ne hk, hproc, Function.update_of_ne hk]
      exact h.free key'
  · have hdone : ((q'.forget key).done key).queue = q'.queue :=
      if_neg (by rw [show (q'.forget key).dirty key = q'.dirty key from rfl,
        hclean]; simp)
    rw [hdone]
    rw [Queue.get] at hg
    split at hg
    · exact absurd hg (by simp)
    · rename_i k rest hq
      obtain ⟨rfl, rfl⟩ := Prod.mk.inj (Option.some.inj hg)
      exact hq

end Queue

/-- A handler adds at most one key. -/
theorem length_keys (n : News) : n.keys.length ≤ 1 := by
  have howner : ∀ ns rs, (enqueueOwner ns rs).length ≤ 1 := by
    intro ns rs
    rw [enqueueOwner_eq]
    cases List.find? hits rs <;> simp
  cases n with
  | cr e => cases e <;> exact Nat.le_refl 1
  | deployment e =>
      cases e with
      | add d => exact howner d.ns d.ownerReferences
      | update old new => exact howner new.ns new.ownerReferences
      | delete d => exact howner d.ns d.ownerReferences
      | tombstone key d => exact Nat.zero_le 1

/-! ## What is left to do -/

/-- The writes still to be done for the CRs at `ks`. -/
def total (c : Cluster) : List Key → Nat
  | [] => 0
  | k :: ks => remaining c k + total c ks

/-- These writes, what is to be delivered, and what is queued. -/
def potential (ks : List Key) (s : Loop) : Nat :=
  2 * total s.cluster ks + 2 * s.pending.length + s.queue.queue.length

/-- What holds of every state: every CR has a key the workers can read. -/
structure Fit (ks : List Key) (s : Loop) : Prop where
  wellFormed : WellFormed s.cluster
  maps : HaveMaps s.cluster
  uids : ∀ k k' u v, s.cluster.crs k = some u → s.cluster.crs k' = some v →
    u.obj.uid = v.obj.uid → k = k'
  plain : ∀ k, s.cluster.crs k ≠ none → '/' ∉ k.1.toList
  known : ∀ k, s.cluster.crs k ≠ none → k ∈ ks
  resting : Resting s.queue

section Steps

variable {ks : List Key} {s s' : Loop} {m : Move}

/-- A CR of the later cluster was there before. -/
theorem there_before {c : Cluster} {k j : Key}
    (h : (reconcileNow c k).crs j ≠ none) : c.crs j ≠ none := by
  intro hj
  cases hcr : (reconcileNow c k).crs j with
  | none => exact h hcr
  | some v =>
      obtain ⟨u, hu, -⟩ := sameUids_reconcileNow c k j v hcr
      rw [hj] at hu
      exact absurd hu (by simp)

theorem fit_step (h : Fit ks s) (hs : Step s m s') : Fit ks s' := by
  cases hs with
  | report n =>
      exact ⟨h.wellFormed, h.maps, h.uids, h.plain, h.known, h.resting⟩
  | deliver before after n hp =>
      exact ⟨h.wellFormed, h.maps, h.uids, h.plain, h.known,
        resting_addAll h.resting n.keys⟩
  | work key q hg ho =>
      have hsame := sameUids_reconcileNow s.cluster (splitKey key)
      refine ⟨wellFormed_reconcileNow h.wellFormed,
        haveMaps_reconcileNow h.maps _, ?_,
        fun k hk => h.plain k (there_before hk),
        fun k hk => h.known k (there_before hk),
        (queue_of_turn h.resting hg).1⟩
      intro k k' u v hu hv he
      obtain ⟨u₀, hu₀, heu⟩ := hsame k u hu
      obtain ⟨v₀, hv₀, hev⟩ := hsame k' v hv
      exact h.uids k k' u₀ v₀ hu₀ hv₀ (heu.trans (he.trans hev.symm))

theorem total_le {c c' : Cluster} (h : ∀ k, remaining c' k ≤ remaining c k)
    (ks : List Key) : total c' ks ≤ total c ks := by
  induction ks with
  | nil => exact Nat.le_refl 0
  | cons k ks ih => exact Nat.add_le_add (h k) ih

/-- The total loses what the count of one of the keys loses. -/
theorem total_reconcileNow {c : Cluster} {k : Key} (h : WellFormed c)
    (hk : k ∈ ks ∨ c.crs k = none) :
    total (reconcileNow c k) ks + (newsOf c (reconcileNow c k) k).length
      ≤ total c ks := by
  have hone := remaining_reconcileNow (k := k) h
  have hlen := length_newsOf c (reconcileNow c k) k
  have hle : ∀ j, remaining (reconcileNow c k) j ≤ remaining c j := by
    intro j
    by_cases hj : j = k
    · rw [hj]
      omega
    · exact (remaining_of_ne h hj).le
  by_cases hnone : c.crs k = none
  · -- nothing is reconciled and nothing is reported
    rw [reconcileNow_of_none hnone] at hlen ⊢
    rw [hlen, lacking_of (show SameCR c c k from rfl),
      lacking_of (show SameDeployment c c k from rfl)]
    exact Nat.le_refl _
  · have hmem : k ∈ ks := by
      rcases hk with hk | hk
      · exact hk
      · exact absurd hk hnone
    clear hk
    induction ks with
    | nil => exact absurd hmem List.not_mem_nil
    | cons j rest ih =>
        rw [total, total]
        have hj := hle j
        by_cases hin : k ∈ rest
        · have hrest := ih hin
          omega
        · rcases List.mem_cons.mp hmem with rfl | hrest
          · have hrest := total_le hle rest
            omega
          · exact absurd hrest hin

/-- **EVERY TURN AND EVERY DELIVERY USES SOMETHING UP**; a report of somebody
    else adds two. -/
theorem potential_step (h : Fit ks s) (hs : Step s m s') :
    match m with
    | .report _ => potential ks s' = potential ks s + 2
    | _ => potential ks s' + 1 ≤ potential ks s := by
  cases hs with
  | report n =>
      show potential ks _ = _
      simp only [potential, List.length_append, List.length_singleton]
      omega
  | deliver before after n hp =>
      have hadd := length_addAll s.queue n.keys
      have hone := length_keys n
      show potential ks _ + 1 ≤ _
      simp only [potential, hp, List.length_append, List.length_cons]
      omega
  | work key q hg ho =>
      obtain ⟨-, hqueue⟩ := queue_of_turn h.resting hg
      have hknown : splitKey key ∈ ks
          ∨ s.cluster.crs (splitKey key) = none := by
        by_cases hk : s.cluster.crs (splitKey key) = none
        · exact Or.inr hk
        · exact Or.inl (h.known _ hk)
      have hsum := total_reconcileNow h.wellFormed hknown
      show potential ks _ + 1 ≤ _
      simp only [potential, hqueue, List.length_append, List.length_cons]
      omega

end Steps

/-- The turns and the deliveries among the moves. -/
def busy : List Move → Nat
  | [] => 0
  | .report _ :: ms => busy ms
  | .deliver _ :: ms => busy ms + 1
  | .work _ :: ms => busy ms + 1

/-- The reports that others have caused. -/
def reports : List Move → Nat
  | [] => 0
  | .report _ :: ms => reports ms + 1
  | .deliver _ :: ms => reports ms
  | .work _ :: ms => reports ms

/-- **RUNS USE UP WHAT IS LEFT.** -/
theorem busy_run {ks : List Key} {s s' : Loop} {ms : List Move}
    (h : Fit ks s) (hr : Run s ms s') :
    Fit ks s' ∧ busy ms + potential ks s' ≤ potential ks s + 2 * reports ms := by
  induction hr with
  | nil s => exact ⟨h, by simp [busy, reports]⟩
  | @cons s₀ s₁ s₂ m ms hs _ ih =>
      have hpot := potential_step h hs
      obtain ⟨hfit, hrest⟩ := ih (fit_step h hs)
      refine ⟨hfit, ?_⟩
      cases m with
      | report n =>
          dsimp only at hpot
          rw [busy, reports]
          omega
      | deliver n =>
          dsimp only at hpot
          rw [busy, reports]
          omega
      | work key =>
          dsimp only at hpot
          rw [busy, reports]
          omega

/-! ## Nobody is forgotten -/

/-- A CR that is not calm is queued or about to be. -/
def Attended (s : Loop) : Prop :=
  ∀ k u, s.cluster.crs k = some u → Calm s.cluster u.obj
    ∨ keyFor k.1 k.2 ∈ s.queue.queue
    ∨ ∃ n ∈ s.pending, keyFor k.1 k.2 ∈ n.keys

/-- The key of a CR. -/
theorem crKeys_stored {k : Key} {u : Multiplicador} (h : Stored k u) :
    keyFor u.ns u.name = keyFor k.1 k.2 := by
  rw [h.ns, h.name]

/-- A report of the CR at `k` has its key. -/
theorem keys_of_news {c c' : Cluster} {k : Key} {u : Versioned Multiplicador}
    (h : WellFormed c') (hu : c'.crs k = some u)
    (hne : ¬ SameCR c c' k) :
    ∃ n ∈ newsOf c c' k, keyFor k.1 k.2 ∈ n.keys := by
  have hkey := crKeys_stored (h.stored k u hu)
  rw [SameCR, content_of_some hu] at hne
  rw [newsOf, content_of_some hu]
  cases hold : content c.crs k with
  | none =>
      refine ⟨.cr (.add u.obj), List.mem_append_left _ ?_, ?_⟩
      · exact List.mem_map_of_mem List.mem_cons_self
      · show keyFor k.1 k.2 ∈ [keyFor u.obj.ns u.obj.name]
        rw [hkey]
        exact List.mem_singleton_self _
  | some old =>
      have hdiff : u.obj ≠ old := by
        intro e
        rw [hold, e] at hne
        exact hne rfl
      refine ⟨.cr (.update old u.obj), List.mem_append_left _ ?_, ?_⟩
      · rw [changes, if_neg hdiff]
        exact List.mem_map_of_mem List.mem_cons_self
      · show keyFor k.1 k.2 ∈ [keyFor u.obj.ns u.obj.name]
        rw [hkey]
        exact List.mem_singleton_self _

theorem keyFor_stored {ks : List Key} {s : Loop} (h : Fit ks s) {k : Key}
    {u : Versioned Multiplicador} (hu : s.cluster.crs k = some u) :
    splitKey (keyFor k.1 k.2) = k := by
  rw [splitKey_keyFor (h.plain k (by rw [hu]; simp)),
    if_neg (h.wellFormed.stored k u hu).nonempty]

/-- The CR at `k` is as it should be, or it is queued or about to be. -/
def Heeded (R : Cluster → Multiplicador → Prop) (k : Key) (s : Loop) : Prop :=
  ∀ u, s.cluster.crs k = some u → R s.cluster u.obj
    ∨ keyFor k.1 k.2 ∈ s.queue.queue
    ∨ ∃ n ∈ s.pending, keyFor k.1 k.2 ∈ n.keys

/-- **EVERY STEP KEEPS HEEDING** the CR, when its own turn either changes it or
    leaves it as it should be, and the turns of others leave it so. -/
theorem heeded_step {R : Cluster → Multiplicador → Prop} {ks : List Key}
    {k : Key} {s s' : Loop} {m : Move} (h : Fit ks s)
    (hown : ∀ u, s.cluster.crs k = some u →
      SameCR s.cluster (reconcileNow s.cluster k) k →
      R (reconcileNow s.cluster k) u.obj)
    (hkept : ∀ k' u v, k' ≠ k → s.cluster.crs k = some u →
      s.cluster.crs k' = some v → R s.cluster u.obj →
      R (reconcileNow s.cluster k') u.obj)
    (ha : Heeded R k s) (hs : Step s m s') : Heeded R k s' := by
  intro u hu
  cases hs with
  | report n =>
      rcases ha u hu with hr | hq | ⟨n', hn', hk⟩
      · exact Or.inl hr
      · exact Or.inr (Or.inl hq)
      · exact Or.inr (Or.inr ⟨n', List.mem_append_left _ hn', hk⟩)
  | deliver before after n hp =>
      rcases ha u hu with hr | hq | ⟨n', hn', hk⟩
      · exact Or.inl hr
      · exact Or.inr (Or.inl (mem_addAll h.resting (Or.inl hq)))
      · rw [hp, List.mem_append, List.mem_cons] at hn'
        rcases hn' with hn' | rfl | hn'
        · exact Or.inr (Or.inr ⟨n', List.mem_append_left _ hn', hk⟩)
        · exact Or.inr (Or.inl (mem_addAll h.resting (Or.inr hk)))
        · exact Or.inr (Or.inr ⟨n', List.mem_append_right _ hn', hk⟩)
  | work key q hg ho =>
      obtain ⟨-, hqueue⟩ := queue_of_turn h.resting hg
      by_cases hk : k = splitKey key
      · -- its own turn: it has changed and is reported, or it is as it should be
        subst hk
        by_cases hsame : SameCR s.cluster
            (reconcileNow s.cluster (splitKey key)) (splitKey key)
        · have hcont : content s.cluster.crs (splitKey key) = some u.obj := by
            rw [← hsame]
            exact content_of_some hu
          obtain ⟨v, hv, hobj⟩ := Option.map_eq_some_iff.mp hcont
          have hr := hown v hv hsame
          rw [hobj] at hr
          exact Or.inl hr
        · obtain ⟨n, hn, hmem⟩ :=
            keys_of_news (wellFormed_reconcileNow h.wellFormed) hu hsame
          exact Or.inr (Or.inr ⟨n, List.mem_append_right _ hn, hmem⟩)
      · -- the turn of another key
        have hstored := hu
        rw [reconcileNow_crs_of_ne h.wellFormed hk] at hstored
        rcases ha u hstored with hr | hq | ⟨n, hn, hmem⟩
        · refine Or.inl ?_
          cases hv : s.cluster.crs (splitKey key) with
          | none =>
              show R (reconcileNow s.cluster (splitKey key)) u.obj
              rw [reconcileNow_of_none hv]
              exact hr
          | some v => exact hkept _ u v (Ne.symm hk) hstored hv hr
        · have hne : keyFor k.1 k.2 ≠ key := by
            rintro rfl
            exact hk (keyFor_stored h hstored).symm
          rw [hqueue] at hq
          rcases List.mem_cons.mp hq with hq | hq
          · exact absurd hq hne
          · exact Or.inr (Or.inl hq)
        · exact Or.inr (Or.inr ⟨n, List.mem_append_left _ hn, hmem⟩)

/-- In a quiet loop whoever is heeded is as it should be. -/
theorem Heeded.of_quiet {R : Cluster → Multiplicador → Prop} {k : Key}
    {s : Loop} (h : Heeded R k s) (hq : s.Quiet)
    {u : Versioned Multiplicador} (hu : s.cluster.crs k = some u) :
    R s.cluster u.obj := by
  rcases h u hu with hr | hk | ⟨n, hn, -⟩
  · exact hr
  · rw [hq.2] at hk
    exact absurd hk List.not_mem_nil
  · rw [hq.1] at hn
    exact absurd hn List.not_mem_nil

/-- **EVERY STEP KEEPS ATTENDING** to the CRs that are not calm. -/
theorem attended_step {ks : List Key} {s s' : Loop} {m : Move}
    (h : Fit ks s) (ha : Attended s) (hs : Step s m s') : Attended s' := by
  intro k
  refine heeded_step (R := Calm) h (fun u hu hsame => ?_)
    (fun k' u v hne hu hv hc => ?_) (ha k) hs
  · exact calm_of_same h.wellFormed h.maps hu hsame
  · exact hc.kept h.wellFormed hu hv hne fun e =>
      hne (h.uids k' k v u hv hu e)

theorem attended_run {ks : List Key} {s s' : Loop} {ms : List Move}
    (h : Fit ks s) (ha : Attended s) (hr : Run s ms s') : Attended s' := by
  induction hr with
  | nil s => exact ha
  | cons hs _ ih => exact ih (fit_step h hs) (attended_step h ha hs)

/-! ## From the start of the operator -/

section Start

variable {c : Cluster} {ks : List Key}

/-- At the start everybody is to be delivered. -/
theorem heeded_start {R : Cluster → Multiplicador → Prop} (h : WellFormed c)
    {k : Key} (hk : c.crs k ≠ none → k ∈ ks) : Heeded R k (start c ks) := by
  intro u hu
  refine Or.inr (Or.inr ⟨.cr (.add u.obj), ?_, ?_⟩)
  · refine List.mem_map_of_mem (List.mem_filterMap.mpr ⟨k, hk ?_, ?_⟩)
    · rw [show c.crs k = some u from hu]
      simp
    · exact content_of_some hu
  · show keyFor k.1 k.2 ∈ [keyFor u.obj.ns u.obj.name]
    rw [crKeys_stored (h.stored k u hu)]
    exact List.mem_singleton_self _

theorem attended_start (h : WellFormed c)
    (hks : ∀ k, c.crs k ≠ none → k ∈ ks) : Attended (start c ks) :=
  fun k => heeded_start h (hks k)

/-- At the start at most twelve moves are to be made for every CR. -/
theorem potential_start (c : Cluster) (ks : List Key) :
    potential ks (start c ks) ≤ 12 * ks.length := by
  have hsum : total c ks ≤ 5 * ks.length := by
    induction ks with
    | nil => exact Nat.le_refl 0
    | cons k ks ih =>
        have hk := remaining_le c k
        rw [total, List.length_cons]
        omega
  have hlen : (start c ks).pending.length ≤ ks.length := by
    rw [start, List.length_map]
    exact List.length_filterMap_le _ _
  have hqueue : (start c ks).queue.queue.length = 0 := rfl
  have hcluster : (start c ks).cluster = c := rfl
  rw [potential, hqueue, hcluster]
  omega

/-- A loop that is not quiet can move on by itself. -/
theorem exists_move {s : Loop} (h : Fit ks s) (hq : ¬ s.Quiet) :
    ∃ m s', Step s m s' ∧ ∀ n, m ≠ .report n := by
  cases hp : s.pending with
  | cons n rest =>
      exact ⟨.deliver n, _, .deliver [] rest n hp, by simp⟩
  | nil =>
      cases hqueue : s.queue.queue with
      | nil => exact absurd ⟨hp, hqueue⟩ hq
      | cons key rest =>
          have hg : ∃ q, s.queue.get = some (key, q) := by
            rw [Queue.get, hqueue]
            exact ⟨_, rfl⟩
          obtain ⟨q, hg⟩ := hg
          exact ⟨.work key, _,
            .work key q hg (outcomeOf_of_maps h.wellFormed h.maps _), by simp⟩

end Start

/-- **THE OPERATOR GOES QUIET**: from the start on it makes at most twelve moves
    for every CR, and two for every report that others cause; until it is quiet
    it can go on, and once it is, every CR is calm.  CRs that want the same
    route are no exception. -/
theorem goes_quiet {c : Cluster} {ks : List Key} (h : Fit ks (start c ks))
    {ms : List Move} {s : Loop} (hr : Run (start c ks) ms s) :
    busy ms ≤ 12 * ks.length + 2 * reports ms
      ∧ (¬ s.Quiet → ∃ m s', Step s m s' ∧ ∀ n, m ≠ .report n)
      ∧ (s.Quiet → ∀ k u, s.cluster.crs k = some u →
        Calm s.cluster u.obj) := by
  obtain ⟨hfit, hbusy⟩ := busy_run h hr
  have hstart := potential_start c ks
  have hatt := attended_run h (attended_start h.wellFormed h.known) hr
  refine ⟨by omega, exists_move hfit, ?_⟩
  intro hq k u hu
  exact Heeded.of_quiet (hatt k) hq hu

/-! ## A run to the end -/

/-- Left to itself the loop gets there. -/
theorem exists_quiet_run {ks : List Key} {s : Loop} (h : Fit ks s) :
    ∃ ms s', Run s ms s' ∧ reports ms = 0 ∧ s'.Quiet := by
  by_cases hq : s.Quiet
  · exact ⟨[], s, .nil s, rfl, hq⟩
  · obtain ⟨m, s₁, hs, hm⟩ := exists_move h hq
    have hpot := potential_step h hs
    have hless : potential ks s₁ < potential ks s := by
      cases m with
      | report n => exact absurd rfl (hm n)
      | deliver n => exact hpot
      | work key => exact hpot
    obtain ⟨ms, s', hr, hn, hquiet⟩ := exists_quiet_run (fit_step h hs)
    refine ⟨m :: ms, s', .cons hs hr, ?_, hquiet⟩
    cases m with
    | report n => exact absurd rfl (hm n)
    | deliver n => exact hn
    | work key => exact hn
termination_by potential ks s

/-- The two CRs of a shared host, and the one that is leaving it. -/
theorem fit_sharedHost : Fit forth (start sharedHost forth) := by
  have hpeace := peaceful_sharedHost
  refine ⟨hpeace.wellFormed, hpeace.maps, ?_, ?_, fun _ => mem_forth,
    resting_empty⟩
  · intro k k' u v hu hv he
    by_contra hne
    exact (hpeace.apart k k' u v hu hv (Ne.symm hne)).uids he
  · intro k hk
    have hmem := mem_forth hk
    simp only [forth, List.mem_cons, List.not_mem_nil, or_false] at hmem
    rcases hmem with rfl | rfl | rfl <;> decide

theorem goes_quiet_sharedHost :
    ∃ ms s, Run (start sharedHost forth) ms s ∧ busy ms ≤ 36
      ∧ ∀ k u, s.cluster.crs k = some u → Calm s.cluster u.obj := by
  obtain ⟨ms, s, hr, hn, hq⟩ := exists_quiet_run fit_sharedHost
  obtain ⟨hbusy, -, hcalm⟩ := goes_quiet fit_sharedHost hr
  rw [hn] at hbusy
  exact ⟨ms, s, hr, hbusy, hcalm hq⟩

end EventLoop
