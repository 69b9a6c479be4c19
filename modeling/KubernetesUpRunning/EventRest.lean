import KubernetesUpRunning.EventLoop

/-! # What the event loop of operator v2 brings to rest

    Operator v2 is told of changes to CRs and to Deployments, and its informers
    never resync.  A change to an HTTPProxy is nobody's news.  So what a turn
    has put into a proxy has to stay there of its own: once the loop is quiet,
    a CR is served if no other CR had its route on record when the operator
    started.  As in `EventLoop`, turns do not overlap. -/

namespace EventRest

open ApiServer Convergence EventLoop FixedPoint GoJson Idempotence
open KubeObjects Neighbours Notifications ProxyShape QueueWorkers Reconcile
open ReconcileEffect RemainingWrites ServerSteps VersionedStore FairRounds
open ClusterRuns hiding Move

/-! ## Records of others -/

/-- No other CR has the route of the CR at `k` on record. -/
def Unclaimed (c : Cluster) (k : Key) : Prop :=
  ∀ k' u v, c.crs k = some u → c.crs k' = some v → k' ≠ k →
    joins u.obj = true → oldKey v.obj = targetKey u.obj →
    prevRoute v.obj ≠ prefixOf u.obj

/-- The record after a reconcile: as it was, or of the target of a CR that is
    to be served. -/
theorem record_crNext {u w : Multiplicador} {dep : Option Deployment}
    {P : Key → Option Fields} (h : crNext u dep P = some w) :
    (prevProxy w = prevProxy u ∧ prevRoute w = prevRoute u)
      ∨ (joins u = true ∧ prevProxy w = proxyNameOf u
        ∧ prevRoute w = prefixOf u) := by
  rw [crNext] at h
  split at h
  · split at h
    · rw [admitCR] at h
      split at h
      · exact absurd h (by simp)
      · rw [← Option.some.inj h]
        exact Or.inl ⟨rfl, rfl⟩
    · rw [← Option.some.inj h]
      exact Or.inl ⟨rfl, rfl⟩
  · rename_i hlive
    split at h
    · rw [← Option.some.inj h]
      exact Or.inl ⟨rfl, rfl⟩
    · rename_i hpos
      rw [← Option.some.inj h]
      by_cases hr : u.ruta = ""
      · -- without a ruta there is nothing to record
        refine Or.inl ?_
        have hwrite : recordWrite u P u = u := if_pos hr
        have hann := sameReads_annotated u
        unfold crAfter
        rw [hwrite]
        split
        · exact ⟨hann.prevProxy, hann.prevRoute⟩
        · cases dep with
          | none =>
              dsimp only
              split <;> exact ⟨rfl, rfl⟩
          | some d =>
              dsimp only
              split
              · exact ⟨rfl, rfl⟩
              · split <;> exact ⟨rfl, rfl⟩
      · have hlive' : u.deletionTimestamp = none := by simpa using hlive
        have hj : joins u = true :=
          joins_iff.mpr ⟨active_iff.mpr ⟨hlive', by omega⟩, hr⟩
        exact (continues_crAfter u dep P).record.imp_right fun hrec => ⟨hj, hrec⟩

section Step

variable {c : Cluster} {k : Key}

/-- **NOBODY PUTS THE ROUTE OF ANOTHER ON RECORD.** -/
theorem Unclaimed.step (h : Unclaimed c k) (hp : Peaceful c) (j : Key) :
    Unclaimed (reconcileNow c j) k := by
  intro k' u v hu hv hne hj ht
  obtain ⟨u₀, hu₀, hcu⟩ := sameCRs_reconcileNow hp.wellFormed j k u hu
  obtain ⟨v₀, hv₀, hcv⟩ := sameCRs_reconcileNow hp.wellFormed j k' v hv
  rw [hcu.joins] at hj
  rw [hcu.target] at ht
  rw [hcu.prefixOf]
  have hns : nsOf v.obj = nsOf v₀.obj := congrArg Prod.fst hcv.target
  have hrecord : (prevProxy v.obj = prevProxy v₀.obj
        ∧ prevRoute v.obj = prevRoute v₀.obj)
      ∨ (joins v₀.obj = true ∧ prevProxy v.obj = proxyNameOf v₀.obj
        ∧ prevRoute v.obj = prefixOf v₀.obj) := by
    by_cases hk : k' = j
    · subst hk
      have hnext := reconcileNow_cr hp.wellFormed hv₀
      rw [content_of_some hv] at hnext
      exact record_crNext hnext.symm
    · rw [reconcileNow_crs_of_ne hp.wellFormed hk, hv₀] at hv
      rw [Option.some.inj hv]
      exact Or.inl ⟨rfl, rfl⟩
  rcases hrecord with ⟨hproxy, hroute⟩ | ⟨hjv, hproxy, hroute⟩
  · rw [hroute]
    refine h k' u₀ v₀ hu₀ hv₀ hne hj ?_
    rw [oldKey, ← hns, ← hproxy]
    exact ht
  · -- the other one has recorded what it asks for itself
    have htarget : targetKey u₀.obj = targetKey v₀.obj := by
      rw [← ht, oldKey, hns, hproxy]
      rfl
    rw [hroute]
    exact ((hp.apart k k' u₀ v₀ hu₀ hv₀ hne).routes hj hjv htarget).1

/-! ## In service -/

/-- The CR is calm; it has left its proxy when it is being deleted, and is
    served by it otherwise. -/
structure InService (c : Cluster) (u : Multiplicador) : Prop where
  calm : Calm c u
  left : u.deletionTimestamp.isSome = true → prevProxy u ≠ "" →
    Left u.uid (prevRoute u) (content c.proxies (oldKey u))
  served : joins u = true → ∃ m,
    content c.proxies (targetKey u) = some m ∧ Serves u m

/-- A turn that leaves its CR as it was leaves it in service. -/
theorem inService_of_same (h : Peaceful c) {u : Versioned Multiplicador}
    (hk : c.crs k = some u) (hsame : SameCR c (reconcileNow c k) k) :
    InService (reconcileNow c k) u.obj := by
  have hcont : content (reconcileNow c k).crs k = some u.obj := by
    rw [hsame]
    exact content_of_some hk
  obtain ⟨v, hv, hobj⟩ := Option.map_eq_some_iff.mp hcont
  have hbegun := begun_turn h hk hv
  rw [hobj] at hbegun
  refine ⟨calm_of_same h.wellFormed h.maps hk hsame, hbegun.left, fun hj => ?_⟩
  obtain ⟨ha, hr⟩ := joins_iff.mp hj
  have hplace := (begun_active h hk hv ha).2
  rw [hobj] at hplace
  obtain ⟨m, hm, hserves, -⟩ := hplace.merged hr
  exact ⟨m, hm, hserves⟩

/-- **THE TURNS OF OTHERS** leave a CR in service whose route nobody has on
    record. -/
theorem InService.kept (h : Peaceful c) (hun : Unclaimed c k) {k' : Key}
    {u v : Versioned Multiplicador} (hk : c.crs k = some u)
    (hk' : c.crs k' = some v) (hne : k' ≠ k) (hs : InService c u.obj) :
    InService (reconcileNow c k') u.obj := by
  have hapart := h.apart k k' u v hk hk' hne
  have huid : v.obj.uid ≠ u.obj.uid := hapart.uids.symm
  refine ⟨hs.calm.kept h.wellFormed hk hk' hne huid, fun hdel hp => ?_,
    fun hj => ?_⟩
  · rw [reconcileNow_proxies hk']
    refine (hs.left hdel hp).kept huid fun hjv ht => ?_
    exact ((h.apart k' k v u hk' hk hne.symm).records hjv hdel ht.symm).symm
  · obtain ⟨m, hm, hserves⟩ := hs.served hj
    have hrecord := hun k' u v hk hk' hne hj
    rw [reconcileNow_proxies hk']
    refine Neighbours.Serves.kept hm hserves huid
      (fun _ ht => hrecord ht.symm) fun hjv ht => ?_
    refine ⟨hapart.routes hj hjv ht, fun hproxy _ => hrecord ?_⟩
    rw [oldKey, hproxy]
    exact ht.symm

/-- With the finalizer on it, a CR in service is settled. -/
theorem InService.settled {u : Multiplicador} (h : InService c u)
    (hf : joins u = true → finalizerName ∈ u.finalizers) : Settled c u := by
  have hreg : active u = true → registered u = u := by
    intro ha
    rw [registered]
    split
    · rfl
    · rename_i hr
      have hj := joins_iff.mpr ⟨ha, hr⟩
      rw [h.calm.recorded hj, withFinalizer, if_pos (hf hj)]
  exact ⟨⟨⟨h.calm.released, h.left, h.calm.refused, h.calm.annotated,
    h.calm.deployment, h.calm.service, h.calm.owned⟩, hreg⟩, h.calm.ready,
    h.served⟩

end Step

/-! ## Runs of the loop -/

/-- What the runs below go by: a peaceful cluster whose keys the workers can
    read, and what `start` knows of it. -/
theorem fit_of_peaceful {c : Cluster} {ks : List Key} (h : Peaceful c)
    (hplain : ∀ k, c.crs k ≠ none → '/' ∉ k.1.toList)
    (hks : ∀ k, c.crs k ≠ none → k ∈ ks) : Fit ks (start c ks) := by
  refine ⟨h.wellFormed, h.maps, ?_, hplain, hks, resting_empty⟩
  intro k k' u v hu hv he
  by_contra hne
  exact (h.apart k k' u v hu hv (Ne.symm hne)).uids he

section Run

variable {ks : List Key} {s s' : Loop} {m : Move} {ms : List Move}

/-- The cluster of the loop moves by turns. -/
theorem keep_step {I : Cluster → Prop}
    (hI : ∀ c k, I c → I (reconcileNow c k)) (h : I s.cluster)
    (hs : Step s m s') : I s'.cluster := by
  cases hs with
  | report n => exact h
  | deliver before after n hp => exact h
  | work key q hg ho => exact hI _ _ h

/-- What every turn keeps, every run of the loop keeps. -/
theorem keep_run {I : Cluster → Prop}
    (hI : ∀ c k, I c → I (reconcileNow c k)) (h : I s.cluster)
    (hr : Run s ms s') : I s'.cluster := by
  induction hr with
  | nil s => exact h
  | cons hs _ ih => exact ih (keep_step hI h hs)

/-- **EVERY STEP HEEDS** a CR whose route nobody has on record, until it is in
    service. -/
theorem served_step {k : Key} (hf : Fit ks s) (hp : Peaceful s.cluster)
    (hun : Unclaimed s.cluster k) (h : Heeded InService k s)
    (hs : Step s m s') : Heeded InService k s' := by
  refine heeded_step hf (fun u hu hsame => ?_)
    (fun k' u v hne hu hv hserved => ?_) h hs
  · exact inService_of_same hp hu hsame
  · exact hserved.kept hp hun hu hv hne

theorem served_run {k : Key} (hf : Fit ks s) (hp : Peaceful s.cluster)
    (hun : Unclaimed s.cluster k) (h : Heeded InService k s)
    (hr : Run s ms s') : Heeded InService k s' := by
  induction hr with
  | nil s => exact h
  | cons hs _ ih =>
      have hboth := keep_step
        (I := fun c => Peaceful c ∧ Unclaimed c k)
        (fun c j hc => ⟨hc.1.step j, hc.2.step hc.1 j⟩) ⟨hp, hun⟩ hs
      exact ih (fit_step hf hs) hboth.1 hboth.2
        (served_step hf hp hun h hs)

end Run

/-- **IN SERVICE WHEN QUIET**: of a peaceful cluster, whatever the order of the
    deliveries and of the turns and whatever others report, once the loop is
    quiet every CR whose route no other had on record at the start is served;
    no live CR is gone, and nobody asks for anything else.  When that is so of
    every CR and their finalizers are in place, no turn moves anything. -/
theorem in_service_when_quiet {c : Cluster} {ks : List Key} (h : Peaceful c)
    (hplain : ∀ k, c.crs k ≠ none → '/' ∉ k.1.toList)
    (hks : ∀ k, c.crs k ≠ none → k ∈ ks) {ms : List Move} {s : Loop}
    (hr : Run (start c ks) ms s) (hq : s.Quiet) :
    (∀ k, Unclaimed c k → ∀ u, s.cluster.crs k = some u →
        InService s.cluster u.obj)
      ∧ Continued c s.cluster
      ∧ ((∀ k, Unclaimed c k) →
        (∀ k u, s.cluster.crs k = some u → joins u.obj = true →
          finalizerName ∈ u.obj.finalizers) →
        ∀ turn, turns reconcileNow s.cluster turn = s.cluster) := by
  have hfit := fit_of_peaceful h hplain hks
  have hserved : ∀ k, Unclaimed c k → ∀ u, s.cluster.crs k = some u →
      InService s.cluster u.obj := by
    intro k hun u hu
    have hstart := heeded_start (R := InService) h.wellFormed (hks k)
    exact (served_run hfit h hun hstart hr).of_quiet hq hu
  have hlater := keep_run (I := fun c' => Peaceful c' ∧ Continued c c')
    (fun c' k hc => ⟨hc.1.step k, hc.2.turn hc.1.wellFormed k⟩)
    ⟨h, Continued.refl c⟩ hr
  refine ⟨hserved, hlater.2, fun hun hfinal turn => ?_⟩
  refine turns_rest (fun k => ?_) turn
  refine reconcileNow_of_settled hlater.1.wellFormed fun u hu => ?_
  exact (hserved k (hun k) u hu).settled (hfinal k u hu)

/-! ## The shared host -/

/-- The CR that is leaving the shared host has another route on record. -/
theorem unclaimed_sharedHost (k : Key) : Unclaimed sharedHost k := by
  intro k' u v hu hv hne hj ht
  have hu' := mem_of_storeOf hu
  have hv' := mem_of_storeOf hv
  simp only [List.mem_cons, List.not_mem_nil, or_false, Prod.mk.injEq]
    at hu' hv'
  rcases hu' with ⟨-, rfl⟩ | ⟨-, rfl⟩ | ⟨-, rfl⟩ <;>
    rcases hv' with ⟨-, rfl⟩ | ⟨-, rfl⟩ | ⟨-, rfl⟩ <;>
    first | exact absurd hj (by decide) | decide

/-- Both are in service, and the live ones have not gone. -/
theorem in_service_sharedHost :
    ∃ ms s, Run (start sharedHost forth) ms s ∧ s.Quiet
      ∧ (∀ k u, s.cluster.crs k = some u → InService s.cluster u.obj)
      ∧ (∃ u, s.cluster.crs ("default", "web") = some u)
      ∧ ∃ u, s.cluster.crs ("default", "api") = some u := by
  obtain ⟨ms, s, hr, -, hq⟩ := exists_quiet_run fit_sharedHost
  obtain ⟨hserved, hcont, -⟩ := in_service_when_quiet peaceful_sharedHost
    fit_sharedHost.plain (fun _ => mem_forth) hr hq
  exact ⟨ms, s, hr, hq, fun k => hserved k (unclaimed_sharedHost k),
    hcont.stays ("default", "web") ⟨newCR "web" "a.com" "calc", 1⟩ rfl rfl,
    hcont.stays ("default", "api") ⟨newCR "api" "a.com" "sum", 2⟩ rfl rfl⟩

end EventRest
