import KubernetesUpRunning.Convergence

/-! # A cluster the operator has to itself

    Where nobody else has made Deployments, Services or HTTPProxies, those that
    are there look as `makeDeployment` and the create branches build them, and
    every route of a proxy is the one that some CR asks for.  The repairs keep
    it so: they change the replicas, the MULTIPLIER and the owners only. -/

namespace OwnChildren

open ApiServer ClusterRuns Convergence FairRounds GoJson Idempotence KubeObjects
open Neighbours ProxyShape ProxyView Reconcile ReconcileEffect ReconcileRun
open ServerSteps VersionedStore

/-- The Deployment as the operator makes it, for some MULTIPLIER. -/
structure OwnDeployment (q : Key) (d : Deployment) : Prop where
  selector : d.selector = labelsOf q.2
  labels : d.templateLabels = labelsOf q.2
  containers : ∃ m, d.containers = (makeDeployment q.2 q.1 1 m).containers

/-- The Service as the operator makes it, for the Deployment of some CR. -/
def OwnService (q : Key) (s : Service) : Prop :=
  ∃ name, q.2 = svcNameOf name ∧ s.selector = labelsOf (deplNameOf name)
    ∧ s.ports = [⟨8080, .int 8080⟩]

/-- `v` is a CR of `c` that is to be served by the proxy `q`. -/
def Asks (c : Cluster) (q : Key) (v : Multiplicador) : Prop :=
  ∃ k n, c.crs k = some ⟨v, n⟩ ∧ joins v = true ∧ targetKey v = q

/-- Every route of the proxy is asked for, its virtual host too. -/
structure OwnProxy (c : Cluster) (q : Key) (o : Fields) : Prop where
  routes : ∀ r ∈ routesOf o, ∃ v, Asks c q v ∧ r = routeFor v
  prefixes : ((routesOf o).map firstPrefix).Nodup
  host : ∀ f, fqdnOf o = some f → ∃ v, Asks c q v ∧ v.host = f

/-- The children in `c'` are the operator's own, and serve the CRs of `c`. -/
structure Own (c c' : Cluster) : Prop where
  deployments : ∀ q d, content c'.deployments q = some d → OwnDeployment q d
  services : ∀ q s, content c'.services q = some s → OwnService q s
  proxies : ∀ q o, content c'.proxies q = some o → OwnProxy c q o

/-- Before the operator has done anything. -/
theorem own_of_none {c c' : Cluster}
    (hd : ∀ q, content c'.deployments q = none)
    (hs : ∀ q, content c'.services q = none)
    (hp : ∀ q, content c'.proxies q = none) : Own c c' := by
  refine ⟨fun q d h => ?_, fun q s h => ?_, fun q o h => ?_⟩
  · rw [hd q] at h
    exact absurd h (by simp)
  · rw [hs q] at h
    exact absurd h (by simp)
  · rw [hp q] at h
    exact absurd h (by simp)

/-! ## One reconcile -/

section Step

variable {u : Multiplicador} {q : Key}

/-- The repairs leave the labels, and of the containers all but MULTIPLIER. -/
theorem OwnDeployment.repaired {d : Deployment} (h : OwnDeployment q d) :
    OwnDeployment q (repairDeployment u d) := by
  obtain ⟨m, hm⟩ := h.containers
  refine ⟨h.selector, h.labels, u.multiplicador, ?_⟩
  rw [repairDeployment]
  dsimp only
  rw [hm]
  rfl

theorem ownDeployment_after (hname : q.2 = deplNameOf u.name)
    {o : Option Deployment} (h : ∀ d, o = some d → OwnDeployment q d) :
    OwnDeployment q (deploymentAfter u o) := by
  cases o with
  | none =>
      refine ⟨?_, ?_, u.multiplicador, rfl⟩
      · rw [hname]
        rfl
      · rw [hname]
        rfl
  | some d => exact (h d rfl).repaired

theorem ownService_after (hname : q.2 = svcNameOf u.name)
    {o : Option Service} (h : ∀ s, o = some s → OwnService q s) :
    OwnService q (serviceAfter u o) := by
  cases o with
  | none => exact ⟨u.name, hname, rfl, rfl⟩
  | some s =>
      obtain ⟨name, hq, hsel, hports⟩ := h s rfl
      obtain rfl : name = u.name := svcNameOf_inj.mp (hq.symm.trans hname)
      refine ⟨u.name, hname, ?_, ?_⟩
      · show (repairService u s).selector = _
        rw [repairService]
        dsimp only
        rw [hsel, ite_self]
      · show (repairService u s).ports = _
        rw [repairService]
        dsimp only
        rw [hports]
        rfl

/-- Leaving a proxy adds nothing to it. -/
theorem OwnProxy.left {c : Cluster} {uid route : String} {o m : Fields}
    (h : OwnProxy c q o) (hm : leaveContent uid route (some o) = some m) :
    OwnProxy c q m := by
  obtain ⟨rfl, -⟩ := leaveContent_some hm
  have hsub : (routesOf (stripProxy uid route o)).Sublist (routesOf o) := by
    rw [routesOf_stripProxy]
    exact keptRoutes_sublist route _
  refine ⟨fun r hr => h.routes r (hsub.subset hr),
    nodup_map_sublist hsub h.prefixes, fun f hf => h.host f ?_⟩
  rw [← fqdnOf_stripProxy uid route o]
  exact hf

/-- A merge adds the route and the host of the CR that merges. -/
theorem OwnProxy.merged {c : Cluster} {v : Multiplicador} (hv : Asks c q v)
    (hroute : routeFor u = routeFor v) (hhost : u.host = v.host)
    {o : Option Fields} {m : Fields} (h : ∀ x, o = some x → OwnProxy c q x)
    (hm : mergeContent u o = some m) : OwnProxy c q m := by
  obtain ⟨-, hroutes, hfqdn⟩ := mergeContent_spec hm
  have hsub := mergeBase_sublist u ((o.map routesOf).getD [])
  have hold : (∀ r ∈ (o.map routesOf).getD [],
        ∃ v, Asks c q v ∧ r = routeFor v)
      ∧ (((o.map routesOf).getD []).map firstPrefix).Nodup := by
    cases o with
    | none => simp
    | some x => exact ⟨(h x rfl).routes, (h x rfl).prefixes⟩
  refine ⟨fun r hr => ?_, ?_, fun f hf => ?_⟩
  · rw [hroutes] at hr
    rcases mem_upsertRoute hr with hr | hr
    · exact ⟨v, hv, hr.trans hroute⟩
    · exact hold.1 r (hsub.subset hr)
  · rw [hroutes]
    exact prefixes_upsertRoute (firstPrefix_routeFor u)
      (nodup_map_sublist hsub hold.2)
  · rw [hfqdn, mergedFqdn] at hf
    split at hf
    · obtain ⟨x, hx, hxf⟩ := Option.bind_eq_some_iff.mp hf
      exact (h x hx).host f hxf
    · exact ⟨v, hv, by rw [← hhost, Option.some.inj hf]⟩

end Step

/-- The route of a CR that asks for the same. -/
theorem routeFor_of_sameClaims {u v : Multiplicador} (h : SameClaims u v) :
    routeFor v = routeFor u := by
  have hname : v.name = u.name := by
    obtain ⟨⟨a, f, s, rfl⟩, -⟩ := h
    rfl
  rw [routeFor, routeFor, h.prefixOf, hname]

/-- **ONE RECONCILE** keeps the children the operator's own. -/
theorem Own.step {c c' : Cluster} (h : Own c c') (hwf : WellFormed c')
    (hsame : SameCRs c c') (k : Key) : Own c (reconcileNow c' k) := by
  cases hk : c'.crs k with
  | none =>
      rw [reconcileNow_of_none hk]
      exact h
  | some u =>
      have hn := hwf.stored k u hk
      refine ⟨fun q d hd => ?_, fun q s hs => ?_, fun q o ho => ?_⟩
      · rw [reconcileNow_deployments hwf hk] at hd
        split at hd
        · by_cases hq : q = deploymentKey k
          · subst hq
            rw [Function.update_self] at hd
            rw [← Option.some.inj hd]
            refine ownDeployment_after ?_ (h.deployments _)
            rw [hn.name]
            rfl
          · rw [Function.update_of_ne hq] at hd
            exact h.deployments q d hd
        · exact h.deployments q d hd
      · rw [reconcileNow_services hwf hk] at hs
        split at hs
        · by_cases hq : q = serviceKey k
          · subst hq
            rw [Function.update_self] at hs
            rw [← Option.some.inj hs]
            refine ownService_after ?_ (h.services _)
            rw [hn.name]
            rfl
          · rw [Function.update_of_ne hq] at hs
            exact h.services q s hs
        · exact h.services q s hs
      · rw [reconcileNow_proxies hk] at ho
        obtain ⟨u₀, hu₀, hclaims⟩ := hsame k u hk
        refine kept_proxiesAfter (R := fun o => ∀ x, o = some x →
          OwnProxy c q x) ?_ ?_ (h.proxies q) o ho
        · intro _ _ hR x hx
          cases hp : content c'.proxies q with
          | none =>
              rw [hp] at hx
              exact absurd hx (by simp [leaveContent])
          | some y =>
              rw [hp] at hx
              exact (hR y hp).left hx
        · rintro hj rfl o m hR hm x hx
          rw [← Option.some.inj hx]
          have hasks : Asks c (targetKey u.obj) u₀.obj :=
            ⟨k, u₀.version, hu₀, hclaims.joins.symm.trans hj,
              hclaims.target.symm⟩
          exact OwnProxy.merged hasks (routeFor_of_sameClaims hclaims)
            hclaims.host hR hm

/-- **A RUN** of complete reconciles keeps them so. -/
theorem Own.turns {c : Cluster} (h : Own c c) (hwf : WellFormed c)
    (ks : List Key) : Own c (turns reconcileNow c ks) :=
  (turns_keep (I := fun c' => WellFormed c' ∧ Continued c c' ∧ Own c c')
    (fun _ k hI => ⟨wellFormed_reconcileNow hI.1, hI.2.1.turn hI.1 k,
      hI.2.2.step hI.1 hI.2.1.same k⟩)
    ⟨hwf, Continued.refl c, h⟩ ks).2.2

end OwnChildren
