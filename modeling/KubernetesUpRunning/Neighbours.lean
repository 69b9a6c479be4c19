import KubernetesUpRunning.FixedPoint

/-! # What a reconcile leaves its neighbours

    A reconcile of one CR touches the HTTPProxies that others share.  Here is
    what it keeps of them: the metadata and the spec of a proxy, the owner
    entries of other CRs, a route under another prefix, and the absence of a
    CR that has left.  The Deployments and the Services of other CRs it does
    not touch at all. -/

namespace Neighbours

open AssocMap ApiServer ClusterRuns FixedPoint GoJson Idempotence KubeObjects
open ProxyShape ProxyView Reconcile ReconcileEffect ReconcileRun ServerSteps
open VersionedStore

/-! ## One proxy through a reconcile -/

/-- **THE TWO MOVES ON ONE PROXY**: what leaving it and merging into it keep,
    a reconcile keeps; a merge that panics leaves the proxy. -/
theorem kept_proxiesAfter {R : Option Fields → Prop} {v : Multiplicador}
    {P : Key → Option Fields} {q : Key}
    (hleave : departs v = true → q = oldKey v → R (P q) →
      R (leaveContent v.uid (prevRoute v) (P q)))
    (hmerge : joins v = true → q = targetKey v → ∀ o m, R o →
      mergeContent v o = some m → R (some m))
    (h : R (P q)) : R (proxiesAfter v P q) := by
  have hdepart : R (departProxies v P q) := by
    rw [departProxies]
    split
    · rename_i hd
      by_cases hq : q = oldKey v
      · subst hq
        rw [Function.update_self]
        exact hleave hd rfl h
      · rw [Function.update_of_ne hq]
        exact h
    · exact h
  rw [proxiesAfter_eq, joinProxies]
  split
  · rename_i hj
    cases hm : mergeContent v (departProxies v P (targetKey v)) with
    | none =>
        rw [installProxies_panic hm]
        exact hdepart
    | some m =>
        rw [installProxies_ok hm]
        by_cases hq : q = targetKey v
        · subst hq
          rw [show (nsOf v, proxyNameOf v) = targetKey v from rfl,
            Function.update_self]
          exact hmerge hj rfl _ m hdepart hm
        · rw [Function.update_of_ne (show q ≠ (nsOf v, proxyNameOf v) from hq)]
          exact hdepart
  · exact hdepart

/-- What is left of a proxy is the proxy without the CR. -/
theorem leaveContent_some {uid route : String} {o m : Fields}
    (h : leaveContent uid route (some o) = some m) :
    m = stripProxy uid route o ∧ deleteOld m = false := by
  have h' : (if deleteOld (stripProxy uid route o) = true then none
      else some (stripProxy uid route o)) = some m := h
  split at h'
  · exact absurd h' (by simp)
  · rename_i hd
    have hm := Option.some.inj h'
    exact ⟨hm.symm, by rw [← hm]; simpa using hd⟩

/-! ## The maps -/

/-- The proxy has a metadata and a spec. -/
def Maps (o : Option Fields) : Prop :=
  ∀ x, o = some x → (metadataOf x).isSome ∧ (specOf x).isSome

theorem maps_leaveContent {uid route : String} {o : Option Fields}
    (h : Maps o) : Maps (leaveContent uid route o) := by
  intro m hm
  cases o with
  | none => exact absurd hm (by simp [leaveContent])
  | some x =>
      obtain ⟨hmd, hspec⟩ := h x rfl
      obtain ⟨rfl, -⟩ := leaveContent_some hm
      rw [stripProxy]
      split
      · exact ⟨metadata_removeOwner hmd, by rw [spec_removeOwner]; exact hspec⟩
      · refine ⟨?_, spec_removePrefix ?_⟩
        · rw [metadata_removePrefix]
          exact metadata_removeOwner hmd
        · rw [spec_removeOwner]
          exact hspec

theorem maps_mergeContent {v : Multiplicador} {o : Option Fields} {m : Fields}
    (h : Maps o) (hm : mergeContent v o = some m) : Maps (some m) := by
  intro x hx
  rw [← Option.some.inj hx]
  cases o with
  | none =>
      rw [← Option.some.inj hm]
      exact ⟨rfl, rfl⟩
  | some y =>
      obtain ⟨hmd, hspec⟩ := h y rfl
      obtain ⟨m', hm', hmaps⟩ := mergeProxy_maps (u := v) hmd hspec
      rw [← Option.some.inj (hm'.symm.trans hm)]
      exact hmaps

theorem haveMaps_iff {c : Cluster} :
    HaveMaps c ↔ ∀ q, Maps (content c.proxies q) := by
  constructor
  · intro h q x hx
    obtain ⟨v, hv, rfl⟩ := Option.map_eq_some_iff.mp hx
    exact h q v hv
  · intro h q v hv
    exact h q v.obj (content_of_some hv)

/-- Every proxy keeps its metadata and its spec. -/
theorem haveMaps_reconcileNow {c : Cluster} (h : HaveMaps c) (k : Key) :
    HaveMaps (reconcileNow c k) := by
  cases hk : c.crs k with
  | none =>
      rw [reconcileNow_of_none hk]
      exact h
  | some u =>
      rw [haveMaps_iff] at h ⊢
      intro q
      rw [reconcileNow_proxies hk]
      exact kept_proxiesAfter (fun _ _ => maps_leaveContent)
        (fun _ _ _ _ ho hm => maps_mergeContent ho hm) (h q)

/-- Among proxies with a metadata and a spec every reconcile returns nil. -/
theorem outcomeOf_of_maps {c : Cluster} (h : WellFormed c) (hm : HaveMaps c)
    (k : Key) : outcomeOf c k = .nil := by
  cases hk : c.crs k with
  | none => rw [outcomeOf, run_reconcileKey_of_none hk]
  | some u =>
      rw [outcomeOf_of_some h hk, if_neg]
      rintro ⟨-, -, hp⟩
      obtain ⟨m, hmerge⟩ := exists_merge_of_maps hm u.obj
      rw [panics, decide_eq_true_eq] at hp
      exact absurd (hmerge.symm.trans hp.2) (by simp)

/-! ## The owners -/

/-- The proxy is there and has an owner entry of the uid. -/
def OwnedBy (uid : String) (o : Option Fields) : Prop :=
  ∃ m, o = some m ∧ (ownersOf m).any (ownedBy uid) = true

/-- A proxy with an owner is not deleted. -/
theorem deleteOld_of_owned {uid : String} {m : Fields}
    (h : (ownersOf m).any (ownedBy uid) = true) : deleteOld m = false := by
  cases hd : deleteOld m with
  | false => rfl
  | true =>
      rw [(deleteOld_empty hd).1] at h
      exact absurd h (by simp)

/-- The owner entries of others stay when a CR leaves. -/
theorem owned_stripProxy {uid uid' route : String} (hne : uid' ≠ uid)
    {o : Fields} (h : (ownersOf o).any (ownedBy uid) = true) :
    (ownersOf (stripProxy uid' route o)).any (ownedBy uid) = true := by
  obtain ⟨r, hr, hown⟩ := List.any_eq_true.mp h
  have hother : ownedBy uid' r = false := by
    have huid := ownedBy_iff.mp hown
    rw [ownedBy, huid]
    simpa using fun e => hne e.symm
  rw [ownersOf_stripProxy, List.any_eq_true]
  exact ⟨r, List.mem_filter.mpr ⟨hr, by simp [hother]⟩, hown⟩

theorem leaveContent_of_owned {uid uid' route : String} (hne : uid' ≠ uid)
    {o : Fields} (h : (ownersOf o).any (ownedBy uid) = true) :
    leaveContent uid' route (some o) = some (stripProxy uid' route o) := by
  have hd : deleteOld (stripProxy uid' route o) = false :=
    deleteOld_of_owned (owned_stripProxy hne h)
  rw [leaveContent, Option.bind_some, if_neg (by simp [hd])]

theorem owned_mergeContent {uid : String} {v : Multiplicador}
    {o : Option Fields} {m : Fields} (h : OwnedBy uid o)
    (hm : mergeContent v o = some m) : OwnedBy uid (some m) := by
  obtain ⟨x, rfl, hown⟩ := h
  obtain ⟨r, hr, hr'⟩ := List.any_eq_true.mp hown
  refine ⟨m, rfl, ?_⟩
  rw [(mergeContent_spec hm).1, List.any_eq_true]
  refine ⟨r, ?_, hr'⟩
  rw [mergedOwners]
  split
  · exact hr
  · exact List.mem_append_left _ hr

/-- **THE OWNER STAYS** through the reconciles of CRs with another uid. -/
theorem OwnedBy.kept {uid : String} {v : Multiplicador}
    {P : Key → Option Fields} {q : Key} (h : OwnedBy uid (P q))
    (hne : v.uid ≠ uid) : OwnedBy uid (proxiesAfter v P q) := by
  refine kept_proxiesAfter ?_ (fun _ _ _ _ => owned_mergeContent) h
  rintro - - ⟨m, hm, hown⟩
  rw [hm, leaveContent_of_owned hne hown]
  exact ⟨_, rfl, owned_stripProxy hne hown⟩

/-! ## The routes -/

/-- The loop over the routes leaves a list whose first route under the prefix
    is the one to be put there. -/
theorem upsertRoute_eq_self {p : String} {route : Json} {rs : List Json} :
    upsertRoute p route rs = rs ↔ rs.find? (hasPrefix p) = some route := by
  induction rs with
  | nil => simp [upsertRoute]
  | cons r rest ih =>
      rw [upsertRoute, List.find?_cons]
      cases hp : hasPrefix p r with
      | true => simp [eq_comm]
      | false => simp [ih]

/-- A route under one prefix is under no other. -/
theorem hasPrefix_of_ne {p p' : String} {r : Json} (hne : p' ≠ p)
    (h : hasPrefix p r = true) : hasPrefix p' r = false := by
  rw [hasPrefix, hasPrefix_iff.mp h]
  simpa using fun e => hne e.symm

theorem find_upsertRoute {p p' : String} {route : Json} (hne : p' ≠ p)
    (hroute : hasPrefix p' route = true) (rs : List Json) :
    (upsertRoute p' route rs).find? (hasPrefix p)
      = rs.find? (hasPrefix p) := by
  have hother := hasPrefix_of_ne hne.symm hroute
  induction rs with
  | nil => simp [upsertRoute, hother]
  | cons r rest ih =>
      rw [upsertRoute]
      split
      · rename_i hr
        rw [List.find?_cons, List.find?_cons, hother,
          hasPrefix_of_ne hne.symm hr]
      · rw [List.find?_cons, List.find?_cons, ih]

theorem find_filter {p p' : String} (hne : p' ≠ p) (rs : List Json) :
    (rs.filter fun r => !hasPrefix p' r).find? (hasPrefix p)
      = rs.find? (hasPrefix p) := by
  induction rs with
  | nil => rfl
  | cons r rest ih =>
      cases hp : hasPrefix p r with
      | true => simp [hasPrefix_of_ne hne hp, hp]
      | false =>
          cases hp' : hasPrefix p' r with
          | true => simp [hp, hp', ih]
          | false => simp [hp, hp', ih]

/-- The spec of a proxy routes the prefix of the CR to its Service, on its
    virtual host. -/
def Routes (u : Multiplicador) (spec : Fields) : Prop :=
  (∃ rs, spec.lookup "routes" = some (.arr rs)
    ∧ rs.find? (hasPrefix (prefixOf u)) = some (routeFor u))
  ∧ (u.host ≠ "" → spec.lookup "virtualhost" = some (vhostFor u.host))

theorem serves_iff {u : Multiplicador} {m : Fields} :
    Serves u m ↔ (ownersOf m).any (ownedBy u.uid) = true
      ∧ ∃ spec, specOf m = some spec ∧ Routes u spec := by
  constructor
  · rintro ⟨hown, spec, rs, hspec, hrts, hfix, hhost⟩
    exact ⟨hown, spec, hspec, ⟨rs, hrts, upsertRoute_eq_self.mp hfix⟩, hhost⟩
  · rintro ⟨hown, spec, hspec, ⟨rs, hrts, hfind⟩, hhost⟩
    exact ⟨hown, spec, rs, hspec, hrts, upsertRoute_eq_self.mpr hfind, hhost⟩

/-- Taking out another prefix. -/
theorem routes_removePrefix {u : Multiplicador} {p : String} {o spec : Fields}
    (hne : p ≠ prefixOf u) (hspec : specOf o = some spec)
    (h : Routes u spec) :
    ∃ spec', specOf (removePrefix p o) = some spec' ∧ Routes u spec' := by
  obtain ⟨⟨rs, hrts, hfind⟩, hhost⟩ := h
  rw [removePrefix, hspec]
  dsimp only
  rw [hrts]
  refine ⟨_, specOf_setSpec _ _, ⟨_, lookup_setKey_self _ _ _, ?_⟩, ?_⟩
  · rw [find_filter hne]
    exact hfind
  · intro hh
    rw [lookup_setKey_of_ne (by decide)]
    exact hhost hh

theorem serves_stripProxy {u : Multiplicador} {uid route : String}
    {m : Fields} (h : Serves u m) (huid : uid ≠ u.uid)
    (hroute : route ≠ prefixOf u) : Serves u (stripProxy uid route m) := by
  obtain ⟨hown, spec, hspec, hroutes⟩ := serves_iff.mp h
  refine serves_iff.mpr ⟨owned_stripProxy huid hown, ?_⟩
  have hspec' : specOf (removeOwner uid m) = some spec := by
    rw [spec_removeOwner]
    exact hspec
  rw [stripProxy]
  split
  · exact ⟨spec, hspec', hroutes⟩
  · exact routes_removePrefix hroute hspec' hroutes

/-- `u` and `v`, served by one proxy, are served under different prefixes and
    ask for the same host, if they ask for one. -/
def Compatible (u v : Multiplicador) : Prop :=
  prefixOf v ≠ prefixOf u ∧ (v.host ≠ "" → u.host ≠ "" → v.host = u.host)

/-- Nothing of another CR is taken out by a merge. -/
def KeepsPrefix (u v : Multiplicador) : Prop :=
  prevProxy v = proxyNameOf v → prevRoute v ≠ prefixOf v →
    prevRoute v ≠ prefixOf u

theorem serves_mergeProxy_other {u v : Multiplicador} {o m : Fields}
    (h : Serves u o) (hcompat : Compatible u v) (hkeep : KeepsPrefix u v)
    (hm : mergeProxy v o = some m) : Serves u m := by
  obtain ⟨hown, spec, hspec, hroutes⟩ := serves_iff.mp h
  have howned : OwnedBy u.uid (some m) :=
    owned_mergeContent ⟨o, rfl, hown⟩ hm
  obtain ⟨m', hm', hown'⟩ := howned
  rw [← Option.some.inj hm'] at hown'
  refine serves_iff.mpr ⟨hown', ?_⟩
  rw [mergeProxy] at hm
  obtain ⟨o₁, ho₁, hm⟩ := Option.bind_eq_some_iff.mp hm
  have hspec₁ : specOf o₁ = some spec := (mergeOwner_spec ho₁).2.trans hspec
  obtain ⟨spec₂, hspec₂, ⟨rs, hrts, hfind⟩, hhost⟩ :
      ∃ spec', specOf (dropOldPrefix v o₁) = some spec' ∧ Routes u spec' := by
    rw [dropOldPrefix]
    split
    · rename_i hcond
      exact routes_removePrefix (hkeep hcond.1 hcond.2.2) hspec₁ hroutes
    · exact ⟨spec, hspec₁, hroutes⟩
  have hlist : routesOf (dropOldPrefix v o₁) = rs := by
    simp [routesOf, hspec₂, hrts]
  have hmine : hasPrefix (prefixOf v) (routeFor v) = true := by
    simp [hasPrefix]
  rw [mergeSpec, hspec₂, hlist] at hm
  rw [← Option.some.inj hm]
  refine ⟨_, specOf_setSpec _ _, ⟨upsertRoute (prefixOf v) (routeFor v) rs,
    ?_, ?_⟩, ?_⟩
  · split
    · exact lookup_setKey_self _ _ _
    · rw [lookup_setKey_of_ne (by decide), lookup_setKey_self]
  · rw [find_upsertRoute hcompat.1 hmine]
    exact hfind
  · intro hh
    split
    · rw [lookup_setKey_of_ne (by decide)]
      exact hhost hh
    · rename_i hv
      rw [lookup_setKey_self, hcompat.2 hv hh]

/-- **THE ROUTE STAYS** through the reconciles of CRs that take no claim on
    it. -/
theorem Serves.kept {u v : Multiplicador} {P : Key → Option Fields} {q : Key}
    {m : Fields} (hq : P q = some m) (h : Serves u m) (huid : v.uid ≠ u.uid)
    (hleave : departs v = true → q = oldKey v → prevRoute v ≠ prefixOf u)
    (hmerge : joins v = true → q = targetKey v →
      Compatible u v ∧ KeepsPrefix u v) :
    ∃ m', proxiesAfter v P q = some m' ∧ Serves u m' := by
  refine kept_proxiesAfter (R := fun o => ∃ m, o = some m ∧ Serves u m)
    ?_ ?_ ⟨m, hq, h⟩
  · rintro hd hold ⟨x, hx, hs⟩
    rw [hx, leaveContent_of_owned huid hs.owned]
    exact ⟨_, rfl, serves_stripProxy hs huid (hleave hd hold)⟩
  · rintro hj htarget o m' ⟨x, rfl, hs⟩ hm
    obtain ⟨hcompat, hkeep⟩ := hmerge hj htarget
    exact ⟨m', rfl, serves_mergeProxy_other hs hcompat hkeep hm⟩

/-! ## A CR that has left -/

/-- Nothing of the CR is left in the proxy. -/
def Left (uid route : String) (o : Option Fields) : Prop :=
  leaveContent uid route o = o

theorem left_iff {uid route : String} {o : Option Fields} :
    Left uid route o ↔ ∀ x, o = some x →
      (∀ r ∈ ownersOf x, ownedBy uid r = false)
      ∧ (route ≠ "" → ∀ r ∈ routesOf x, hasPrefix route r = false)
      ∧ deleteOld x = false := by
  constructor
  · rintro h x rfl
    obtain ⟨hx, hd⟩ := leaveContent_some h
    have howners := congrArg ownersOf hx
    have hroutes := congrArg routesOf hx
    rw [ownersOf_stripProxy] at howners
    rw [routesOf_stripProxy] at hroutes
    refine ⟨?_, ?_, hd⟩
    · intro r hr
      rw [howners] at hr
      simpa using (List.mem_filter.mp hr).2
    · intro hroute r hr
      rw [hroutes, keptRoutes, if_neg hroute] at hr
      simpa using (List.mem_filter.mp hr).2
  · intro h
    cases o with
    | none => rfl
    | some x =>
        obtain ⟨howners, hroutes, hd⟩ := h x rfl
        have hsame : stripProxy uid route x = x := by
          rw [stripProxy, removeOwner_eq_self howners]
          split
          · rfl
          · rename_i hroute
            exact removePrefix_eq_self (hroutes hroute)
        rw [Left, leaveContent, Option.bind_some, hsame, if_neg (by simp [hd])]

/-- **WHO HAS LEFT STAYS AWAY** through the reconciles of CRs with another uid
    that are not served under the prefix it had. -/
theorem Left.kept {uid route : String} {v : Multiplicador}
    {P : Key → Option Fields} {q : Key} (h : Left uid route (P q))
    (huid : v.uid ≠ uid)
    (hmerge : joins v = true → q = targetKey v → prefixOf v ≠ route) :
    Left uid route (proxiesAfter v P q) := by
  refine kept_proxiesAfter ?_ ?_ h
  · intro _ _ hl
    rw [left_iff] at hl ⊢
    intro m hm
    cases hq : P q with
    | none =>
        rw [hq] at hm
        exact absurd hm (by simp [leaveContent])
    | some x =>
        rw [hq] at hm
        obtain ⟨howners, hroutes, -⟩ := hl x hq
        obtain ⟨rfl, hd⟩ := leaveContent_some hm
        refine ⟨?_, ?_, hd⟩
        · intro r hr
          rw [ownersOf_stripProxy] at hr
          exact howners r (List.mem_of_mem_filter hr)
        · intro hroute r hr
          rw [routesOf_stripProxy] at hr
          exact hroutes hroute r ((keptRoutes_sublist _ _).subset hr)
  · intro hj hq o m hl hm
    rw [left_iff] at hl ⊢
    intro x hx
    rw [← Option.some.inj hx]
    obtain ⟨hown, hrts, -⟩ := mergeContent_spec hm
    have hmine : (ownersOf m).any (ownedBy v.uid) = true := by
      rw [hown]
      exact owned_mergedOwners v _
    refine ⟨?_, ?_, deleteOld_of_owned hmine⟩
    · intro r hr
      rw [hown] at hr
      rcases mem_mergedOwners hr with rfl | hr
      · simpa [ownedBy] using huid
      · cases o with
        | none => exact absurd hr (by simp)
        | some y => exact (hl y rfl).1 r hr
    · intro hroute r hr
      rw [hrts] at hr
      rcases mem_upsertRoute hr with rfl | hr
      · simpa [hasPrefix] using hmerge hj hq
      · cases o with
        | none => exact absurd ((mergeBase_sublist v _).subset hr) (by simp)
        | some y =>
            exact (hl y rfl).2.1 hroute r
              ((mergeBase_sublist v _).subset hr)

/-! ## The Deployments and the Services -/

section Children

variable (w : Versioned Multiplicador) (c : Cluster)

theorem services_ensureState :
    content (ensureState w c).1.services
      = Function.update (content c.services)
          (nsOf w.obj, svcNameOf w.obj.name) (some (serviceAfter w.obj
            (content c.services (nsOf w.obj, svcNameOf w.obj.name)))) := by
  have hsvc := setService_services c (nsOf w.obj, svcNameOf w.obj.name)
    (some (serviceAfter w.obj
      (content c.services (nsOf w.obj, svcNameOf w.obj.name))))
  by_cases hr : w.obj.ruta = ""
  · rw [ensureState_of_no_ruta hr]
    exact hsvc
  · rw [ensureState_of_ruta hr, installState]
    dsimp only
    split
    · rw [leaveState_services]
      exact hsvc
    · rw [writeCR_services, setProxy_services, leaveState_services]
      exact hsvc

theorem deployments_validState :
    content (validState w c).1.deployments
      = Function.update (content c.deployments)
          (nsOf w.obj, deplNameOf w.obj.name) (some (deploymentAfter w.obj
            (content c.deployments (nsOf w.obj, deplNameOf w.obj.name)))) := by
  unfold validState
  dsimp only
  cases content c.deployments (nsOf w.obj, deplNameOf w.obj.name) with
  | none =>
      show content (ensureState _ _).1.deployments = _
      rw [ensureState_deployments, writeCR_deployments]
      exact setDeployment_deployments _ _ _
  | some d =>
      unfold repairState
      dsimp only
      split
      · rw [writeCR_deployments, ensureState_deployments]
        exact setDeployment_deployments _ _ _
      · rw [ensureState_deployments]
        exact setDeployment_deployments _ _ _

theorem services_validState :
    content (validState w c).1.services
      = Function.update (content c.services)
          (nsOf w.obj, svcNameOf w.obj.name) (some (serviceAfter w.obj
            (content c.services (nsOf w.obj, svcNameOf w.obj.name)))) := by
  unfold validState
  dsimp only
  cases content c.deployments (nsOf w.obj, deplNameOf w.obj.name) with
  | none => exact services_ensureState ⟨withReady (annotated w.obj), w.version⟩ _
  | some d =>
      unfold repairState
      dsimp only
      split
      · rw [writeCR_services]
        exact services_ensureState ⟨annotated w.obj, w.version⟩ _
      · exact services_ensureState ⟨annotated w.obj, w.version⟩ _

end Children

/-- Where the Deployment of the CR at `k` is. -/
def deploymentKey (k : Key) : Key := (k.1, deplNameOf k.2)

/-- Where its Service is. -/
def serviceKey (k : Key) : Key := (k.1, svcNameOf k.2)

theorem deploymentKey_inj {k k' : Key} :
    deploymentKey k = deploymentKey k' ↔ k = k' := by
  rw [deploymentKey, deploymentKey, Prod.mk.injEq, deplNameOf, deplNameOf,
    String.append_left_inj, Prod.ext_iff]

theorem serviceKey_inj {k k' : Key} :
    serviceKey k = serviceKey k' ↔ k = k' := by
  rw [serviceKey, serviceKey, Prod.mk.injEq, svcNameOf_inj, Prod.ext_iff]

/-- The CR asks for a Deployment and a Service. -/
def active (u : Multiplicador) : Bool :=
  u.deletionTimestamp.isNone && decide (0 < u.multiplicador)

theorem active_iff {u : Multiplicador} :
    active u = true ↔ u.deletionTimestamp = none ∧ 0 < u.multiplicador := by
  simp [active]

theorem joins_iff {u : Multiplicador} :
    joins u = true ↔ active u = true ∧ u.ruta ≠ "" := by
  simp [joins, active]

section Reconcile

variable {c : Cluster} {k : Key} {u : Versioned Multiplicador}

/-- A reconcile of a CR that is deleted or invalid. -/
theorem reconcileNow_inactive (hk : c.crs k = some u)
    (ha : active u.obj = false) :
    (reconcileNow c k).deployments = c.deployments
      ∧ (reconcileNow c k).services = c.services := by
  rw [reconcileNow, run_reconcileKey_of_some hk]
  by_cases hdel : u.obj.deletionTimestamp.isSome = true
  · rw [reconcileOne_deleted hdel, run_reconcileDeleted, deletedState]
    dsimp only
    split
    · split <;> exact ⟨rfl, rfl⟩
    · split <;> exact ⟨rfl, rfl⟩
  · have hlive : u.obj.deletionTimestamp = none := by simpa using hdel
    have hle : u.obj.multiplicador ≤ 0 := by
      by_contra hpos
      rw [active_iff.mpr ⟨hlive, by omega⟩] at ha
      exact absurd ha (by simp)
    rw [reconcileOne_invalid hlive hle, run_reconcileInvalid]
    exact ⟨rfl, rfl⟩

/-- **THE DEPLOYMENTS AFTER A RECONCILE.** -/
theorem reconcileNow_deployments (h : WellFormed c) (hk : c.crs k = some u) :
    content (reconcileNow c k).deployments
      = if active u.obj then
          Function.update (content c.deployments) (deploymentKey k)
            (some (deploymentAfter u.obj
              (content c.deployments (deploymentKey k))))
        else content c.deployments := by
  have hn := h.stored k u hk
  cases ha : active u.obj with
  | false => rw [(reconcileNow_inactive hk ha).1, if_neg (by simp)]
  | true =>
      obtain ⟨hlive, hpos⟩ := active_iff.mp ha
      rw [if_pos rfl, reconcileNow_valid hk hlive hpos,
        deployments_validState, hn.nsOf, hn.name]
      rfl

/-- **THE SERVICES AFTER A RECONCILE.** -/
theorem reconcileNow_services (h : WellFormed c) (hk : c.crs k = some u) :
    content (reconcileNow c k).services
      = if active u.obj then
          Function.update (content c.services) (serviceKey k)
            (some (serviceAfter u.obj (content c.services (serviceKey k))))
        else content c.services := by
  have hn := h.stored k u hk
  cases ha : active u.obj with
  | false => rw [(reconcileNow_inactive hk ha).2, if_neg (by simp)]
  | true =>
      obtain ⟨hlive, hpos⟩ := active_iff.mp ha
      rw [if_pos rfl, reconcileNow_valid hk hlive hpos,
        services_validState, hn.nsOf, hn.name]
      rfl

/-- The Deployment of another CR. -/
theorem reconcileNow_deployments_of_ne {q : Key} (h : WellFormed c)
    (hq : q ≠ deploymentKey k) :
    content (reconcileNow c k).deployments q = content c.deployments q := by
  cases hk : c.crs k with
  | none => rw [reconcileNow_of_none hk]
  | some u =>
      rw [reconcileNow_deployments h hk]
      split
      · exact Function.update_of_ne hq _ _
      · rfl

/-- The Service of another CR. -/
theorem reconcileNow_services_of_ne {q : Key} (h : WellFormed c)
    (hq : q ≠ serviceKey k) :
    content (reconcileNow c k).services q = content c.services q := by
  cases hk : c.crs k with
  | none => rw [reconcileNow_of_none hk]
  | some u =>
      rw [reconcileNow_services h hk]
      split
      · exact Function.update_of_ne hq _ _
      · rfl

end Reconcile

/-! ## What a reconcile does not change in its CR -/

/-- `v` asks for what `u` asks for, and what is being deleted keeps its
    record. -/
structure SameClaims (u v : Multiplicador) : Prop where
  marks : ∃ a f s, v = { u with annotations := a, finalizers := f, status := s }
  record : u.deletionTimestamp.isSome = true → v.annotations = u.annotations

theorem SameClaims.refl (u : Multiplicador) : SameClaims u u :=
  ⟨⟨_, _, _, rfl⟩, fun _ => rfl⟩

theorem SameClaims.trans {u v w : Multiplicador} (h : SameClaims u v)
    (h' : SameClaims v w) : SameClaims u w := by
  obtain ⟨⟨a, f, s, rfl⟩, hrec⟩ := h
  obtain ⟨⟨a', f', s', rfl⟩, hrec'⟩ := h'
  exact ⟨⟨_, _, _, rfl⟩, fun hdel => (hrec' hdel).trans (hrec hdel)⟩

section SameClaims

variable {u v : Multiplicador} (h : SameClaims u v)
include h

theorem SameClaims.spec : v.spec = u.spec := by
  obtain ⟨⟨a, f, s, rfl⟩, -⟩ := h
  rfl

theorem SameClaims.uid : v.uid = u.uid := by
  obtain ⟨⟨a, f, s, rfl⟩, -⟩ := h
  rfl

theorem SameClaims.deleted : v.deletionTimestamp = u.deletionTimestamp := by
  obtain ⟨⟨a, f, s, rfl⟩, -⟩ := h
  rfl

theorem SameClaims.active : active v = active u := by
  obtain ⟨⟨a, f, s, rfl⟩, -⟩ := h
  rfl

theorem SameClaims.joins : joins v = joins u := by
  obtain ⟨⟨a, f, s, rfl⟩, -⟩ := h
  rfl

theorem SameClaims.target : targetKey v = targetKey u := by
  obtain ⟨⟨a, f, s, rfl⟩, -⟩ := h
  rfl

theorem SameClaims.prefixOf : prefixOf v = prefixOf u := by
  obtain ⟨⟨a, f, s, rfl⟩, -⟩ := h
  rfl

theorem SameClaims.host : v.host = u.host := by
  obtain ⟨⟨a, f, s, rfl⟩, -⟩ := h
  rfl

theorem SameClaims.oldKey (hdel : u.deletionTimestamp.isSome = true) :
    oldKey v = oldKey u := by
  have hann := h.record hdel
  obtain ⟨⟨a, f, s, rfl⟩, -⟩ := h
  have ha : a = u.annotations := hann
  rw [ha]
  rfl

theorem SameClaims.prevRoute (hdel : u.deletionTimestamp.isSome = true) :
    prevRoute v = prevRoute u := by
  have hann := h.record hdel
  obtain ⟨⟨a, f, s, rfl⟩, -⟩ := h
  have ha : a = u.annotations := hann
  rw [ha]
  rfl

end SameClaims

/-- **WHAT A RECONCILE STORES** asks for what it read asks for. -/
theorem sameClaims_crNext {u w : Multiplicador} {dep : Option Deployment}
    {P : Key → Option Fields} (h : crNext u dep P = some w) :
    SameClaims u w := by
  rw [crNext] at h
  split at h
  · split at h
    · rw [admitCR] at h
      split at h
      · exact absurd h (by simp)
      · rw [← Option.some.inj h]
        exact ⟨⟨_, _, _, rfl⟩, fun _ => rfl⟩
    · rw [← Option.some.inj h]
      exact SameClaims.refl u
  · rename_i hlive
    split at h
    · rw [← Option.some.inj h]
      exact ⟨⟨_, _, _, rfl⟩, fun _ => rfl⟩
    · rw [← Option.some.inj h]
      exact ⟨(continues_crAfter u dep P).marks, fun hdel => absurd hdel hlive⟩

/-- The CRs of `c'` are those of `c`, with the same claims. -/
def SameCRs (c c' : Cluster) : Prop :=
  ∀ k v, c'.crs k = some v → ∃ u, c.crs k = some u ∧ SameClaims u.obj v.obj

theorem sameCRs_reconcileNow {c : Cluster} (h : WellFormed c) (k : Key) :
    SameCRs c (reconcileNow c k) := by
  intro j v hj
  by_cases hjk : j = k
  · subst hjk
    cases hk : c.crs j with
    | none =>
        rw [reconcileNow_of_none hk, hk] at hj
        exact absurd hj (by simp)
    | some u =>
        have hnext := reconcileNow_cr h hk
        rw [content_of_some hj] at hnext
        exact ⟨u, rfl, sameClaims_crNext hnext.symm⟩
  · rw [reconcileNow_crs_of_ne h hjk] at hj
    exact ⟨v, hj, SameClaims.refl _⟩

end Neighbours
