import KubernetesUpRunning.ClusterRuns

/-! # The record of the proxy

    The operator finds the route it has to take away by two annotations of the
    CR.  This file follows one CR through edits of its spec and complete
    reconciles, and says exactly when a reconcile leaves a record that names
    the route it has installed: when none of its earlier writes of the CR has
    moved the resourceVersion, or when the record was right already. -/

namespace Bookkeeping

open AssocMap ApiServer ClusterRuns GoJson KubeObjects ProxyShape ProxyView
open Reconcile ReconcileEffect ReconcileRun ServerSteps VersionedStore

/-- The spec asks to be served: multiplicador > 0 and a ruta. -/
def Servable (u : Multiplicador) : Prop :=
  0 < u.multiplicador ∧ u.ruta ≠ ""

/-- What happens to the CR: a user writes its spec, or it is reconciled. -/
inductive Turn where
  | edit (spec : Option Json)
  | reconcile

/-- The cluster after a turn. -/
def turn (c : Cluster) (k : Key) : Turn → Cluster
  | .edit spec => editSpec c k spec
  | .reconcile => reconcileNow c k

/-- Users write specs that ask to be served. -/
def Asked (c : Cluster) (k : Key) : Turn → Prop
  | .edit spec => ∀ v, c.crs k = some v → Servable { v.obj with spec := spec }
  | .reconcile => True

/-- Runs of turns that satisfy `ok` where they are made. -/
abbrev Turns (k : Key) (ok : Cluster → Turn → Prop) :
    Cluster → Cluster → Prop :=
  Relation.ReflTransGen fun c c' =>
    ∃ t, Asked c k t ∧ ok c t ∧ c' = turn c k t

/-- A live CR that asks to be served and that no HTTPProxy of its namespace
    routes to yet. -/
structure Unserved (c : Cluster) (k : Key) : Prop where
  wellFormed : WellFormed c
  cr : ∃ v, c.crs k = some v ∧ v.obj.deletionTimestamp = none
    ∧ Servable v.obj
  routes : ∀ q, q.1 = k.1 → ∀ r ∈ routesAt (content c.proxies) q,
    pointsTo (svcNameOf k.2) r = false

/-- The stored annotations name the proxy `q` and the prefix of `r`. -/
structure Recorded (u : Multiplicador) (q : Key) (r : Json) : Prop where
  proxy : u.ann.lookup annProxy = some q.2
  route : ∃ p, firstPrefix r = some p ∧ u.ann.lookup annProxyRoute = some p

/-- Whatever routes to the CR's service is recorded in the stored CR. -/
def Accurate (c : Cluster) (k : Key) : Prop :=
  ∀ v, c.crs k = some v → ∀ q, q.1 = k.1 →
    ∀ r ∈ routesAt (content c.proxies) q,
      pointsTo (svcNameOf k.2) r = true → Recorded v.obj q r

/-- The record will be right: the annotations of the spec are there already
    and so is the Deployment, or at least the status that its creation
    writes; or the record needs no change. -/
def RecordLands (c : Cluster) (k : Key) : Prop :=
  ∀ v, c.crs k = some v →
    (annotated v.obj = v.obj ∧
      (c.deployments (k.1, deplNameOf k.2) ≠ none
        ∨ withReady v.obj = v.obj))
    ∨ recorded v.obj = v.obj

/-- Every reconcile of the run finds the CR in a state in which its record
    will be right. -/
def Lands (k : Key) (c : Cluster) : Turn → Prop
  | .edit _ => True
  | .reconcile => RecordLands c k

/-! ## The record of a CR -/

/-- The record names the target. -/
def namesTarget (u w : Multiplicador) : Prop :=
  w.ann.lookup annProxy = some (proxyNameOf u)
    ∧ w.ann.lookup annProxyRoute = some (prefixOf u)

/-- Nothing to record means that the record names the target. -/
theorem recorded_eq_self_iff {u : Multiplicador} :
    recorded u = u ↔ namesTarget u u := by
  constructor
  · intro h
    have hann : setKey annProxyRoute (prefixOf u)
        (setKey annProxy (proxyNameOf u) u.ann) = u.ann :=
      congrArg Multiplicador.ann h
    rw [namesTarget]
    rw [← hann]
    refine ⟨?_, lookup_setKey_self _ _ _⟩
    rw [lookup_setKey_of_ne (by decide), lookup_setKey_self]
  · rintro ⟨hp, hr⟩
    rw [recorded]
    rw [setKey_eq_self hp, setKey_eq_self hr]
    have hsome : u.annotations = some u.ann := by
      rw [Multiplicador.ann] at hp ⊢
      cases ha : u.annotations with
      | none => rw [ha] at hp; exact absurd hp (by simp)
      | some m => rfl
    rw [Multiplicador.setAnnotations]
    rw [← hsome]

theorem namesTarget_recorded (u : Multiplicador) :
    namesTarget u (recorded u) := by
  refine ⟨?_, lookup_setKey_self _ _ _⟩
  show (setKey annProxyRoute (prefixOf u)
    (setKey annProxy (proxyNameOf u) u.ann)).lookup annProxy = _
  rw [lookup_setKey_of_ne (by decide), lookup_setKey_self]

/-- Every record that a reconcile writes names the target. -/
theorem namesTarget_mainWrite (u x : Multiplicador) (o : Option Fields) :
    namesTarget u (mainWrite (settled u o) x) := by
  have hann : (mainWrite (settled u o) x).ann = (recorded u).ann := by
    cases o with
    | none => rfl
    | some o =>
        show (withFinalizer (recorded u)).ann = _
        rw [withFinalizer]
        split <;> rfl
  rw [namesTarget]
  rw [hann]
  exact namesTarget_recorded u

theorem namesTarget_annotated (u : Multiplicador) :
    namesTarget u (annotated u) ↔ namesTarget u u := by
  have h : ∀ k, k ≠ annMultiplicador → k ≠ annValid →
      (annotated u).ann.lookup k = u.ann.lookup k := by
    intro k hm hv
    show (setKey annMultiplicador _ (setKey annValid _ u.ann)).lookup k = _
    rw [lookup_setKey_of_ne hm, lookup_setKey_of_ne hv]
  unfold namesTarget
  rw [h annProxy (by decide) (by decide),
    h annProxyRoute (by decide) (by decide)]

/-- **WHEN THE RECORD LANDS**: the record of the stored CR after a reconcile
    whose merge did not panic. -/
theorem namesTarget_crAfter {u : Multiplicador} {dep : Option Deployment}
    {P : Key → Option Fields} {m : Fields} (hr : u.ruta ≠ "")
    (hm : mergeContent u (leaveProxies u P (targetKey u)) = some m) :
    namesTarget u (crAfter u dep P)
      ↔ (annotated u = u ∧ (dep ≠ none ∨ withReady u = u))
        ∨ recorded u = u := by
  have hwrite : recordWrite u P u
      = mainWrite (settled u (leaveProxies u P (targetKey u))) u := by
    have hm' : mergeContent u (leaveProxies u P (nsOf u, proxyNameOf u))
        = some m := hm
    simp only [recordWrite, if_neg hr, hm', targetKey]
  have hlands : namesTarget u (recordWrite u P u) := by
    rw [hwrite]
    exact namesTarget_mainWrite u u _
  have hpan : panics u P = false := by
    have hm' : mergeContent u (leaveProxies u P (nsOf u, proxyNameOf u))
        ≠ none := by
      intro e
      exact absurd (e.symm.trans hm) (by simp)
    simp [panics, hm']
  rw [recorded_eq_self_iff]
  unfold crAfter
  by_cases hann : annotated u = u
  · rw [if_neg (by simpa using hann)]
    cases dep with
    | none =>
        dsimp only
        by_cases hst : withReady u = u
        · rw [if_neg (by simpa using hst)]
          simp [hlands, hann, hst]
        · rw [if_pos hst]
          have hsame : namesTarget u (withReady u) ↔ namesTarget u u := Iff.rfl
          rw [hsame]
          simp [hst]
    | some d =>
        have hdone : namesTarget u
            (if recordWrite u P u ≠ u then recordWrite u P u
              else if panics u P then u else withReady u) := by
          split
          · exact hlands
          · rename_i hne
            rw [not_not] at hne
            rw [hne] at hlands
            rw [hpan]
            exact hlands
        simp only [hdone, true_iff]
        exact Or.inl ⟨hann, Or.inl (Option.some_ne_none d)⟩
  · rw [if_pos hann, namesTarget_annotated]
    simp [hann]

/-- A merge that panics writes no record. -/
theorem record_of_panic {u : Multiplicador} {dep : Option Deployment}
    {P : Key → Option Fields}
    (hm : mergeContent u (leaveProxies u P (targetKey u)) = none)
    {k : String} (hv : k ≠ annValid) (hk : k ≠ annMultiplicador) :
    (crAfter u dep P).ann.lookup k = u.ann.lookup k := by
  have hwrite : recordWrite u P u = u := by
    have hm' : mergeContent u (leaveProxies u P (nsOf u, proxyNameOf u))
        = none := hm
    rw [recordWrite]
    split
    · rfl
    · rw [hm']
  have hann : (annotated u).ann.lookup k = u.ann.lookup k := by
    show (setKey annMultiplicador _ (setKey annValid _ u.ann)).lookup k = _
    rw [lookup_setKey_of_ne hk, lookup_setKey_of_ne hv]
  unfold crAfter
  rw [hwrite]
  split
  · exact hann
  · cases dep with
    | none =>
        dsimp only
        split <;> rfl
    | some d =>
        dsimp only
        split
        · rfl
        · split <;> rfl

/-- What a reconcile keeps of the CR. -/
theorem crAfter_keeps (u : Multiplicador) (dep : Option Deployment)
    (P : Key → Option Fields) :
    (crAfter u dep P).spec = u.spec
      ∧ (crAfter u dep P).deletionTimestamp = u.deletionTimestamp := by
  have hsettled : ∀ o, (settled u o).spec = u.spec := by
    intro o
    cases o with
    | none => rfl
    | some o =>
        show (withFinalizer (recorded u)).spec = _
        rw [withFinalizer]
        split <;> rfl
  have hwrite : (recordWrite u P u).spec = u.spec
      ∧ (recordWrite u P u).deletionTimestamp = u.deletionTimestamp := by
    rw [recordWrite]
    split
    · exact ⟨rfl, rfl⟩
    · split
      · exact ⟨rfl, rfl⟩
      · exact ⟨hsettled _, rfl⟩
  unfold crAfter
  split
  · exact ⟨rfl, rfl⟩
  · cases dep with
    | none =>
        dsimp only
        split
        · exact ⟨rfl, rfl⟩
        · exact hwrite
    | some d =>
        dsimp only
        split
        · exact hwrite
        · split <;> exact ⟨rfl, rfl⟩

/-! ## The routes of the CR -/

/-- What every state of a run satisfies: the routes to the CR's service are
    recorded, under a proxy and a prefix that the operator can find. -/
structure Tracked (c : Cluster) (k : Key) : Prop where
  wellFormed : WellFormed c
  cr : ∃ v, c.crs k = some v ∧ v.obj.deletionTimestamp = none
    ∧ Servable v.obj
  routes : ∀ v, c.crs k = some v → ∀ q, q.1 = k.1 →
    ∀ r ∈ routesAt (content c.proxies) q,
      pointsTo (svcNameOf k.2) r = true →
      Recorded v.obj q r ∧ q.2 ≠ "" ∧ firstPrefix r ≠ some ""

theorem Unserved.tracked {c : Cluster} {k : Key} (h : Unserved c k) :
    Tracked c k := by
  refine ⟨h.wellFormed, h.cr, ?_⟩
  intro v _ q hq r hr hp
  exact absurd ((h.routes q hq r hr).symm.trans hp) (by simp)

theorem annGet_of_lookup {ann : Annotations} {k x : String}
    (h : ann.lookup k = some x) : annGet ann k = x := by
  simp [annGet, h]

theorem prefixOf_ne (u : Multiplicador) : prefixOf u ≠ "" := by
  intro h
  have hl := congrArg String.length h
  simp [prefixOf] at hl

theorem joins_of_servable {u : Multiplicador}
    (hlive : u.deletionTimestamp = none) (h : Servable u) :
    joins u = true := by
  simp [joins, hlive, h.1, h.2]

section Step

variable {c : Cluster} {k : Key} {u : Versioned Multiplicador}

/-- After the old proxy has been left, what routes to the CR's service lies in
    the target, where it was. -/
theorem routes_departed (h : Tracked c k) (hk : c.crs k = some u)
    (hj : joins u.obj = true) {q : Key} (hq : q.1 = k.1) {r : Json}
    (hr : r ∈ routesAt (departProxies u.obj (content c.proxies)) q)
    (hp : pointsTo (svcNameOf k.2) r = true) :
    q = targetKey u.obj ∧ r ∈ routesAt (content c.proxies) q := by
  have hn := h.wellFormed.stored k u hk
  rw [routesAt_departProxies] at hr
  have hmem : r ∈ routesAt (content c.proxies) q := by
    split at hr
    · exact (keptRoutes_sublist _ _).subset hr
    · exact hr
  obtain ⟨⟨hproxy, p, hfirst, hroute⟩, hne, hpne⟩ := h.routes u hk q hq r hmem hp
  have hpp : prevProxy u.obj = q.2 := annGet_of_lookup hproxy
  have hpr : prevRoute u.obj = p := annGet_of_lookup hroute
  refine ⟨?_, hmem⟩
  by_contra htarget
  have hne' : prevProxy u.obj ≠ proxyNameOf u.obj := by
    intro e
    exact htarget (Prod.ext (hq.trans hn.nsOf.symm) (hpp.symm.trans e))
  have hlive : u.obj.deletionTimestamp = none := by
    simp only [joins, Bool.and_eq_true] at hj
    simpa using hj.1.1
  have hm : movesAway u.obj = true := decide_eq_true ⟨hpp ▸ hne, hne'⟩
  have hd : departs u.obj = true := by simp [departs, hlive, hj, hm]
  have hold : q = oldKey u.obj :=
    Prod.ext (hq.trans hn.nsOf.symm) hpp.symm
  -- the recorded prefix is the one that was taken out
  rw [if_pos ⟨hd, hold⟩] at hr
  rw [keptRoutes] at hr
  have hpne' : ¬ prevRoute u.obj = "" := by
    intro e
    exact hpne (by rw [hfirst, ← hpr, e])
  rw [if_neg hpne'] at hr
  have hfilter := (List.mem_filter.mp hr).2
  simp [hasPrefix, hfirst, hpr] at hfilter

/-- After a reconcile that returns nil, what routes to the CR's service is in
    the target, under the prefix of the spec. -/
theorem routes_reconciled (h : Tracked c k) (hk : c.crs k = some u)
    (hj : joins u.obj = true) (hnil : outcomeOf c k = .nil) {q : Key}
    (hq : q.1 = k.1) {r : Json}
    (hr : r ∈ routesAt (content (reconcileNow c k).proxies) q)
    (hp : pointsTo (svcNameOf k.2) r = true) :
    q = targetKey u.obj ∧ firstPrefix r = some (prefixOf u.obj) := by
  obtain ⟨m, hm⟩ := exists_merge_of_nil h.wellFormed hk hj hnil
  rw [reconcileNow_proxies hk, proxiesAfter_eq, joinProxies, if_pos hj,
    routesAt_installProxies q hm] at hr
  by_cases ht : q = targetKey u.obj
  · rw [if_pos ht] at hr
    refine ⟨ht, ?_⟩
    rcases mem_upsertRoute hr with hr | hr
    · rw [hr, firstPrefix_routeFor]
    · have hrs := (mergeBase_sublist u.obj _).subset hr
      obtain ⟨-, hmem⟩ := routes_departed h hk hj hq hrs hp
      obtain ⟨⟨hproxy, p, hfirst, hroute⟩, -, hpne⟩ :=
        h.routes u hk q hq r hmem hp
      have hpp : prevProxy u.obj = proxyNameOf u.obj :=
        (annGet_of_lookup hproxy).trans (congrArg Prod.snd ht)
      have hpr : prevRoute u.obj = p := annGet_of_lookup hroute
      rw [hfirst]
      refine congrArg some ?_
      by_contra hne
      -- a changed prefix in the same proxy was taken out first
      have hcond : prevProxy u.obj = proxyNameOf u.obj
          ∧ prevRoute u.obj ≠ "" ∧ prevRoute u.obj ≠ prefixOf u.obj := by
        refine ⟨hpp, ?_, ?_⟩
        · intro e
          exact hpne (by rw [hfirst, ← hpr, e])
        · rw [hpr]
          exact hne
      rw [mergeBase] at hr
      rw [if_pos hcond] at hr
      have hfilter := (List.mem_filter.mp hr).2
      simp [hasPrefix, hfirst, hpr] at hfilter
  · rw [if_neg ht] at hr
    exact absurd (routes_departed h hk hj hq hr hp).1 ht

/-- The reconcile has installed the route of the CR. -/
theorem routeFor_installed (h : WellFormed c) (hk : c.crs k = some u)
    (hj : joins u.obj = true) (hnil : outcomeOf c k = .nil) :
    routeFor u.obj
      ∈ routesAt (content (reconcileNow c k).proxies) (targetKey u.obj) := by
  obtain ⟨m, hm⟩ := exists_merge_of_nil h hk hj hnil
  rw [reconcileNow_proxies hk, proxiesAfter_eq, joinProxies, if_pos hj,
    routesAt_installProxies _ hm, if_pos rfl]
  exact route_mem_upsertRoute _ _ _

/-- The CR that a reconcile stores. -/
theorem cr_reconciled (h : Tracked c k) (hk : c.crs k = some u)
    (hlive : u.obj.deletionTimestamp = none) (hs : Servable u.obj) :
    ∃ v, (reconcileNow c k).crs k = some v
      ∧ v.obj = crAfter u.obj (content c.deployments (k.1, deplNameOf k.2))
        (content c.proxies) := by
  have hpos : ¬ u.obj.multiplicador ≤ 0 := by
    have := hs.1
    omega
  have hc := reconcileNow_cr h.wellFormed hk
  rw [crNext, hlive, Option.isSome_none, if_neg (by decide), if_neg hpos] at hc
  exact Option.map_eq_some_iff.mp hc

/-- **ONE RECONCILE**: in a tracked state, the record is right after a
    reconcile that returns nil exactly when it could land or was right. -/
theorem accurate_reconcile (h : Tracked c k) (hnil : outcomeOf c k = .nil) :
    Accurate (reconcileNow c k) k ↔ RecordLands c k := by
  obtain ⟨u, hk, hlive, hs⟩ := h.cr
  have hn := h.wellFormed.stored k u hk
  have hj := joins_of_servable hlive hs
  obtain ⟨v, hv, hobj⟩ := cr_reconciled h hk hlive hs
  obtain ⟨m, hm⟩ := exists_merge_of_nil h.wellFormed hk hj hnil
  rw [departProxies_of_joins hj] at hm
  have hiff : namesTarget u.obj v.obj ↔ _ := hobj ▸ namesTarget_crAfter hs.2 hm
  have hdep : content c.deployments (k.1, deplNameOf k.2) ≠ none
      ↔ c.deployments (k.1, deplNameOf k.2) ≠ none := by
    simp [content]
  have hlands : RecordLands c k ↔ namesTarget u.obj v.obj := by
    rw [hiff, hdep]
    constructor
    · intro hl
      exact hl u hk
    · intro hl w hw
      rw [← Option.some.inj (hk.symm.trans hw)]
      exact hl
  rw [hlands]
  constructor
  · intro hacc
    have hroute := routeFor_installed h.wellFormed hk hj hnil
    obtain ⟨hproxy, p, hfirst, hrec⟩ := hacc v hv (targetKey u.obj) hn.nsOf _
      hroute (by simp [hn.name])
    rw [firstPrefix_routeFor] at hfirst
    exact ⟨hproxy, hrec.trans hfirst.symm⟩
  · rintro ⟨hproxy, hroute⟩ w hw q hq r hr hp
    rw [← Option.some.inj (hv.symm.trans hw)]
    obtain ⟨ht, hfirst⟩ := routes_reconciled h hk hj hnil hq hr hp
    refine ⟨?_, prefixOf u.obj, hfirst, hroute⟩
    rw [ht]
    exact hproxy

/-- A name is never empty. -/
theorem proxyNameOf_ne (hn : Stored k u.obj) : proxyNameOf u.obj ≠ "" := by
  rw [proxyNameOf]
  split
  · rw [hn.name]
    exact hn.named
  · intro e
    have hl := congrArg String.length e
    simp [vhostName] at hl

/-- Every reconcile that satisfies the condition keeps the routes tracked,
    also one that panics. -/
theorem tracked_reconcile (h : Tracked c k) (hl : RecordLands c k) :
    Tracked (reconcileNow c k) k := by
  obtain ⟨u, hk, hlive, hs⟩ := h.cr
  have hn := h.wellFormed.stored k u hk
  have hj := joins_of_servable hlive hs
  obtain ⟨v, hv, hobj⟩ := cr_reconciled h hk hlive hs
  obtain ⟨hspec, hdel⟩ := crAfter_keeps u.obj
    (content c.deployments (k.1, deplNameOf k.2)) (content c.proxies)
  rw [← hobj] at hspec hdel
  refine ⟨wellFormed_reconcileNow h.wellFormed,
    ⟨v, hv, hdel.trans hlive, ?_⟩, ?_⟩
  · simpa [Servable, Multiplicador.multiplicador, Multiplicador.ruta,
      getIntField, getStringField, hspec] using hs
  intro w hw q hq r hr hp
  cases hout : outcomeOf c k with
  | nil =>
      have hacc := (accurate_reconcile h hout).mpr hl
      obtain ⟨ht, hfirst⟩ := routes_reconciled h hk hj hout hq hr hp
      refine ⟨hacc w hw q hq r hr hp, ?_, ?_⟩
      · rw [ht]
        exact proxyNameOf_ne hn
      · rw [hfirst]
        exact fun e => prefixOf_ne u.obj (Option.some.inj e)
  | error e =>
      rw [outcomeOf_of_some h.wellFormed hk] at hout
      split at hout <;> exact absurd hout (by simp)
  | panic =>
      rw [outcomeOf_of_some h.wellFormed hk] at hout
      split at hout
      · rename_i hpan
        have hm : mergeContent u.obj (leaveProxies u.obj (content c.proxies)
            (targetKey u.obj)) = none := by
          have hp' := hpan.2.2
          simp only [panics, decide_eq_true_eq] at hp'
          exact hp'.2
        have hm' := hm
        rw [← departProxies_of_joins hj] at hm'
        rw [reconcileNow_proxies hk, proxiesAfter_eq, joinProxies, if_pos hj,
          installProxies_panic hm'] at hr
        obtain ⟨-, hmem⟩ := routes_departed h hk hj hq hr hp
        obtain ⟨⟨hproxy, p, hfirst, hroute⟩, hne⟩ :=
          h.routes u hk q hq r hmem hp
        have hw' : w.obj = crAfter u.obj
            (content c.deployments (k.1, deplNameOf k.2))
            (content c.proxies) := by
          rw [← Option.some.inj (hv.symm.trans hw)]
          exact hobj
        have hlook : ∀ key : String, key ≠ annValid → key ≠ annMultiplicador →
            w.obj.ann.lookup key = u.obj.ann.lookup key := by
          intro key h₁ h₂
          rw [hw']
          exact record_of_panic hm h₁ h₂
        refine ⟨⟨?_, p, hfirst, ?_⟩, hne⟩
        · rw [hlook annProxy (by decide) (by decide)]
          exact hproxy
        · rw [hlook annProxyRoute (by decide) (by decide)]
          exact hroute
      · exact absurd hout (by simp)

/-- An edit of the spec leaves the record and the routes. -/
theorem tracked_edit (h : Tracked c k) {spec : Option Json}
    (ha : Asked c k (.edit spec)) : Tracked (editSpec c k spec) k := by
  obtain ⟨u, hk, hlive, hs⟩ := h.cr
  obtain ⟨v, hv, hobj⟩ :=
    Option.map_eq_some_iff.mp (content_editSpec hk hlive)
  refine ⟨wellFormed_editCR h.wellFormed k _, ⟨v, hv, ?_, ?_⟩, ?_⟩
  · rw [hobj]
    exact hlive
  · rw [hobj]
    exact ha u hk
  · intro w hw q hq r hr hp
    rw [editSpec, editCR_proxies] at hr
    obtain ⟨⟨hproxy, p, hfirst, hroute⟩, hne⟩ := h.routes u hk q hq r hr hp
    rw [← Option.some.inj (hv.symm.trans hw), hobj]
    exact ⟨⟨hproxy, p, hfirst, hroute⟩, hne⟩

end Step

/-- Every state of a run whose reconciles satisfy the condition is tracked. -/
theorem tracked_of_turns {c₀ c : Cluster} {k : Key} (h₀ : Unserved c₀ k)
    (h : Turns k (Lands k) c₀ c) : Tracked c k := by
  induction h with
  | refl => exact h₀.tracked
  | tail _ ht ih =>
      obtain ⟨t, hasked, hok, rfl⟩ := ht
      cases t with
      | edit spec => exact tracked_edit ih hasked
      | reconcile => exact tracked_reconcile ih hok

/-- **BOOKKEEPING**: along a run whose reconciles all found the CR in a state
    in which the record could land, the next reconcile that returns nil leaves
    an accurate record exactly when it finds the CR in such a state too. -/
theorem accurate_iff_recordLands {c₀ c : Cluster} {k : Key}
    (h₀ : Unserved c₀ k) (h : Turns k (Lands k) c₀ c)
    (hnil : outcomeOf c k = .nil) :
    Accurate (reconcileNow c k) k ↔ RecordLands c k :=
  accurate_reconcile (tracked_of_turns h₀ h) hnil

/-! ## The first reconcile of a CR leaves no record -/

/-- A CR as a user creates it. -/
def created : Multiplicador where
  ns := "default"
  name := "web"
  uid := "uid-web"
  gvk := defaultGVK
  deletionTimestamp := none
  annotations := none
  finalizers := []
  spec := some (.obj [("multiplicador", .int 3), ("host", .str "a.com"),
    ("ruta", .str "calc")])
  status := none

/-- Its key. -/
def createdKey : Key := ("default", "web")

/-- A cluster that holds nothing else. -/
def firstSeen : Cluster := clusterOf [(createdKey, ⟨created, 1⟩)] [] [] 1

theorem unserved_firstSeen : Unserved firstSeen createdKey := by
  refine ⟨wellFormed_clusterOf (by decide) (by decide) (by decide),
    ⟨⟨created, 1⟩, rfl, rfl, by decide, by decide⟩, ?_⟩
  intro q _ r hr
  exact absurd hr List.not_mem_nil

/-- The annotations of the spec are written first, so the record is refused:
    the route is there and the stored CR does not say where. -/
theorem not_accurate_firstSeen :
    ¬ ∀ (c₀ c : Cluster) (k : Key), Unserved c₀ k →
      Turns k (fun _ _ => True) c₀ c → outcomeOf c k = .nil →
      Accurate (reconcileNow c k) k := by
  intro h
  have hacc := h firstSeen firstSeen createdKey unserved_firstSeen .refl
    (by decide)
  have hroute : routeFor created
      ∈ routesAt (content (reconcileNow firstSeen createdKey).proxies)
        ("default", "vhost-a-com") := by decide
  have hnone : ((reconcileNow firstSeen createdKey).crs createdKey).map
      (fun v => v.obj.ann.lookup annProxy) = some none := by decide
  obtain ⟨v, hv, hlook⟩ := Option.map_eq_some_iff.mp hnone
  have hrec := (hacc v hv ("default", "vhost-a-com") rfl _ hroute
    (by decide)).proxy
  rw [hlook] at hrec
  exact absurd hrec (by simp)

/-- The CR with the annotations of its spec, and its Deployment. -/
def secondSeen : Cluster :=
  clusterOf [(createdKey, ⟨annotated created, 2⟩)]
    [(("default", "web-multiplicador"), ⟨newDeployment created, 1⟩)] [] 2

theorem unserved_secondSeen : Unserved secondSeen createdKey := by
  refine ⟨wellFormed_clusterOf (by decide) (by decide) (by decide),
    ⟨⟨annotated created, 2⟩, rfl, rfl, by decide, by decide⟩, ?_⟩
  intro q _ r hr
  exact absurd hr List.not_mem_nil

/-- There the record lands. -/
theorem accurate_secondSeen :
    Accurate (reconcileNow secondSeen createdKey) createdKey := by
  refine (accurate_iff_recordLands unserved_secondSeen .refl
    (by decide)).mpr ?_
  intro v hv
  have hv' : (⟨annotated created, 2⟩ : Versioned Multiplicador) = v :=
    Option.some.inj hv
  rw [← hv']
  exact Or.inl ⟨by decide, Or.inl (by decide)⟩

end Bookkeeping
