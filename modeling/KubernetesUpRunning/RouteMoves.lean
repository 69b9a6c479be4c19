import KubernetesUpRunning.ClusterRuns
import KubernetesUpRunning.Idempotence

/-! # A spec change moves the route

    The record of a CR names the only proxy and prefix that hold its route and
    its owner entry, or there is none and no record.  A user writes any new
    spec and the CR is reconciled once.  This file says exactly when the route
    has then moved whole: it is in the proxy and under the prefix of the new
    spec and nowhere else, or nowhere when the new spec asks for none. -/

namespace RouteMoves

open ApiServer ClusterRuns GoJson Idempotence KubeObjects ProxyShape ProxyView
open Reconcile ReconcileEffect ReconcileRun ServerSteps VersionedStore

/-- The CR has an owner entry in the proxy. -/
def OwnsAt (u : Multiplicador) (P : Key → Option Fields) (q : Key) : Prop :=
  ∃ e ∈ ownersAt P q, ownedBy u.uid e = true

/-- The routes of the proxy that point to the CR's service. -/
def ownRoutes (u : Multiplicador) (P : Key → Option Fields) (q : Key) :
    List Json :=
  (routesAt P q).filter (pointsTo (svcNameOf u.name))

/-- The recorded proxy and prefix are the only ones that hold a route to the
    CR's service, and that proxy the only one with its owner entry. -/
structure HeldAtRecord (u : Multiplicador) (P : Key → Option Fields) :
    Prop where
  proxy : prevProxy u ≠ ""
  route : prevRoute u ≠ ""
  routed : ownRoutes u P (oldKey u) ≠ []
  routes : ∀ q, q.1 = nsOf u → ∀ r ∈ ownRoutes u P q,
    q = oldKey u ∧ firstPrefix r = some (prevRoute u)
  owned : OwnsAt u P (oldKey u)
  owners : ∀ q, OwnsAt u P q → q = oldKey u

/-- No proxy routes to the CR's service or has its owner entry. -/
structure Nowhere (u : Multiplicador) (P : Key → Option Fields) : Prop where
  routes : ∀ q, q.1 = nsOf u → ownRoutes u P q = []
  owners : ∀ q, ¬ OwnsAt u P q

/-- The recorded annotations are accurate. -/
def AccurateRecord (u : Multiplicador) (P : Key → Option Fields) : Prop :=
  HeldAtRecord u P
    ∨ (prevProxy u = "" ∧ prevRoute u = "" ∧ Nowhere u P)

/-- One route to the CR's service in the whole namespace, where the spec wants
    it, and one proxy with its owner entry, the same. -/
structure Placed (u : Multiplicador) (P : Key → Option Fields) : Prop where
  route : ∃ r, ownRoutes u P (targetKey u) = [r]
    ∧ firstPrefix r = some (prefixOf u)
  routes : ∀ q, q.1 = nsOf u → q ≠ targetKey u → ownRoutes u P q = []
  owned : OwnsAt u P (targetKey u)
  owners : ∀ q, OwnsAt u P q → q = targetKey u

/-- The route has moved to where the spec wants it. -/
def Moved (u : Multiplicador) (P : Key → Option Fields) : Prop :=
  if u.ruta = "" then Nowhere u P else Placed u P

/-- No route to the service lies behind another route under the prefix. -/
def Foremost (p svc : String) (rs : List Json) : Prop :=
  rs.Pairwise fun r r' => hasPrefix p r = true → pointsTo svc r' = false

/-- What the reconcile must find: no record when the spec asks for no route;
    and when the route stays where it is, no route to the service behind
    another one under its prefix. -/
def MovesWhole (u : Multiplicador) (P : Key → Option Fields) : Prop :=
  if u.ruta = "" then prevProxy u = ""
  else prevProxy u = proxyNameOf u → prevRoute u = prefixOf u →
    Foremost (prefixOf u) (svcNameOf u.name) (routesAt P (targetKey u))

/-! ## Replacing the first route under a prefix -/

/-- When all routes to the service are under the prefix, one is left exactly
    when none lies behind the first route under the prefix. -/
theorem filter_upsertRoute {p svc : String} {route : Json}
    (hroute : pointsTo svc route = true) {rs : List Json}
    (h : ∀ r ∈ rs, pointsTo svc r = true → hasPrefix p r = true) :
    (upsertRoute p route rs).filter (pointsTo svc) = [route]
      ↔ Foremost p svc rs := by
  induction rs with
  | nil =>
      rw [upsertRoute, List.filter_cons, hroute]
      simp [Foremost]
  | cons r rest ih =>
      rw [upsertRoute, Foremost, List.pairwise_cons]
      by_cases hr : hasPrefix p r = true
      · rw [if_pos hr, List.filter_cons, hroute, if_pos rfl]
        constructor
        · intro he
          have hnone := List.filter_eq_nil_iff.mp (List.cons.inj he).2
          refine ⟨fun r' hr' _ => by simpa using hnone r' hr', ?_⟩
          refine List.pairwise_of_forall_mem_list fun a _ b hb _ => ?_
          simpa using hnone b hb
        · rintro ⟨hrest, -⟩
          rw [List.filter_eq_nil_iff.mpr fun r' hr' => by
            simp [hrest r' hr' hr]]
      · have hnot : pointsTo svc r = false := by
          by_contra hp
          exact hr (h r List.mem_cons_self (by simpa using hp))
        rw [if_neg hr, List.filter_cons, hnot, if_neg (by simp),
          ih fun r' hr' => h r' (List.mem_cons_of_mem _ hr')]
        constructor
        · exact fun hf => ⟨fun _ _ e => absurd e hr, hf⟩
        · exact fun hf => hf.2

theorem foremost_of_none {p svc : String} {rs : List Json}
    (h : ∀ r ∈ rs, pointsTo svc r = false) : Foremost p svc rs :=
  List.pairwise_of_forall_mem_list fun _ _ r hr _ => h r hr

/-! ## Where the routes and the owner entry are after a reconcile -/

section Move

variable {u : Multiplicador} {P : Key → Option Fields}

/-- Where there is a route, the record names it. -/
theorem AccurateRecord.held (h : AccurateRecord u P) {q : Key}
    (hq : q.1 = nsOf u) {r : Json} (hr : r ∈ ownRoutes u P q) :
    HeldAtRecord u P := by
  rcases h with h | ⟨-, -, hno⟩
  · exact h
  · rw [hno.routes q hq] at hr
    exact absurd hr List.not_mem_nil

/-- A CR that is served and recorded elsewhere departs. -/
theorem departs_of_ne (hj : joins u = true) (hp : prevProxy u ≠ "")
    (hne : oldKey u ≠ targetKey u) : departs u = true := by
  have hlive : u.deletionTimestamp = none := by
    simp only [joins, Bool.and_eq_true] at hj
    simpa using hj.1.1
  have hm : movesAway u = true := by
    refine decide_eq_true ⟨hp, fun e => hne ?_⟩
    rw [oldKey, targetKey, e]
  simp [departs, hlive, hj, hm]

/-- Outside the target nothing is left of the CR's routes. -/
theorem ownRoutes_departProxies (h : AccurateRecord u P)
    (hj : joins u = true) {q : Key} (hq : q.1 = nsOf u)
    (hne : q ≠ targetKey u) : ownRoutes u (departProxies u P) q = [] := by
  rw [List.eq_nil_iff_forall_not_mem]
  intro r hr
  obtain ⟨hmem, hp⟩ := List.mem_filter.mp hr
  rw [routesAt_departProxies] at hmem
  have hmem' : r ∈ routesAt P q := by
    split at hmem
    · exact (keptRoutes_sublist _ _).subset hmem
    · exact hmem
  have hown : r ∈ ownRoutes u P q := List.mem_filter.mpr ⟨hmem', hp⟩
  have hheld := h.held hq hown
  obtain ⟨hold, hfirst⟩ := hheld.routes q hq r hown
  have hd := departs_of_ne hj hheld.proxy (hold ▸ hne)
  -- the recorded prefix has been taken out
  rw [if_pos ⟨hd, hold⟩, keptRoutes, if_neg hheld.route] at hmem
  have hkept := (List.mem_filter.mp hmem).2
  simp [hasPrefix, hfirst] at hkept

/-- Nor of its owner entry. -/
theorem not_ownsAt_departProxies (h : AccurateRecord u P)
    (hj : joins u = true) {q : Key} (hne : q ≠ targetKey u) :
    ¬ OwnsAt u (departProxies u P) q := by
  rintro ⟨e, he, hown⟩
  rw [ownersAt_departProxies] at he
  have hmem : e ∈ ownersAt P q := by
    split at he
    · exact (List.mem_filter.mp he).1
    · exact he
  rcases h with hheld | ⟨-, -, hno⟩
  · have hold := hheld.owners q ⟨e, hmem, hown⟩
    have hd := departs_of_ne hj hheld.proxy (hold ▸ hne)
    rw [if_pos ⟨hd, hold⟩] at he
    have hkept := (List.mem_filter.mp he).2
    simp [hown] at hkept
  · exact hno.owners q ⟨e, hmem, hown⟩

/-- The target is not the proxy that is left. -/
theorem routesAt_target_departProxies (hj : joins u = true) :
    routesAt (departProxies u P) (targetKey u) = routesAt P (targetKey u) := by
  rw [routesAt_departProxies, if_neg]
  rintro ⟨hd, he⟩
  exact oldKey_ne_targetKey hj hd he.symm

/-- The CR's routes that a merge starts from are under the new prefix. -/
theorem hasPrefix_mergeBase (h : AccurateRecord u P) {r : Json}
    (hr : r ∈ mergeBase u (routesAt P (targetKey u)))
    (hp : pointsTo (svcNameOf u.name) r = true) :
    hasPrefix (prefixOf u) r = true ∧ prevProxy u = proxyNameOf u
      ∧ prevRoute u = prefixOf u := by
  have hmem := (mergeBase_sublist u _).subset hr
  have hown : r ∈ ownRoutes u P (targetKey u) :=
    List.mem_filter.mpr ⟨hmem, hp⟩
  have hheld := h.held rfl hown
  obtain ⟨hold, hfirst⟩ := hheld.routes _ rfl r hown
  have hproxy : prevProxy u = proxyNameOf u := congrArg Prod.snd hold.symm
  have hroute : prevRoute u = prefixOf u := by
    by_contra hne
    -- an old prefix in the same proxy has been taken out first
    rw [mergeBase, if_pos ⟨hproxy, hheld.route, hne⟩] at hr
    have hkept := (List.mem_filter.mp hr).2
    simp [hasPrefix, hfirst] at hkept
  refine ⟨?_, hproxy, hroute⟩
  simp [hasPrefix, hfirst, hroute]

/-- **THE TARGET**: after the merge it holds one route to the service exactly
    when the move is whole. -/
theorem ownRoutes_target (h : AccurateRecord u P) :
    (mergedRoutes u (routesAt P (targetKey u))).filter
        (pointsTo (svcNameOf u.name)) = [routeFor u]
      ↔ (prevProxy u = proxyNameOf u → prevRoute u = prefixOf u →
        Foremost (prefixOf u) (svcNameOf u.name)
          (routesAt P (targetKey u))) := by
  rw [mergedRoutes, filter_upsertRoute (by simp)
    fun r hr hp => (hasPrefix_mergeBase h hr hp).1]
  by_cases hstay : prevProxy u = proxyNameOf u ∧ prevRoute u = prefixOf u
  · have hbase : mergeBase u (routesAt P (targetKey u))
        = routesAt P (targetKey u) := by
      rw [mergeBase, if_neg fun hc => hc.2.2 hstay.2]
    rw [hbase]
    exact ⟨fun hf _ _ => hf, fun hf => hf hstay.1 hstay.2⟩
  · have hnone : ∀ r ∈ mergeBase u (routesAt P (targetKey u)),
        pointsTo (svcNameOf u.name) r = false := by
      intro r hr
      by_contra hp
      exact hstay (hasPrefix_mergeBase h hr (by simpa using hp)).2
    constructor
    · exact fun _ hproxy hroute => absurd ⟨hproxy, hroute⟩ hstay
    · exact fun _ => foremost_of_none hnone

/-- After a create or a merge that does not panic. -/
theorem placed_iff (h : AccurateRecord u P) (hj : joins u = true)
    {m : Fields} (hm : mergeContent u (departProxies u P (targetKey u))
      = some m) :
    Placed u (installProxies u (departProxies u P))
      ↔ (prevProxy u = proxyNameOf u → prevRoute u = prefixOf u →
        Foremost (prefixOf u) (svcNameOf u.name)
          (routesAt P (targetKey u))) := by
  have htarget : ownRoutes u (installProxies u (departProxies u P))
      (targetKey u) = (mergedRoutes u (routesAt P (targetKey u))).filter
        (pointsTo (svcNameOf u.name)) := by
    rw [ownRoutes, routesAt_installProxies _ hm, if_pos rfl,
      routesAt_target_departProxies hj]
  have hmine : routeFor u ∈ ownRoutes u
      (installProxies u (departProxies u P)) (targetKey u) := by
    rw [htarget]
    exact List.mem_filter.mpr ⟨route_mem_upsertRoute _ _ _, by simp⟩
  rw [← ownRoutes_target h, ← htarget]
  constructor
  · intro hp
    obtain ⟨r, hr, -⟩ := hp.route
    rw [hr] at hmine ⊢
    rw [List.mem_singleton.mp hmine]
  · intro hone
    refine ⟨⟨routeFor u, hone, firstPrefix_routeFor u⟩, ?_, ?_, ?_⟩
    · intro q hq hne
      rw [ownRoutes, routesAt_installProxies q hm, if_neg hne]
      exact ownRoutes_departProxies h hj hq hne
    · rw [OwnsAt]
      rw [ownersAt_installProxies _ hm, if_pos rfl]
      exact List.any_eq_true.mp (owned_mergedOwners u _)
    · intro q hq
      by_contra hne
      rw [OwnsAt] at hq
      rw [ownersAt_installProxies q hm, if_neg hne] at hq
      exact not_ownsAt_departProxies h hj hne hq

/-- A CR without a ruta leaves the proxies as they are. -/
theorem nowhere_iff (h : AccurateRecord u P) :
    Nowhere u P ↔ prevProxy u = "" := by
  constructor
  · intro hno
    rcases h with hheld | ⟨hp, -, -⟩
    · exact absurd (hno.routes (oldKey u) rfl) hheld.routed
    · exact hp
  · intro hp
    rcases h with hheld | ⟨-, -, hno⟩
    · exact absurd hp hheld.proxy
    · exact hno

end Move

/-! ## One reconcile after an edit -/

section Reconcile

variable {c : Cluster} {k : Key} {u : Versioned Multiplicador}

/-- **ONE RECONCILE** of a valid CR with an accurate record. -/
theorem moved_reconcile (h : WellFormed c) (hk : c.crs k = some u)
    (hlive : u.obj.deletionTimestamp = none)
    (hpos : 0 < u.obj.multiplicador)
    (hacc : AccurateRecord u.obj (content c.proxies))
    (hnil : outcomeOf c k = .nil) :
    Moved u.obj (content (reconcileNow c k).proxies)
      ↔ MovesWhole u.obj (content c.proxies) := by
  rw [reconcileNow_proxies hk, proxiesAfter_eq]
  rw [Moved, MovesWhole]
  by_cases hr : u.obj.ruta = ""
  · have hj : joins u.obj = false := by simp [joins, hr]
    have hd : departs u.obj = false := by simp [departs, hlive, hj]
    have hsame : joinProxies u.obj (departProxies u.obj (content c.proxies))
        = content c.proxies := by
      simp [joinProxies, departProxies, hj, hd]
    rw [if_pos hr, if_pos hr, hsame]
    exact nowhere_iff hacc
  · have hj : joins u.obj = true := by simp [joins, hlive, hpos, hr]
    obtain ⟨m, hm⟩ := exists_merge_of_nil h hk hj hnil
    rw [if_neg hr, if_neg hr, joinProxies, if_pos hj]
    exact placed_iff hacc hj hm

end Reconcile

/-- The CR with another spec. -/
def respec (u : Multiplicador) (spec : Option Json) : Multiplicador :=
  { u with spec := spec }

/-- An accurate record is accurate under any spec. -/
theorem accurateRecord_respec {u : Multiplicador} {P : Key → Option Fields}
    (h : AccurateRecord u P) (spec : Option Json) :
    AccurateRecord (respec u spec) P := by
  rcases h with ⟨hp, hr, hrouted, hroutes, howned, howners⟩ | ⟨hp, hr, hno⟩
  · exact Or.inl ⟨hp, hr, hrouted, hroutes, howned, howners⟩
  · exact Or.inr ⟨hp, hr, hno.routes, hno.owners⟩

/-- **ROUTE MOVES**: a user writes any spec with a positive multiplicador into
    a live CR whose record is accurate.  The next reconcile that returns nil
    moves the route whole exactly when the condition holds. -/
theorem moved_iff_movesWhole {c : Cluster} {k : Key}
    {u : Versioned Multiplicador} {spec : Option Json} (h : WellFormed c)
    (hk : c.crs k = some u) (hlive : u.obj.deletionTimestamp = none)
    (hacc : AccurateRecord u.obj (content c.proxies))
    (hpos : 0 < (respec u.obj spec).multiplicador)
    (hnil : outcomeOf (editSpec c k spec) k = .nil) :
    Moved (respec u.obj spec)
        (content (reconcileNow (editSpec c k spec) k).proxies)
      ↔ MovesWhole (respec u.obj spec) (content c.proxies) := by
  obtain ⟨v, hv, hobj⟩ :=
    Option.map_eq_some_iff.mp (show content (editSpec c k spec).crs k = _ from
      content_editSpec hk hlive)
  have hproxies : (editSpec c k spec).proxies = c.proxies :=
    editCR_proxies c k _
  have hobj' : v.obj = respec u.obj spec := hobj
  have hwf : WellFormed (editSpec c k spec) := wellFormed_editCR h k _
  have hacc' : AccurateRecord v.obj (content (editSpec c k spec).proxies) := by
    rw [hobj', hproxies]
    exact accurateRecord_respec hacc spec
  rw [← hobj'] at hpos ⊢
  rw [← hproxies]
  refine moved_reconcile hwf hv ?_ hpos hacc' hnil
  rw [hobj']
  exact hlive

/-! ## A CR that is not to be served any more -/

/-- A CR served as a.com/calc, with its record. -/
def servedCR : Multiplicador := recorded (newCR "web" "a.com" "calc")

/-- The cluster it is served in. -/
def servedAt : Cluster :=
  clusterOf [(("default", "web"), ⟨servedCR, 1⟩)] []
    [(("default", "vhost-a-com"), ⟨newProxy servedCR, 1⟩)] 1

/-- The spec without a ruta. -/
def withdrawn : Option Json :=
  some (.obj [("multiplicador", .int 3), ("host", .str "a.com")])

theorem wellFormed_servedAt : WellFormed servedAt :=
  wellFormed_clusterOf (by decide) (by decide) (by decide)

theorem proxy_of_servedAt {q : Key} {o : Fields}
    (h : content servedAt.proxies q = some o) :
    q = ("default", "vhost-a-com") ∧ o = newProxy servedCR := by
  obtain ⟨v, hv, rfl⟩ := Option.map_eq_some_iff.mp h
  have hmem : (q, v) ∈ [(("default", "vhost-a-com"),
      (⟨newProxy servedCR, 1⟩ : Versioned Fields))] := mem_of_storeOf hv
  obtain ⟨hq, hv⟩ := Prod.mk.inj (List.mem_singleton.mp hmem)
  rw [hv]
  exact ⟨hq, rfl⟩

theorem accurate_servedAt :
    AccurateRecord servedCR (content servedAt.proxies) := by
  have hroutes : ∀ q, ∀ r ∈ routesAt (content servedAt.proxies) q,
      q = oldKey servedCR ∧ r = routeFor servedCR := by
    intro q r hr
    rw [routesAt] at hr
    cases ho : content servedAt.proxies q with
    | none =>
        rw [ho] at hr
        exact absurd hr List.not_mem_nil
    | some o =>
        obtain ⟨hq, rfl⟩ := proxy_of_servedAt ho
        rw [ho] at hr
        refine ⟨hq, List.mem_singleton.mp ?_⟩
        simpa using hr
  refine Or.inl ⟨by decide, by decide, by decide, ?_, ?_, ?_⟩
  · intro q _ r hr
    obtain ⟨hq, rfl⟩ := hroutes q r (List.mem_filter.mp hr).1
    exact ⟨hq, by decide⟩
  · exact ⟨ownerFor servedCR, by decide, by decide⟩
  · rintro q ⟨e, he, -⟩
    rw [ownersAt] at he
    cases ho : content servedAt.proxies q with
    | none =>
        rw [ho] at he
        exact absurd he List.not_mem_nil
    | some o => exact (proxy_of_servedAt ho).1

/-- The early return leaves the route where it was. -/
theorem not_moved_withdrawn :
    ¬ ∀ (c : Cluster) (k : Key) (u : Versioned Multiplicador)
      (spec : Option Json), WellFormed c → c.crs k = some u →
      u.obj.deletionTimestamp = none →
      AccurateRecord u.obj (content c.proxies) →
      0 < (respec u.obj spec).multiplicador →
      outcomeOf (editSpec c k spec) k = .nil →
      Moved (respec u.obj spec)
        (content (reconcileNow (editSpec c k spec) k).proxies) := by
  intro h
  have hm := h servedAt ("default", "web") ⟨servedCR, 1⟩ withdrawn
    wellFormed_servedAt rfl rfl accurate_servedAt (by decide) (by decide)
  rw [Moved, if_pos (by decide)] at hm
  have hroutes := hm.routes ("default", "vhost-a-com") rfl
  have hne : ownRoutes (respec servedCR withdrawn)
      (content (reconcileNow (editSpec servedAt ("default", "web") withdrawn)
        ("default", "web")).proxies) ("default", "vhost-a-com") ≠ [] := by
    decide
  exact hne hroutes

/-- To another host and prefix it moves whole. -/
theorem moved_elsewhere :
    Moved (respec servedCR (specFor "b.com" "suma"))
      (content (reconcileNow (editSpec servedAt ("default", "web")
        (specFor "b.com" "suma")) ("default", "web")).proxies) := by
  refine (moved_iff_movesWhole (u := ⟨servedCR, 1⟩) wellFormed_servedAt rfl
    rfl accurate_servedAt (by decide) (by decide)).mpr ?_
  rw [MovesWhole, if_neg (by decide)]
  intro hproxy
  exact absurd hproxy (by decide)

end RouteMoves
