import KubernetesUpRunning.Neighbours
import KubernetesUpRunning.Unwinding

/-! # Namespaces stand alone

    The operator watches every namespace with one set of caches and one queue.
    A CR reads and writes only what is in its own namespace: the Deployment
    and the Service beside it, and the HTTPProxies that its spec and its own
    annotations name.  So the users of one namespace see, over any run, the
    objects they would see in a cluster of their own. -/

namespace Namespaces

open ApiServer ClusterRuns FixedPoint GoJson KubeObjects Neighbours Reconcile
open ReconcileEffect ReconcileRun ServerSteps Unwinding VersionedStore

/-! ## Contents, one namespace at a time -/

/-- The two contents agree in the namespace. -/
def AgreeIn {α : Type} (n : String) (P P' : Key → Option α) : Prop :=
  ∀ x, P (n, x) = P' (n, x)

section AgreeIn

variable {α : Type} {n : String} {P P' : Key → Option α} {k : Key}

theorem AgreeIn.at (h : AgreeIn n P P') (hk : k.1 = n) : P k = P' k := by
  subst hk
  exact h k.2

/-- The same write on both sides. -/
theorem AgreeIn.update (h : AgreeIn n P P') {y y' : Option α}
    (hy : k.1 = n → y = y') :
    AgreeIn n (Function.update P k y) (Function.update P' k y') := by
  intro x
  by_cases hk : (n, x) = k
  · subst hk
    rw [Function.update_self, Function.update_self, hy rfl]
  · rw [Function.update_of_ne hk, Function.update_of_ne hk]
    exact h x

/-- A write elsewhere. -/
theorem agreeIn_update (hk : k.1 ≠ n) (y : Option α) :
    AgreeIn n P (Function.update P k y) := by
  intro x
  have hx : (n, x) ≠ k := by
    rintro rfl
    exact hk rfl
  exact (Function.update_of_ne hx y P).symm

end AgreeIn

/-- The objects of the namespace, versions forgotten, are the same. -/
structure SameIn (n : String) (c c' : Cluster) : Prop where
  crs : AgreeIn n (content c.crs) (content c'.crs)
  deployments : AgreeIn n (content c.deployments) (content c'.deployments)
  services : AgreeIn n (content c.services) (content c'.services)
  proxies : AgreeIn n (content c.proxies) (content c'.proxies)

theorem sameIn_equivalence (n : String) : Equivalence (SameIn n) where
  refl _ := ⟨fun _ => rfl, fun _ => rfl, fun _ => rfl, fun _ => rfl⟩
  symm h := ⟨fun x => (h.crs x).symm, fun x => (h.deployments x).symm,
    fun x => (h.services x).symm, fun x => (h.proxies x).symm⟩
  trans h h' := ⟨fun x => (h.crs x).trans (h'.crs x),
    fun x => (h.deployments x).trans (h'.deployments x),
    fun x => (h.services x).trans (h'.services x),
    fun x => (h.proxies x).trans (h'.proxies x)⟩

/-! ## The HTTPProxies -/

section Proxies

variable {n : String} {u : Multiplicador} {P P' : Key → Option Fields}

theorem agreeIn_departProxies (h : AgreeIn n P P') :
    AgreeIn n (departProxies u P) (departProxies u P') := by
  rw [departProxies, departProxies]
  split
  · refine h.update fun hk => ?_
    rw [h.at hk]
  · exact h

theorem agreeIn_joinProxies (h : AgreeIn n P P') (hn : nsOf u = n) :
    AgreeIn n (joinProxies u P) (joinProxies u P') := by
  have htarget : P (nsOf u, proxyNameOf u) = P' (nsOf u, proxyNameOf u) :=
    h.at hn
  rw [joinProxies, joinProxies]
  split
  · cases hm : mergeContent u (P (nsOf u, proxyNameOf u)) with
    | none =>
        have hm' := hm
        rw [htarget] at hm'
        rw [installProxies_panic hm, installProxies_panic hm']
        exact h
    | some m =>
        have hm' := hm
        rw [htarget] at hm'
        rw [installProxies_ok hm, installProxies_ok hm']
        exact h.update fun _ => rfl
  · exact h

/-- A reconcile does the same to the proxies of its namespace. -/
theorem agreeIn_proxiesAfter (h : AgreeIn n P P') (hn : nsOf u = n) :
    AgreeIn n (proxiesAfter u P) (proxiesAfter u P') := by
  rw [proxiesAfter_eq, proxiesAfter_eq]
  exact agreeIn_joinProxies (agreeIn_departProxies h) hn

/-- It does nothing to the proxies of the others. -/
theorem agreeIn_proxiesAfter_of_ne (hn : nsOf u ≠ n) :
    AgreeIn n P (proxiesAfter u P) := by
  have hdepart : AgreeIn n P (departProxies u P) := by
    rw [departProxies]
    split
    · exact agreeIn_update hn _
    · exact fun _ => rfl
  rw [proxiesAfter_eq, joinProxies]
  split
  · cases hm : mergeContent u
      (departProxies u P (nsOf u, proxyNameOf u)) with
    | none =>
        rw [installProxies_panic hm]
        exact hdepart
    | some m =>
        rw [installProxies_ok hm]
        exact fun x => (hdepart x).trans
          (agreeIn_update (k := (nsOf u, proxyNameOf u)) hn _ x)
  · exact hdepart

end Proxies

/-! ## The CR -/

section CR

variable {u : Multiplicador} {P P' : Key → Option Fields}

/-- A reconcile looks at no proxy but its target before it merges. -/
theorem leaveProxies_agree (h : P (targetKey u) = P' (targetKey u)) :
    leaveProxies u P (nsOf u, proxyNameOf u)
      = leaveProxies u P' (nsOf u, proxyNameOf u) :=
  (leaveProxies_target u P).trans (h.trans (leaveProxies_target u P').symm)

theorem panics_agree (h : P (targetKey u) = P' (targetKey u)) :
    panics u P = panics u P' := by
  rw [panics, panics, leaveProxies_agree h]

/-- What it stores in the CR depends on that proxy and on the Deployment. -/
theorem crNext_agree (h : P (targetKey u) = P' (targetKey u))
    (dep : Option Deployment) : crNext u dep P = crNext u dep P' := by
  have hrecord : recordWrite u P u = recordWrite u P' u := by
    rw [recordWrite, recordWrite, leaveProxies_agree h]
  unfold crNext crAfter
  rw [hrecord, panics_agree h]

end CR

/-! ## Users and the garbage collector -/

section Everybody

variable (c : Cluster) (k : Key)

theorem content_createCR (u : Multiplicador) :
    content (createCR c k u).crs
      = Function.update (content c.crs) k
          (some ((content c.crs k).getD u)) := by
  rw [createCR]
  cases hk : c.crs k with
  | none =>
      rw [create, hk, content_of_none hk]
      exact content_write _ _ _ _
  | some v =>
      rw [create, hk, content_of_some hk, Option.getD_some,
        ← content_of_some hk, Function.update_eq_self]

theorem content_editCR (f : Multiplicador → Multiplicador) :
    content (editCR c k f).crs
      = Function.update (content c.crs) k
          ((content c.crs k).bind fun x => admitCR (f x) x) := by
  rw [editCR]
  cases hk : c.crs k with
  | none =>
      rw [content_of_none hk, Option.bind_none, ← content_of_none hk,
        Function.update_eq_self]
  | some v =>
      rw [content_of_some hk]
      exact content_write _ _ _ _

/-- What a deletion leaves of a CR. -/
def deleted (now : String) (x : Multiplicador) : Option Multiplicador :=
  if x.finalizers = [] then none
  else some { x with deletionTimestamp := some (x.deletionTimestamp.getD now) }

theorem content_deleteCR (now : String) :
    content (deleteCR c k now).crs
      = Function.update (content c.crs) k
          ((content c.crs k).bind (deleted now)) := by
  rw [deleteCR]
  cases hk : c.crs k with
  | none =>
      rw [content_of_none hk, Option.bind_none, ← content_of_none hk,
        Function.update_eq_self]
  | some v =>
      rw [content_of_some hk, Option.bind_some, deleted]
      dsimp only
      split
      · exact content_write _ _ _ _
      · exact content_write _ _ _ _

/-- What the garbage collector leaves of a proxy. -/
def collected (c : Cluster) (ns : String) (o : Fields) : Option Fields :=
  if ownersOf o = [] then some o
  else if (ownersOf o).all (dangling c ns) then none
  else some (dropDangling c ns o)

theorem content_collectProxy :
    content (collectProxy c k).proxies
      = Function.update (content c.proxies) k
          ((content c.proxies k).bind (collected c k.1)) := by
  rw [collectProxy]
  cases hk : c.proxies k with
  | none =>
      rw [content_of_none hk, Option.bind_none, ← content_of_none hk,
        Function.update_eq_self]
  | some v =>
      rw [content_of_some hk, Option.bind_some, collected]
      dsimp only
      split
      · rw [← content_of_some hk, Function.update_eq_self]
      · split
        · exact content_write _ _ _ _
        · exact content_write _ _ _ _

/-- The collector asks for CRs of the namespace alone. -/
theorem dangling_agree {c c' : Cluster} {n : String}
    (h : AgreeIn n (content c.crs) (content c'.crs)) :
    dangling c n = dangling c' n := by
  funext r
  rw [dangling, dangling]
  split
  · rename_i om hom
    split
    · rename_i kind name hkind hname
      have hx := h name
      cases hv : c.crs (n, name) with
      | none =>
          cases hv' : c'.crs (n, name) with
          | none => rfl
          | some v' =>
              rw [content_of_none hv, content_of_some hv'] at hx
              exact absurd hx (by simp)
      | some v =>
          cases hv' : c'.crs (n, name) with
          | none =>
              rw [content_of_some hv, content_of_none hv'] at hx
              exact absurd hx (by simp)
          | some v' =>
              rw [content_of_some hv, content_of_some hv'] at hx
              have hobj : v.obj = v'.obj := Option.some.inj hx
              dsimp only
              rw [hobj]
    · rfl
  · rfl

theorem collected_agree {c c' : Cluster} {n : String}
    (h : AgreeIn n (content c.crs) (content c'.crs)) :
    collected c n = collected c' n := by
  funext o
  unfold collected dropDangling
  rw [dangling_agree h]

end Everybody

/-! ## A complete reconcile -/

section Reconcile

variable {c c' : Cluster} {k : Key} {n : String}

theorem content_reconcileNow {u : Versioned Multiplicador} (h : WellFormed c)
    (hk : c.crs k = some u) :
    content (reconcileNow c k).crs
      = Function.update (content c.crs) k (crNext u.obj
          (content c.deployments (deploymentKey k)) (content c.proxies)) := by
  funext q
  by_cases hq : q = k
  · subst hq
    rw [Function.update_self]
    exact reconcileNow_cr h hk
  · rw [Function.update_of_ne hq, content, content,
      reconcileNow_crs_of_ne h hq]

/-- **ELSEWHERE**: a reconcile leaves the other namespaces as they are. -/
theorem sameIn_reconcileNow_of_ne (h : WellFormed c) (hk : k.1 ≠ n) :
    SameIn n c (reconcileNow c k) := by
  cases hu : c.crs k with
  | none =>
      rw [reconcileNow_of_none hu]
      exact (sameIn_equivalence n).refl c
  | some u =>
      have hns : nsOf u.obj ≠ n := by
        rw [(h.stored k u hu).nsOf]
        exact hk
      refine ⟨?_, ?_, ?_, ?_⟩
      · rw [content_reconcileNow h hu]
        exact agreeIn_update hk _
      · rw [reconcileNow_deployments h hu]
        split
        · exact agreeIn_update (k := deploymentKey k) hk _
        · exact fun _ => rfl
      · rw [reconcileNow_services h hu]
        split
        · exact agreeIn_update (k := serviceKey k) hk _
        · exact fun _ => rfl
      · rw [reconcileNow_proxies hu]
        exact agreeIn_proxiesAfter_of_ne hns

/-- The same CR is stored on both sides, or none. -/
theorem SameIn.stored {u : Versioned Multiplicador} (h : SameIn n c c')
    (hk : k.1 = n) (hu : c.crs k = some u) :
    ∃ u', c'.crs k = some u' ∧ u'.obj = u.obj := by
  have hc : content c'.crs k = some u.obj := by
    rw [← h.crs.at hk]
    exact content_of_some hu
  exact Option.map_eq_some_iff.mp hc

theorem SameIn.missing (h : SameIn n c c') (hk : k.1 = n)
    (hu : c.crs k = none) : c'.crs k = none := by
  have hc : content c'.crs k = none := by
    rw [← h.crs.at hk]
    exact content_of_none hu
  exact Option.map_eq_none_iff.mp hc

/-- **WITHIN**: a reconcile reads nothing of the other namespaces. -/
theorem sameIn_reconcileNow (hwf : WellFormed c) (hwf' : WellFormed c')
    (h : SameIn n c c') (hk : k.1 = n) :
    SameIn n (reconcileNow c k) (reconcileNow c' k) := by
  cases hu : c.crs k with
  | none =>
      rw [reconcileNow_of_none hu, reconcileNow_of_none (h.missing hk hu)]
      exact h
  | some u =>
      obtain ⟨u', hu', hobj⟩ := h.stored hk hu
      have hns : nsOf u.obj = n := (hwf.stored k u hu).nsOf.trans hk
      have hdep : content c.deployments (deploymentKey k)
          = content c'.deployments (deploymentKey k) := h.deployments.at hk
      have hsvc : content c.services (serviceKey k)
          = content c'.services (serviceKey k) := h.services.at hk
      refine ⟨?_, ?_, ?_, ?_⟩
      · rw [content_reconcileNow hwf hu, content_reconcileNow hwf' hu', hobj,
          hdep, crNext_agree (h.proxies.at hns)]
        exact h.crs.update fun _ => rfl
      · rw [reconcileNow_deployments hwf hu, reconcileNow_deployments hwf' hu',
          hobj, hdep]
        split
        · exact h.deployments.update fun _ => rfl
        · exact h.deployments
      · rw [reconcileNow_services hwf hu, reconcileNow_services hwf' hu',
          hobj, hsvc]
        split
        · exact h.services.update fun _ => rfl
        · exact h.services
      · rw [reconcileNow_proxies hu, reconcileNow_proxies hu', hobj]
        exact agreeIn_proxiesAfter h.proxies hns

/-- It also returns the same. -/
theorem outcomeOf_agree (hwf : WellFormed c) (hwf' : WellFormed c')
    (h : SameIn n c c') (hk : k.1 = n) : outcomeOf c k = outcomeOf c' k := by
  cases hu : c.crs k with
  | none =>
      rw [outcomeOf, outcomeOf, run_reconcileKey_of_none hu,
        run_reconcileKey_of_none (h.missing hk hu)]
  | some u =>
      obtain ⟨u', hu', hobj⟩ := h.stored hk hu
      have hns : nsOf u.obj = n := (hwf.stored k u hu).nsOf.trans hk
      rw [outcomeOf_of_some hwf hu, outcomeOf_of_some hwf' hu', hobj,
        panics_agree (h.proxies.at hns)]

end Reconcile

/-! ## Moves -/

/-- The namespace that a move is about. -/
def namespaceOf : Move → String
  | .create u => u.ns
  | .edit k _ => k.1
  | .delete k _ => k.1
  | .reconcile k => k.1
  | .collect k => k.1

/-- A CR is created with a namespace and a name, and not as one that is being
    deleted and waits for nobody. -/
def Fit : Move → Prop
  | .create u => Stored (u.ns, u.name) u
  | _ => True

instance (m : Move) : Decidable (Fit m) :=
  match m with
  | .create u => inferInstanceAs (Decidable (Stored (u.ns, u.name) u))
  | .edit _ _ => isTrue trivial
  | .delete _ _ => isTrue trivial
  | .reconcile _ => isTrue trivial
  | .collect _ => isTrue trivial

theorem wellFormed_step {w : World} (h : WellFormed w.cluster) {m : Move}
    (hm : Fit m) : WellFormed (step w m).cluster := by
  cases m with
  | create u => exact wellFormed_createCR h hm
  | edit k spec => exact wellFormed_editCR h k fun u => { u with spec := spec }
  | delete k now => exact wellFormed_deleteCR h k now
  | reconcile k => exact wellFormed_reconcileNow h
  | collect k => exact wellFormed_collectProxy h k

/-- `d` is `c`, but for the CRs. -/
def OnlyCRs (c d : Cluster) : Prop :=
  d.deployments = c.deployments ∧ d.services = c.services
    ∧ d.proxies = c.proxies

theorem onlyCRs_createCR (c : Cluster) (k : Key) (u : Multiplicador) :
    OnlyCRs c (createCR c k u) := by
  rw [createCR]
  split <;> exact ⟨rfl, rfl, rfl⟩

theorem onlyCRs_editCR (c : Cluster) (k : Key)
    (f : Multiplicador → Multiplicador) : OnlyCRs c (editCR c k f) := by
  rw [editCR]
  split <;> exact ⟨rfl, rfl, rfl⟩

theorem onlyCRs_deleteCR (c : Cluster) (k : Key) (now : String) :
    OnlyCRs c (deleteCR c k now) := by
  rw [deleteCR]
  split
  · exact ⟨rfl, rfl, rfl⟩
  · split <;> exact ⟨rfl, rfl, rfl⟩

/-- `d` is `c`, but for the HTTPProxies. -/
def OnlyProxies (c d : Cluster) : Prop :=
  d.crs = c.crs ∧ d.deployments = c.deployments ∧ d.services = c.services

theorem onlyProxies_collectProxy (c : Cluster) (k : Key) :
    OnlyProxies c (collectProxy c k) := by
  rw [collectProxy]
  split
  · exact ⟨rfl, rfl, rfl⟩
  · split
    · exact ⟨rfl, rfl, rfl⟩
    · split <;> exact ⟨rfl, rfl, rfl⟩

section Sides

variable {n : String} {c c' d d' : Cluster}

theorem SameIn.of_onlyCRs (h : SameIn n c c') (hd : OnlyCRs c d)
    (hd' : OnlyCRs c' d') (hcrs : AgreeIn n (content d.crs) (content d'.crs)) :
    SameIn n d d' := by
  obtain ⟨hdep, hsvc, hprx⟩ := hd
  obtain ⟨hdep', hsvc', hprx'⟩ := hd'
  refine ⟨hcrs, ?_, ?_, ?_⟩
  · rw [hdep, hdep']
    exact h.deployments
  · rw [hsvc, hsvc']
    exact h.services
  · rw [hprx, hprx']
    exact h.proxies

theorem SameIn.of_onlyProxies (h : SameIn n c c') (hd : OnlyProxies c d)
    (hd' : OnlyProxies c' d')
    (hprx : AgreeIn n (content d.proxies) (content d'.proxies)) :
    SameIn n d d' := by
  obtain ⟨hcrs, hdep, hsvc⟩ := hd
  obtain ⟨hcrs', hdep', hsvc'⟩ := hd'
  refine ⟨?_, ?_, ?_, hprx⟩
  · rw [hcrs, hcrs']
    exact h.crs
  · rw [hdep, hdep']
    exact h.deployments
  · rw [hsvc, hsvc']
    exact h.services

/-- Only the CRs have moved, and none of the namespace. -/
theorem sameIn_of_onlyCRs (hd : OnlyCRs c d)
    (hcrs : AgreeIn n (content c.crs) (content d.crs)) : SameIn n c d :=
  ((sameIn_equivalence n).refl c).of_onlyCRs ⟨rfl, rfl, rfl⟩ hd hcrs

end Sides

/-! ## The observer -/

/-- Whether the move is about the namespace. -/
def within (n : String) (m : Move) : Bool := decide (namespaceOf m = n)

/-- The moves of other namespaces show nothing. -/
theorem sameIn_step_of_ne {n : String} {w : World} {m : Move}
    (h : WellFormed w.cluster) (hm : namespaceOf m ≠ n) :
    SameIn n w.cluster (step w m).cluster := by
  cases m with
  | create u =>
      refine sameIn_of_onlyCRs (onlyCRs_createCR w.cluster (u.ns, u.name) u) ?_
      simp only [step, content_createCR]
      exact agreeIn_update (k := (u.ns, u.name)) hm _
  | edit k spec =>
      refine sameIn_of_onlyCRs (onlyCRs_editCR w.cluster k _) ?_
      simp only [step, editSpec, content_editCR]
      exact agreeIn_update hm _
  | delete k now =>
      refine sameIn_of_onlyCRs (onlyCRs_deleteCR w.cluster k now) ?_
      simp only [step, content_deleteCR]
      exact agreeIn_update hm _
  | reconcile k => exact sameIn_reconcileNow_of_ne h hm
  | collect k =>
      refine ((sameIn_equivalence n).refl w.cluster).of_onlyProxies
        ⟨rfl, rfl, rfl⟩ (onlyProxies_collectProxy w.cluster k) ?_
      simp only [step, content_collectProxy]
      exact agreeIn_update hm _

/-- The moves of the namespace do the same where it looks the same. -/
theorem sameIn_step {n : String} {w w' : World} {m : Move}
    (hwf : WellFormed w.cluster) (hwf' : WellFormed w'.cluster)
    (h : SameIn n w.cluster w'.cluster) (hm : namespaceOf m = n) :
    SameIn n (step w m).cluster (step w' m).cluster := by
  cases m with
  | create u =>
      refine h.of_onlyCRs (onlyCRs_createCR w.cluster (u.ns, u.name) u)
        (onlyCRs_createCR w'.cluster (u.ns, u.name) u) ?_
      simp only [step, content_createCR]
      exact h.crs.update fun hk => by rw [h.crs.at hk]
  | edit k spec =>
      refine h.of_onlyCRs (onlyCRs_editCR w.cluster k _)
        (onlyCRs_editCR w'.cluster k _) ?_
      simp only [step, editSpec, content_editCR]
      exact h.crs.update fun hk => by rw [h.crs.at hk]
  | delete k now =>
      refine h.of_onlyCRs (onlyCRs_deleteCR w.cluster k now)
        (onlyCRs_deleteCR w'.cluster k now) ?_
      simp only [step, content_deleteCR]
      exact h.crs.update fun hk => by rw [h.crs.at hk]
  | reconcile k => exact sameIn_reconcileNow hwf hwf' h hm
  | collect k =>
      refine h.of_onlyProxies (onlyProxies_collectProxy w.cluster k)
        (onlyProxies_collectProxy w'.cluster k) ?_
      simp only [step, content_collectProxy]
      refine h.proxies.update fun hk => ?_
      have hk' : k.1 = n := hm
      rw [h.proxies.at hk, hk', collected_agree h.crs]

/-- Who looks at one namespace. -/
def observer (n : String) : Observer step where
  inv w := WellFormed w.cluster
  fit := Fit
  own := within n
  same w w' := SameIn n w.cluster w'.cluster
  equivalence :=
    ⟨fun w => (sameIn_equivalence n).refl w.cluster,
      (sameIn_equivalence n).symm, (sameIn_equivalence n).trans⟩
  inv_step _ _ h hm := wellFormed_step h hm
  frame _ _ h _ hm := sameIn_step_of_ne h (by simpa [within] using hm)
  consistent _ _ _ h h' _ hm hsame :=
    sameIn_step h h' hsame (by simpa [within] using hm)

/-- **A NAMESPACE STANDS ALONE**: two runs whose moves in the namespace are the
    same, in the same order, leave the same objects in it, whatever is done in
    the others; and a reconcile of one of its CRs then returns the same. -/
theorem namespace_stands_alone {n : String} {w w' : World}
    (hwf : WellFormed w.cluster) (hwf' : WellFormed w'.cluster)
    (h : SameIn n w.cluster w'.cluster) {ms ms' : List Move}
    (hms : ∀ m ∈ ms, Fit m) (hms' : ∀ m ∈ ms', Fit m)
    (hown : ms.filter (within n) = ms'.filter (within n)) :
    SameIn n (ms.foldl step w).cluster (ms'.foldl step w').cluster
      ∧ ∀ k : Key, k.1 = n → outcomeOf (ms.foldl step w).cluster k
          = outcomeOf (ms'.foldl step w').cluster k := by
  have hsame : SameIn n (ms.foldl step w).cluster
      (ms'.foldl step w').cluster :=
    (observer n).same_of_purged (s := w) (t := w') hwf hwf' h hms hms' hown
  have hend : WellFormed (ms.foldl step w).cluster :=
    (observer n).inv_run (s := w) hwf hms
  have hend' : WellFormed (ms'.foldl step w').cluster :=
    (observer n).inv_run (s := w') hwf' hms'
  exact ⟨hsame, fun k hk => outcomeOf_agree hend hend' hsame hk⟩

/-! ## Two tenants -/

/-- A CR of the namespace `shop`, under the host and the ruta that `default`
    uses. -/
def shopCR : Multiplicador := { newCR "web" "a.com" "calc" with ns := "shop" }

/-- Both are served; then the one of `shop` goes. -/
def tenants : List Move :=
  [.create (newCR "web" "a.com" "calc"), .create shopCR,
    .reconcile ("shop", "web"), .reconcile ("default", "web"),
    .reconcile ("shop", "web"), .delete ("shop", "web") "now",
    .reconcile ("shop", "web"), .collect ("shop", "vhost-a-com")]

theorem namespace_stands_alone_tenants :
    SameIn "default" (tenants.foldl step emptyWorld).cluster
        ([.create (newCR "web" "a.com" "calc"),
          .reconcile ("default", "web")].foldl step emptyWorld).cluster
      ∧ ∀ k : Key, k.1 = "default" →
          outcomeOf (tenants.foldl step emptyWorld).cluster k
            = outcomeOf ([.create (newCR "web" "a.com" "calc"),
                .reconcile ("default", "web")].foldl step emptyWorld).cluster
                k :=
  namespace_stands_alone start_emptyWorld.wellFormed
    start_emptyWorld.wellFormed ((sameIn_equivalence "default").refl _)
    (by decide) (by decide) (by rfl)

end Namespaces
