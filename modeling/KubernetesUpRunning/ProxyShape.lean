import KubernetesUpRunning.ProxyView
import Mathlib.Data.List.Nodup

/-! # The shape of a shared proxy

    `Shape` is what every HTTPProxy the operator writes looks like: owners with
    distinct uids, routes with distinct prefixes and one service each, and a
    virtual host that the name of the proxy is computed from.  Each of the
    hand-written loops keeps it, so a merge never meets a proxy it panics on. -/

namespace ProxyShape

open AssocMap ApiServer GoJson KubeObjects ProxyView Reconcile ReconcileEffect
open ReconcileRun

/-- The services a route points to. -/
def servicesOf (r : Json) : List Json :=
  ((asMap (some r)).bind fun rm => asSlice (rm.lookup "services")).getD []

/-- The shape of the HTTPProxy that is stored under `name`. -/
structure Shape (name : String) (o : Fields) : Prop where
  metadata : (metadataOf o).isSome
  spec : (specOf o).isSome
  uids : ∀ r ∈ ownersOf o, ∃ uid, uidOf r = some (.str uid)
  owners : ((ownersOf o).map uidOf).Nodup
  prefixed : ∀ r ∈ routesOf o, ∃ p, firstPrefix r = some p
  prefixes : ((routesOf o).map firstPrefix).Nodup
  services : ∀ r ∈ routesOf o, (servicesOf r).length = 1
  fqdn : ∀ h, fqdnOf o = some h → name = vhostName h

/-! ## The loop over the routes -/

theorem hasPrefix_iff {p : String} {r : Json} :
    hasPrefix p r = true ↔ firstPrefix r = some p := by
  simp [hasPrefix]

theorem mem_upsertRoute {p : String} {route r : Json} {rs : List Json}
    (h : r ∈ upsertRoute p route rs) : r = route ∨ r ∈ rs := by
  induction rs with
  | nil => exact Or.inl (by simpa [upsertRoute] using h)
  | cons hd rest ih =>
      rw [upsertRoute] at h
      split at h
      · rcases List.mem_cons.mp h with h | h
        · exact Or.inl h
        · exact Or.inr (List.mem_cons_of_mem _ h)
      · rcases List.mem_cons.mp h with h | h
        · exact Or.inr (h ▸ List.mem_cons_self)
        · rcases ih h with h | h
          · exact Or.inl h
          · exact Or.inr (List.mem_cons_of_mem _ h)

theorem route_mem_upsertRoute (p : String) (route : Json) (rs : List Json) :
    route ∈ upsertRoute p route rs := by
  induction rs with
  | nil => simp [upsertRoute]
  | cons hd rest ih =>
      rw [upsertRoute]
      split
      · exact List.mem_cons_self
      · exact List.mem_cons_of_mem _ ih

/-- Routes under other prefixes stay. -/
theorem mem_upsertRoute_of_ne {p : String} {route r : Json} {rs : List Json}
    (hr : r ∈ rs) (hp : hasPrefix p r = false) :
    r ∈ upsertRoute p route rs := by
  induction rs with
  | nil => exact absurd hr List.not_mem_nil
  | cons hd rest ih =>
      rw [upsertRoute]
      rcases List.mem_cons.mp hr with h | h
      · subst h
        rw [if_neg (by simp [hp])]
        exact List.mem_cons_self
      · split
        · exact List.mem_cons_of_mem _ h
        · exact List.mem_cons_of_mem _ (ih h)

/-- The prefixes stay distinct. -/
theorem prefixes_upsertRoute {p : String} {route : Json} {rs : List Json}
    (hp : firstPrefix route = some p) (h : (rs.map firstPrefix).Nodup) :
    ((upsertRoute p route rs).map firstPrefix).Nodup := by
  induction rs with
  | nil => simp [upsertRoute]
  | cons hd rest ih =>
      simp only [List.map_cons, List.nodup_cons, List.mem_map] at h
      rw [upsertRoute]
      split
      · rename_i hhd
        simp only [List.map_cons, List.nodup_cons, List.mem_map]
        rw [hp, ← hasPrefix_iff.mp hhd]
        exact h
      · rename_i hhd
        simp only [List.map_cons, List.nodup_cons, List.mem_map]
        refine ⟨?_, ih h.2⟩
        rintro ⟨r, hr, hrp⟩
        rcases mem_upsertRoute hr with hr | hr
        · rw [hr, hp] at hrp
          exact hhd (hasPrefix_iff.mpr hrp.symm)
        · exact h.1 ⟨r, hr, hrp⟩

theorem nodup_map_sublist {β : Type} {f : Json → β} {xs ys : List Json}
    (hs : xs.Sublist ys) (h : (ys.map f).Nodup) : (xs.map f).Nodup :=
  (hs.map f).nodup h

theorem mergeBase_sublist (u : Multiplicador) (rs : List Json) :
    (mergeBase u rs).Sublist rs := by
  rw [mergeBase]
  split
  · exact List.filter_sublist
  · exact List.Sublist.refl rs

/-! ## The loop over the owners -/

theorem ownedBy_iff {uid : String} {r : Json} :
    ownedBy uid r = true ↔ uidOf r = some (.str uid) := by
  simp [ownedBy]

theorem mem_mergedOwners {u : Multiplicador} {r : Json} {ors : List Json}
    (h : r ∈ mergedOwners u ors) : r = ownerFor u ∨ r ∈ ors := by
  rw [mergedOwners] at h
  split at h
  · exact Or.inr h
  · rcases List.mem_append.mp h with h | h
    · exact Or.inr h
    · exact Or.inl (List.mem_singleton.mp h)

theorem owners_mergedOwners {u : Multiplicador} {ors : List Json}
    (h : (ors.map uidOf).Nodup) : ((mergedOwners u ors).map uidOf).Nodup := by
  rw [mergedOwners]
  split
  · exact h
  · rename_i hno
    rw [List.map_append, List.nodup_append]
    refine ⟨h, List.nodup_singleton _, ?_⟩
    intro a ha b hb hab
    obtain ⟨r, hr, hra⟩ := List.mem_map.mp ha
    have hb' : b = some (.str u.uid) := by simpa using hb
    have hmine : ownedBy u.uid r = true := by
      rw [ownedBy_iff, hra, hab, hb']
    exact hno (List.any_eq_true.mpr ⟨r, hr, hmine⟩)

/-! ## The maps stay maps -/

theorem metadata_removePrefix (p : String) (o : Fields) :
    metadataOf (removePrefix p o) = metadataOf o := by
  rw [removePrefix]
  split
  · split <;> simp
  · rfl

theorem spec_removeOwner (uid : String) (o : Fields) :
    specOf (removeOwner uid o) = specOf o := by
  rw [removeOwner]
  split
  · split <;> simp
  · rfl

theorem metadata_removeOwner {uid : String} {o : Fields}
    (h : (metadataOf o).isSome) : (metadataOf (removeOwner uid o)).isSome := by
  rw [removeOwner]
  split
  · split
    · simp
    · exact h
  · exact h

theorem spec_removePrefix {p : String} {o : Fields}
    (h : (specOf o).isSome) : (specOf (removePrefix p o)).isSome := by
  rw [removePrefix]
  split
  · split
    · simp
    · exact h
  · exact h

theorem metadata_dropOldPrefix (u : Multiplicador) (o : Fields) :
    metadataOf (dropOldPrefix u o) = metadataOf o := by
  rw [dropOldPrefix]
  split
  · exact metadata_removePrefix _ o
  · rfl

theorem spec_dropOldPrefix {u : Multiplicador} {o : Fields}
    (h : (specOf o).isSome) : (specOf (dropOldPrefix u o)).isSome := by
  rw [dropOldPrefix]
  split
  · exact spec_removePrefix h
  · exact h

/-- A merge into a proxy with a metadata and a spec does not panic, and leaves
    a proxy with both. -/
theorem mergeProxy_maps {u : Multiplicador} {o : Fields}
    (hm : (metadataOf o).isSome) (hs : (specOf o).isSome) :
    ∃ m, mergeProxy u o = some m ∧ (metadataOf m).isSome
      ∧ (specOf m).isSome := by
  have hown : ∃ o₁, mergeOwner u o = some o₁ ∧ (metadataOf o₁).isSome
      ∧ (specOf o₁).isSome := by
    rw [mergeOwner]
    split
    · exact ⟨o, rfl, hm, hs⟩
    · obtain ⟨md, hmd⟩ := Option.isSome_iff_exists.mp hm
      rw [hmd]
      exact ⟨_, rfl, by simp, by simpa using hs⟩
  obtain ⟨o₁, ho₁, hm₁, hs₁⟩ := hown
  rw [← metadata_dropOldPrefix u o₁] at hm₁
  obtain ⟨spec, hspec⟩ :=
    Option.isSome_iff_exists.mp (spec_dropOldPrefix (u := u) hs₁)
  have hmerge : ∃ m, mergeSpec u (dropOldPrefix u o₁) = some m
      ∧ metadataOf m = metadataOf (dropOldPrefix u o₁)
      ∧ (specOf m).isSome := by
    rw [mergeSpec]
    rw [hspec]
    exact ⟨_, rfl, by simp, by simp⟩
  obtain ⟨m, hmm, hmd, hms⟩ := hmerge
  refine ⟨m, ?_, hmd ▸ hm₁, hms⟩
  rw [mergeProxy]
  rw [ho₁]
  exact hmm

/-! ## Every write keeps the shape -/

theorem shape_stripProxy {name uid route : String} {o : Fields}
    (h : Shape name o) : Shape name (stripProxy uid route o) := by
  have hsub := keptRoutes_sublist route (routesOf o)
  refine ⟨?_, ?_, ?_, ?_, ?_, ?_, ?_, ?_⟩
  · rw [stripProxy]
    split
    · exact metadata_removeOwner h.metadata
    · rw [metadata_removePrefix]
      exact metadata_removeOwner h.metadata
  · rw [stripProxy]
    split
    · rw [spec_removeOwner]
      exact h.spec
    · refine spec_removePrefix ?_
      rw [spec_removeOwner]
      exact h.spec
  · intro r hr
    rw [ownersOf_stripProxy] at hr
    exact h.uids r (List.mem_of_mem_filter hr)
  · rw [ownersOf_stripProxy]
    exact nodup_map_sublist List.filter_sublist h.owners
  · intro r hr
    rw [routesOf_stripProxy] at hr
    exact h.prefixed r (hsub.subset hr)
  · rw [routesOf_stripProxy]
    exact nodup_map_sublist hsub h.prefixes
  · intro r hr
    rw [routesOf_stripProxy] at hr
    exact h.services r (hsub.subset hr)
  · intro f hf
    rw [fqdnOf_stripProxy] at hf
    exact h.fqdn f hf

/-- What is left of a proxy when a CR leaves it. -/
theorem shape_leaveContent {name uid route : String} {o m : Fields}
    (h : Shape name o) (hm : leaveContent uid route (some o) = some m) :
    Shape name m := by
  have hm' : (if deleteOld (stripProxy uid route o) = true then none
      else some (stripProxy uid route o)) = some m := hm
  split at hm'
  · exact absurd hm' (by simp)
  · rw [← Option.some.inj hm']
    exact shape_stripProxy h

/-- The proxy that the create branch builds. -/
theorem shape_newProxy (u : Multiplicador) :
    Shape (proxyNameOf u) (newProxy u) := by
  refine ⟨rfl, rfl, ?_, ?_, ?_, ?_, ?_, ?_⟩
  · intro r hr
    rw [ownersOf_newProxy, List.mem_singleton] at hr
    exact ⟨u.uid, by rw [hr, uidOf_ownerFor]⟩
  · rw [ownersOf_newProxy]
    exact List.nodup_singleton _
  · intro r hr
    rw [routesOf_newProxy, List.mem_singleton] at hr
    exact ⟨prefixOf u, by rw [hr, firstPrefix_routeFor]⟩
  · rw [routesOf_newProxy]
    exact List.nodup_singleton _
  · intro r hr
    rw [routesOf_newProxy, List.mem_singleton] at hr
    rw [hr]
    rfl
  · intro f hf
    rw [fqdnOf_newProxy] at hf
    rw [proxyNameOf]
    split at hf
    · exact absurd hf (by simp)
    · rename_i hh
      rw [if_neg hh, Option.some.inj hf]

/-- A merge. -/
theorem shape_mergeProxy {u : Multiplicador} {o m : Fields}
    (h : Shape (proxyNameOf u) o) (hm : mergeProxy u o = some m) :
    Shape (proxyNameOf u) m := by
  obtain ⟨m', hm', hmd, hms⟩ := mergeProxy_maps (u := u) h.metadata h.spec
  rw [hm] at hm'
  rw [← Option.some.inj hm'] at hmd hms
  obtain ⟨hown, hrts, hfq⟩ := mergeProxy_spec hm
  have hsub := mergeBase_sublist u (routesOf o)
  refine ⟨hmd, hms, ?_, ?_, ?_, ?_, ?_, ?_⟩
  · intro r hr
    rw [hown] at hr
    rcases mem_mergedOwners hr with hr | hr
    · exact ⟨u.uid, by rw [hr, uidOf_ownerFor]⟩
    · exact h.uids r hr
  · rw [hown]
    exact owners_mergedOwners h.owners
  · intro r hr
    rw [hrts] at hr
    rcases mem_upsertRoute hr with hr | hr
    · exact ⟨prefixOf u, by rw [hr, firstPrefix_routeFor]⟩
    · exact h.prefixed r (hsub.subset hr)
  · rw [hrts]
    exact prefixes_upsertRoute (firstPrefix_routeFor u)
      (nodup_map_sublist hsub h.prefixes)
  · intro r hr
    rw [hrts] at hr
    rcases mem_upsertRoute hr with hr | hr
    · rw [hr]
      rfl
    · exact h.services r (hsub.subset hr)
  · intro f hf
    rw [hfq] at hf
    rw [mergedFqdn] at hf
    split at hf
    · exact h.fqdn f hf
    · rename_i hh
      rw [proxyNameOf]
      rw [if_neg hh, Option.some.inj hf]

/-- The target proxy after a create or a merge. -/
theorem shape_mergeContent {u : Multiplicador} {o : Option Fields}
    {m : Fields} (h : ∀ x, o = some x → Shape (proxyNameOf u) x)
    (hm : mergeContent u o = some m) : Shape (proxyNameOf u) m := by
  cases o with
  | none =>
      rw [← Option.some.inj hm]
      exact shape_newProxy u
  | some o => exact shape_mergeProxy (h o rfl) hm

/-- The garbage collector drops owner entries. -/
theorem ownersOf_dropDangling (c : Cluster) (ns : String) (o : Fields) :
    ownersOf (dropDangling c ns o)
      = (ownersOf o).filter fun r => !dangling c ns r := by
  rw [dropDangling]
  cases hm : metadataOf o with
  | none => simp [ownersOf, hm]
  | some md =>
      cases hs : asSlice (md.lookup "ownerReferences") with
      | none => simp [ownersOf, hm, hs]
      | some ors => simp [ownersOf, hm, hs]

theorem specOf_dropDangling (c : Cluster) (ns : String) (o : Fields) :
    specOf (dropDangling c ns o) = specOf o := by
  rw [dropDangling]
  split
  · split <;> simp
  · rfl

theorem metadata_dropDangling {c : Cluster} {ns : String} {o : Fields}
    (h : (metadataOf o).isSome) :
    (metadataOf (dropDangling c ns o)).isSome := by
  rw [dropDangling]
  split
  · split
    · simp
    · exact h
  · exact h

/-- What is left has no more owners, and the same routes. -/
theorem dropDangling_sub (c : Cluster) (ns : String) (o : Fields) :
    (∀ e ∈ ownersOf (dropDangling c ns o), e ∈ ownersOf o)
      ∧ ∀ r ∈ routesOf (dropDangling c ns o), r ∈ routesOf o := by
  constructor
  · intro e he
    rw [ownersOf_dropDangling] at he
    exact (List.mem_filter.mp he).1
  · intro r hr
    rwa [routesOf, specOf_dropDangling] at hr

theorem shape_dropDangling {c : Cluster} {ns name : String} {o : Fields}
    (h : Shape name o) : Shape name (dropDangling c ns o) := by
  have hspec := specOf_dropDangling c ns o
  have hroutes : routesOf (dropDangling c ns o) = routesOf o := by
    rw [routesOf, hspec]
    rfl
  refine ⟨metadata_dropDangling h.metadata, ?_, ?_, ?_, ?_, ?_, ?_, ?_⟩
  · rw [hspec]
    exact h.spec
  · exact fun r hr => h.uids r ((dropDangling_sub c ns o).1 r hr)
  · rw [ownersOf_dropDangling]
    exact nodup_map_sublist List.filter_sublist h.owners
  · rw [hroutes]
    exact h.prefixed
  · rw [hroutes]
    exact h.prefixes
  · rw [hroutes]
    exact h.services
  · intro f hf
    rw [fqdnOf, hspec] at hf
    exact h.fqdn f hf

/-! ## Which routes are there after a reconcile -/

/-- Every proxy has the shape of its name. -/
def Shaped (P : Key → Option Fields) : Prop :=
  ∀ k o, P k = some o → Shape k.2 o

theorem Shaped.prefixes {P : Key → Option Fields} (h : Shaped P) (q : Key) :
    ((routesAt P q).map firstPrefix).Nodup := by
  cases hq : P q with
  | none => simp [routesAt, hq]
  | some o => simpa [routesAt, hq] using (h q o hq).prefixes

theorem Shaped.update {P : Key → Option Fields} (h : Shaped P) {q : Key}
    {new : Option Fields} (hn : ∀ o, new = some o → Shape q.2 o) :
    Shaped (Function.update P q new) := by
  intro k o ho
  by_cases hk : k = q
  · subst hk
    rw [Function.update_self] at ho
    exact hn o ho
  · rw [Function.update_of_ne hk] at ho
    exact h k o ho

theorem Shaped.depart {P : Key → Option Fields} (h : Shaped P)
    (u : Multiplicador) : Shaped (departProxies u P) := by
  rw [departProxies]
  split
  · refine h.update ?_
    intro o ho
    cases hq : P (oldKey u) with
    | none => rw [hq] at ho; exact absurd ho (by simp [leaveContent])
    | some x =>
        rw [hq] at ho
        exact shape_leaveContent (h _ x hq) ho
  · exact h

/-- A merge into a shaped proxy does not panic. -/
theorem Shaped.exists_merge {P : Key → Option Fields} (h : Shaped P)
    (u : Multiplicador) :
    ∃ m, mergeContent u (departProxies u P (targetKey u)) = some m := by
  cases hq : departProxies u P (targetKey u) with
  | none => exact ⟨newProxy u, rfl⟩
  | some o =>
      have ho := h.depart u _ o hq
      obtain ⟨m, hm, -⟩ := mergeProxy_maps (u := u) ho.metadata ho.spec
      exact ⟨m, hm⟩

/-- Leaving, creating and merging keep the shape of every proxy. -/
theorem Shaped.after {P : Key → Option Fields} (h : Shaped P)
    (u : Multiplicador) : Shaped (proxiesAfter u P) := by
  obtain ⟨m, hm⟩ := h.exists_merge u
  have hd := h.depart u
  rw [proxiesAfter_eq, joinProxies]
  split
  · rw [installProxies_ok hm]
    refine hd.update ?_
    intro o ho
    rw [← Option.some.inj ho]
    exact shape_mergeContent (fun x hx => hd _ x hx) hm
  · exact hd

/-- With distinct prefixes, exactly the route under the prefix is replaced. -/
theorem mem_upsertRoute_iff {p : String} {route r : Json} {rs : List Json}
    (hp : firstPrefix route = some p) (hnd : (rs.map firstPrefix).Nodup) :
    r ∈ upsertRoute p route rs
      ↔ r = route ∨ (r ∈ rs ∧ firstPrefix r ≠ some p) := by
  constructor
  · intro hr
    by_cases hpr : firstPrefix r = some p
    · exact Or.inl (List.inj_on_of_nodup_map (prefixes_upsertRoute hp hnd) hr
        (route_mem_upsertRoute p route rs) (hpr.trans hp.symm))
    · rcases mem_upsertRoute hr with h | h
      · exact Or.inl h
      · exact Or.inr ⟨h, hpr⟩
  · rintro (rfl | ⟨hr, hpr⟩)
    · exact route_mem_upsertRoute _ _ rs
    · exact mem_upsertRoute_of_ne hr (by simpa [hasPrefix] using hpr)

theorem mem_keptRoutes {route : String} {r : Json} {rs : List Json} :
    r ∈ keptRoutes route rs
      ↔ r ∈ rs ∧ ¬ (route ≠ "" ∧ firstPrefix r = some route) := by
  rw [keptRoutes]
  by_cases hr : route = ""
  · simp [hr]
  · simp [hr, hasPrefix]

/-- The old prefix goes when it has changed in the same proxy. -/
theorem mem_mergeBase {u : Multiplicador} {r : Json} {rs : List Json} :
    r ∈ mergeBase u rs ↔ r ∈ rs ∧ ¬ ((prevProxy u = proxyNameOf u
      ∧ prevRoute u ≠ prefixOf u) ∧ prevRoute u ≠ ""
      ∧ firstPrefix r = some (prevRoute u)) := by
  rw [mergeBase]
  split
  · rename_i h
    simp [hasPrefix, h.1, h.2.1, h.2.2]
  · rename_i h
    constructor
    · intro hr
      exact ⟨hr, fun hc => h ⟨hc.1.1, hc.2.1, hc.1.2⟩⟩
    · exact fun hr => hr.1

/-- **THE ROUTES AFTER A RECONCILE**: its own, and what was there but for the
    recorded prefix in the recorded proxy and the new prefix in the target. -/
theorem mem_routesAt_proxiesAfter {u : Multiplicador}
    {P : Key → Option Fields} (hP : Shaped P) {q : Key} {r : Json} :
    r ∈ routesAt (proxiesAfter u P) q
      ↔ (joins u = true ∧ q = targetKey u ∧ r = routeFor u)
        ∨ (r ∈ routesAt P q
          ∧ ¬ (dropsOld u = true ∧ q = oldKey u ∧ prevRoute u ≠ ""
            ∧ firstPrefix r = some (prevRoute u))
          ∧ ¬ (joins u = true ∧ q = targetKey u
            ∧ firstPrefix r = some (prefixOf u))) := by
  have hold : ∀ q, r ∈ routesAt (departProxies u P) q ↔ r ∈ routesAt P q
      ∧ ¬ (departs u = true ∧ q = oldKey u ∧ prevRoute u ≠ ""
        ∧ firstPrefix r = some (prevRoute u)) := by
    intro q
    rw [routesAt_departProxies]
    split
    · rename_i h
      rw [mem_keptRoutes]
      simp [h.1, h.2]
    · rename_i h
      constructor
      · exact fun hr => ⟨hr, fun hc => h ⟨hc.1, hc.2.1⟩⟩
      · exact fun hr => hr.1
  rw [proxiesAfter_eq, joinProxies]
  cases hj : joins u with
  | false =>
      rw [if_neg (by simp), hold]
      simp [dropsOld, hj]
  | true =>
      obtain ⟨m, hm⟩ := hP.exists_merge u
      rw [if_pos rfl, routesAt_installProxies q hm]
      by_cases hq : q = targetKey u
      · have hnd := nodup_map_sublist (mergeBase_sublist u _)
          ((hP.depart u).prefixes q)
        rw [if_pos hq, mergedRoutes,
          mem_upsertRoute_iff (firstPrefix_routeFor u) hnd, mem_mergeBase, hold]
        -- a proxy that is left is not the target
        have hnl : ¬ (departs u = true ∧ q = oldKey u) := fun hc =>
          oldKey_ne_targetKey hj hc.1 (hc.2.symm.trans hq)
        have hsame : (prevProxy u = proxyNameOf u) ↔ q = oldKey u := by
          rw [hq, oldKey, targetKey, Prod.mk.injEq]
          exact ⟨fun e => ⟨rfl, e.symm⟩, fun e => e.2.symm⟩
        simp only [dropsOld, hj, Bool.true_and, Bool.or_eq_true,
          decide_eq_true_eq, hsame]
        grind
      · rw [if_neg hq, hold]
        -- the same proxy is the target, so only leaving matters here
        have hnot : ¬ (prevProxy u = proxyNameOf u ∧ q = oldKey u) := by
          rintro ⟨e, e'⟩
          exact hq (by rw [e', oldKey, targetKey, e])
        simp only [dropsOld, hj, Bool.true_and, Bool.or_eq_true,
          decide_eq_true_eq]
        grind

/-- An owner after a reconcile is the CR itself or was there before. -/
theorem owner_of_after {u : Multiplicador} {P : Key → Option Fields}
    (hP : Shaped P) {q : Key} {e : Json}
    (h : e ∈ ownersAt (proxiesAfter u P) q) :
    (joins u = true ∧ q = targetKey u ∧ e = ownerFor u)
      ∨ e ∈ ownersAt P q := by
  have hold : e ∈ ownersAt (departProxies u P) q → e ∈ ownersAt P q := by
    rw [ownersAt_departProxies]
    split
    · exact fun h => (List.mem_filter.mp h).1
    · exact id
  rw [proxiesAfter_eq, joinProxies] at h
  split at h
  · rename_i hj
    obtain ⟨m, hm⟩ := hP.exists_merge u
    rw [ownersAt_installProxies q hm] at h
    split at h
    · rename_i hq
      rcases mem_mergedOwners h with h | h
      · exact Or.inl ⟨hj, hq, h⟩
      · exact Or.inr (hold h)
    · exact Or.inr (hold h)
  · exact Or.inr (hold h)

/-- The owner entries of others stay. -/
theorem owner_after_of_ne {u : Multiplicador} {P : Key → Option Fields}
    (hP : Shaped P) {q : Key} {e : Json} (h : e ∈ ownersAt P q)
    (hne : ownedBy u.uid e = false) : e ∈ ownersAt (proxiesAfter u P) q := by
  have hold : e ∈ ownersAt (departProxies u P) q := by
    rw [ownersAt_departProxies]
    split
    · exact List.mem_filter.mpr ⟨h, by simp [hne]⟩
    · exact h
  rw [proxiesAfter_eq, joinProxies]
  split
  · obtain ⟨m, hm⟩ := hP.exists_merge u
    rw [ownersAt_installProxies q hm]
    split
    · rw [mergedOwners]
      split
      · exact hold
      · exact List.mem_append_left _ hold
    · exact hold
  · exact hold

/-- A CR that is served owns its target. -/
theorem owner_joined {u : Multiplicador} {P : Key → Option Fields}
    (hP : Shaped P) (hj : joins u = true) :
    ∃ e ∈ ownersAt (proxiesAfter u P) (targetKey u),
      ownedBy u.uid e = true := by
  obtain ⟨m, hm⟩ := hP.exists_merge u
  rw [proxiesAfter_eq, joinProxies, if_pos hj, ownersAt_installProxies _ hm,
    if_pos rfl]
  rw [mergedOwners]
  split
  · rename_i h
    obtain ⟨e, he, hown⟩ := List.any_eq_true.mp h
    exact ⟨e, he, hown⟩
  · exact ⟨ownerFor u, List.mem_append_right _ (List.mem_singleton_self _),
      ownedBy_iff.mpr (uidOf_ownerFor u)⟩

/-- The order of what stays is kept. -/
theorem filter_upsertRoute_sublist {f : Json → Bool} {p : String}
    {route : Json} (hf : f route = false) (rs : List Json) :
    ((upsertRoute p route rs).filter f).Sublist (rs.filter f) := by
  induction rs with
  | nil => simp [upsertRoute, hf]
  | cons hd rest ih =>
      rw [upsertRoute]
      split
      · rw [List.filter_cons, hf]
        exact (List.sublist_cons_self hd rest).filter f
      · rw [List.filter_cons, List.filter_cons]
        split
        · exact ih.cons_cons hd
        · exact ih

theorem routes_proxiesAfter_sublist {u : Multiplicador}
    {P : Key → Option Fields} (hP : Shaped P) {f : Json → Bool}
    (hf : f (routeFor u) = false) (q : Key) :
    ((routesAt (proxiesAfter u P) q).filter f).Sublist
      ((routesAt P q).filter f) := by
  have hold : ((routesAt (departProxies u P) q).filter f).Sublist
      ((routesAt P q).filter f) := by
    rw [routesAt_departProxies]
    split
    · exact (keptRoutes_sublist _ _).filter f
    · exact List.Sublist.refl _
  rw [proxiesAfter_eq, joinProxies]
  split
  · obtain ⟨m, hm⟩ := hP.exists_merge u
    rw [routesAt_installProxies q hm]
    split
    · exact (filter_upsertRoute_sublist hf _).trans
        (((mergeBase_sublist u _).filter f).trans hold)
    · exact hold
  · exact hold

end ProxyShape
