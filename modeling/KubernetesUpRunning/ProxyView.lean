import KubernetesUpRunning.ReconcileEffect

/-! # HTTPProxies seen from outside

    Owners, routes and fqdn of an HTTPProxy, and what leaving, creating and
    merging do to them.  The nested maps are opened here once; later modules
    speak of owner lists and route lists only. -/

namespace ProxyView

open AssocMap GoJson KubeObjects Reconcile ReconcileRun ReconcileEffect

/-! ## Opening the nested maps -/

@[simp] theorem specOf_setSpec (s : Fields) (o : Fields) :
    specOf (setKey "spec" (.obj s) o) = some s := by
  simp [specOf]

@[simp] theorem metadataOf_setSpec (v : Json) (o : Fields) :
    metadataOf (setKey "spec" v o) = metadataOf o := by
  simp [metadataOf, lookup_setKey_of_ne]

@[simp] theorem metadataOf_setMetadata (md : Fields) (o : Fields) :
    metadataOf (setKey "metadata" (.obj md) o) = some md := by
  simp [metadataOf]

@[simp] theorem specOf_setMetadata (v : Json) (o : Fields) :
    specOf (setKey "metadata" v o) = specOf o := by
  simp [specOf, lookup_setKey_of_ne]

@[simp] theorem ownersOf_setSpec (v : Json) (o : Fields) :
    ownersOf (setKey "spec" v o) = ownersOf o := by
  simp [ownersOf]

@[simp] theorem routesOf_setMetadata (v : Json) (o : Fields) :
    routesOf (setKey "metadata" v o) = routesOf o := by
  simp [routesOf]

@[simp] theorem fqdnOf_setMetadata (v : Json) (o : Fields) :
    fqdnOf (setKey "metadata" v o) = fqdnOf o := by
  simp [fqdnOf]

/-! ## Leaving -/

theorem ownersOf_removeOwner (uid : String) (o : Fields) :
    ownersOf (removeOwner uid o)
      = (ownersOf o).filter fun r => !ownedBy uid r := by
  rw [removeOwner]
  cases hm : metadataOf o with
  | none => simp [ownersOf, hm]
  | some md =>
      cases hs : asSlice (md.lookup "ownerReferences") with
      | none => simp [ownersOf, hm, hs]
      | some ors => simp [ownersOf, hm, hs]

theorem routesOf_removeOwner (uid : String) (o : Fields) :
    routesOf (removeOwner uid o) = routesOf o := by
  rw [removeOwner]
  split
  · split <;> simp
  · rfl

theorem fqdnOf_removeOwner (uid : String) (o : Fields) :
    fqdnOf (removeOwner uid o) = fqdnOf o := by
  rw [removeOwner]
  split
  · split <;> simp
  · rfl

theorem ownersOf_removePrefix (p : String) (o : Fields) :
    ownersOf (removePrefix p o) = ownersOf o := by
  rw [removePrefix]
  split
  · split <;> simp
  · rfl

theorem routesOf_removePrefix (p : String) (o : Fields) :
    routesOf (removePrefix p o)
      = (routesOf o).filter fun r => !hasPrefix p r := by
  rw [removePrefix]
  cases hm : specOf o with
  | none => simp [routesOf, hm]
  | some spec =>
      cases hs : asSlice (spec.lookup "routes") with
      | none => simp [routesOf, hm, hs]
      | some rts => simp [routesOf, hm, hs]

theorem fqdnOf_removePrefix (p : String) (o : Fields) :
    fqdnOf (removePrefix p o) = fqdnOf o := by
  rw [removePrefix]
  split
  · rename_i spec hspec
    split
    · simp [fqdnOf, hspec, lookup_setKey_of_ne]
    · rfl
  · rfl

theorem ownersOf_stripProxy (uid route : String) (o : Fields) :
    ownersOf (stripProxy uid route o)
      = (ownersOf o).filter fun r => !ownedBy uid r := by
  rw [stripProxy]
  split
  · exact ownersOf_removeOwner uid o
  · rw [ownersOf_removePrefix, ownersOf_removeOwner]

/-- The routes a CR with this record leaves in a proxy. -/
def keptRoutes (route : String) (rs : List Json) : List Json :=
  if route = "" then rs else rs.filter fun r => !hasPrefix route r

theorem keptRoutes_sublist (route : String) (rs : List Json) :
    (keptRoutes route rs).Sublist rs := by
  rw [keptRoutes]
  split
  · exact List.Sublist.refl rs
  · exact List.filter_sublist

theorem routesOf_stripProxy (uid route : String) (o : Fields) :
    routesOf (stripProxy uid route o) = keptRoutes route (routesOf o) := by
  rw [stripProxy, keptRoutes]
  split
  · exact routesOf_removeOwner uid o
  · rw [routesOf_removePrefix, routesOf_removeOwner]

theorem fqdnOf_stripProxy (uid route : String) (o : Fields) :
    fqdnOf (stripProxy uid route o) = fqdnOf o := by
  rw [stripProxy]
  split
  · exact fqdnOf_removeOwner uid o
  · rw [fqdnOf_removePrefix, fqdnOf_removeOwner]

/-- Only a proxy without owners and without routes is deleted. -/
theorem deleteOld_empty {o : Fields} (h : deleteOld o = true) :
    ownersOf o = [] ∧ routesOf o = [] := by
  rw [deleteOld] at h
  cases hm : metadataOf o with
  | none => rw [hm] at h; exact absurd h (by simp)
  | some md =>
      rw [hm] at h
      dsimp only at h
      by_cases hors : (asSlice (md.lookup "ownerReferences")).getD [] = []
      · rw [if_pos hors] at h
        refine ⟨by simpa [ownersOf, hm] using hors, ?_⟩
        cases hs : specOf o with
        | none => simp [routesOf, hs]
        | some spec =>
            rw [hs] at h
            dsimp only at h
            cases hr : asSlice (spec.lookup "routes") with
            | none => simp [routesOf, hs, hr]
            | some rts =>
                rw [hr] at h
                simpa [routesOf, hs, hr] using h
      · rw [if_neg hors] at h
        exact absurd h (by simp)

/-! ## Creating and merging -/

@[simp] theorem firstPrefix_routeFor (u : Multiplicador) :
    firstPrefix (routeFor u) = some (prefixOf u) := rfl

@[simp] theorem serviceNames_routeFor (u : Multiplicador) :
    serviceNames (routeFor u) = [svcNameOf u.name] := rfl

@[simp] theorem uidOf_ownerFor (u : Multiplicador) :
    uidOf (ownerFor u) = some (.str u.uid) := rfl

@[simp] theorem ownersOf_newProxy (u : Multiplicador) :
    ownersOf (newProxy u) = [ownerFor u] := rfl

theorem specOf_newProxy (u : Multiplicador) :
    specOf (newProxy u) = some (if u.host = ""
      then [("routes", .arr [routeFor u])]
      else [("routes", .arr [routeFor u]), ("virtualhost", vhostFor u.host)])
    := rfl

@[simp] theorem routesOf_newProxy (u : Multiplicador) :
    routesOf (newProxy u) = [routeFor u] := by
  rw [routesOf, specOf_newProxy]
  split <;> rfl

@[simp] theorem fqdnOf_newProxy (u : Multiplicador) :
    fqdnOf (newProxy u) = if u.host = "" then none else some u.host := by
  rw [fqdnOf, specOf_newProxy]
  split <;> rfl

/-- The owners after a merge. -/
def mergedOwners (u : Multiplicador) (ors : List Json) : List Json :=
  if ors.any (ownedBy u.uid) then ors else ors ++ [ownerFor u]

/-- Who has merged is an owner. -/
theorem owned_mergedOwners (u : Multiplicador) (ors : List Json) :
    (mergedOwners u ors).any (ownedBy u.uid) = true := by
  rw [mergedOwners]
  split
  · assumption
  · simp [ownedBy]

/-- The routes a merge starts from: without the old prefix, if it changed in
    the same proxy. -/
def mergeBase (u : Multiplicador) (rs : List Json) : List Json :=
  if prevProxy u = proxyNameOf u ∧ prevRoute u ≠ "" ∧ prevRoute u ≠ prefixOf u
  then rs.filter fun r => !hasPrefix (prevRoute u) r else rs

/-- The routes after a merge. -/
def mergedRoutes (u : Multiplicador) (rs : List Json) : List Json :=
  upsertRoute (prefixOf u) (routeFor u) (mergeBase u rs)

/-- The fqdn after a merge. -/
def mergedFqdn (u : Multiplicador) (f : Option String) : Option String :=
  if u.host = "" then f else some u.host

theorem routesOf_dropOldPrefix (u : Multiplicador) (o : Fields) :
    routesOf (dropOldPrefix u o) = mergeBase u (routesOf o) := by
  rw [dropOldPrefix, mergeBase]
  split
  · exact routesOf_removePrefix (prevRoute u) o
  · rfl

theorem fqdnOf_dropOldPrefix (u : Multiplicador) (o : Fields) :
    fqdnOf (dropOldPrefix u o) = fqdnOf o := by
  rw [dropOldPrefix]
  split
  · exact fqdnOf_removePrefix (prevRoute u) o
  · rfl

theorem ownersOf_dropOldPrefix (u : Multiplicador) (o : Fields) :
    ownersOf (dropOldPrefix u o) = ownersOf o := by
  rw [dropOldPrefix]
  split
  · exact ownersOf_removePrefix (prevRoute u) o
  · rfl

/-- The owner part of the merge leaves the spec alone. -/
theorem mergeOwner_spec {u : Multiplicador} {o m : Fields}
    (h : mergeOwner u o = some m) :
    ownersOf m = mergedOwners u (ownersOf o) ∧ specOf m = specOf o := by
  rw [mergeOwner] at h
  rw [mergedOwners]
  by_cases ho : (ownersOf o).any (ownedBy u.uid) = true
  · rw [if_pos ho] at h ⊢
    have hm := Option.some.inj h
    rw [← hm]
    exact ⟨rfl, rfl⟩
  · rw [if_neg ho] at h ⊢
    cases hmd : metadataOf o with
    | none => rw [hmd] at h; exact absurd h (by simp)
    | some md =>
        rw [hmd] at h
        have hm := Option.some.inj h
        rw [← hm]
        exact ⟨by simp [ownersOf, hmd], by simp⟩

/-- The route part of the merge leaves the owners alone. -/
theorem mergeSpec_spec {u : Multiplicador} {o m : Fields}
    (h : mergeSpec u o = some m) :
    ownersOf m = ownersOf o
      ∧ routesOf m = upsertRoute (prefixOf u) (routeFor u) (routesOf o)
      ∧ fqdnOf m = mergedFqdn u (fqdnOf o) := by
  rw [mergeSpec] at h
  cases hs : specOf o with
  | none => rw [hs] at h; exact absurd h (by simp)
  | some spec =>
      rw [hs] at h
      have hm := Option.some.inj h
      rw [← hm]
      by_cases hh : u.host = ""
      · refine ⟨by simp, ?_, ?_⟩
        · simp [routesOf, hh]
        · simp [fqdnOf, mergedFqdn, hh, hs, lookup_setKey_of_ne]
      · refine ⟨by simp, ?_, ?_⟩
        · simp [routesOf, hh, lookup_setKey_of_ne]
        · simp [fqdnOf, mergedFqdn, hh, vhostFor]

/-- **WHAT A MERGE DOES** to owners, routes and fqdn. -/
theorem mergeProxy_spec {u : Multiplicador} {o m : Fields}
    (h : mergeProxy u o = some m) :
    ownersOf m = mergedOwners u (ownersOf o)
      ∧ routesOf m = mergedRoutes u (routesOf o)
      ∧ fqdnOf m = mergedFqdn u (fqdnOf o) := by
  rw [mergeProxy] at h
  cases ho : mergeOwner u o with
  | none => rw [ho] at h; exact absurd h (by simp)
  | some o₁ =>
      rw [ho] at h
      obtain ⟨hown, hspec⟩ := mergeOwner_spec ho
      obtain ⟨h1, h2, h3⟩ := mergeSpec_spec h
      have hroutes : routesOf o₁ = routesOf o := by simp [routesOf, hspec]
      have hfqdn : fqdnOf o₁ = fqdnOf o := by simp [fqdnOf, hspec]
      refine ⟨?_, ?_, ?_⟩
      · rw [h1, ownersOf_dropOldPrefix, hown]
      · rw [h2, routesOf_dropOldPrefix, hroutes]
        rfl
      · rw [h3, fqdnOf_dropOldPrefix, hfqdn]

/-! ## The contents of a namespace -/

/-- The owners of the proxy at a key, none when there is no proxy. -/
def ownersAt (P : Key → Option Fields) (k : Key) : List Json :=
  ((P k).map ownersOf).getD []

/-- The routes of the proxy at a key, none when there is no proxy. -/
def routesAt (P : Key → Option Fields) (k : Key) : List Json :=
  ((P k).map routesOf).getD []

/-- The fqdn of the proxy at a key. -/
def fqdnAt (P : Key → Option Fields) (k : Key) : Option String :=
  (P k).bind fqdnOf

theorem svcNameOf_inj {a b : String} : svcNameOf a = svcNameOf b ↔ a = b := by
  constructor
  · intro h
    exact (String.append_left_inj _).mp ((String.append_left_inj _).mp h)
  · intro h
    rw [h]

/-- The route points to the service. -/
def pointsTo (svc : String) (r : Json) : Bool :=
  decide (svc ∈ serviceNames r)

@[simp] theorem pointsTo_routeFor (svc : String) (u : Multiplicador) :
    pointsTo svc (routeFor u) = decide (svc = svcNameOf u.name) := by
  simp [pointsTo]

theorem owners_leaveContent (uid route : String) (o : Option Fields) :
    ((leaveContent uid route o).map ownersOf).getD []
      = ((o.map ownersOf).getD []).filter fun r => !ownedBy uid r := by
  cases o with
  | none => rfl
  | some o =>
      show (Option.map ownersOf (if deleteOld (stripProxy uid route o) = true
        then none else some (stripProxy uid route o))).getD [] = _
      split
      · rename_i hd
        have he := (deleteOld_empty hd).1
        rw [ownersOf_stripProxy] at he
        simpa using he.symm
      · simp [ownersOf_stripProxy]

theorem routes_leaveContent (uid route : String) (o : Option Fields) :
    ((leaveContent uid route o).map routesOf).getD []
      = keptRoutes route ((o.map routesOf).getD []) := by
  cases o with
  | none =>
      show ([] : List Json) = keptRoutes route []
      rw [keptRoutes]
      split <;> rfl
  | some o =>
      show (Option.map routesOf (if deleteOld (stripProxy uid route o) = true
        then none else some (stripProxy uid route o))).getD [] = _
      split
      · rename_i hd
        have he := (deleteOld_empty hd).2
        rw [routesOf_stripProxy] at he
        simpa using he.symm
      · simp [routesOf_stripProxy]

/-- A proxy that is left keeps its fqdn or goes. -/
theorem fqdn_leaveContent {uid route h : String} {o : Option Fields}
    (hf : (leaveContent uid route o).bind fqdnOf = some h) :
    o.bind fqdnOf = some h := by
  cases o with
  | none => exact hf
  | some o =>
      rw [leaveContent] at hf
      dsimp only [Option.bind_some] at hf
      split at hf
      · exact absurd hf (by simp)
      · simpa [fqdnOf_stripProxy] using hf

/-- The owners, routes and fqdn that a create or a merge leaves. -/
theorem mergeContent_spec {u : Multiplicador} {o : Option Fields} {m : Fields}
    (h : mergeContent u o = some m) :
    ownersOf m = mergedOwners u ((o.map ownersOf).getD [])
      ∧ routesOf m = mergedRoutes u ((o.map routesOf).getD [])
      ∧ fqdnOf m = mergedFqdn u (o.bind fqdnOf) := by
  cases o with
  | none =>
      have hm := Option.some.inj h
      rw [← hm]
      refine ⟨?_, ?_, ?_⟩
      · simp [mergedOwners]
      · simp only [routesOf_newProxy, mergedRoutes, mergeBase]
        split <;> rfl
      · simp [mergedFqdn]
  | some o =>
      simpa using mergeProxy_spec h

/-! ## The two moves of a reconcile, seen from outside -/

section Moves

variable (u : Multiplicador) (P : Key → Option Fields) (q : Key)

theorem ownersAt_departProxies :
    ownersAt (departProxies u P) q
      = if departs u = true ∧ q = oldKey u
        then (ownersAt P q).filter fun r => !ownedBy u.uid r
        else ownersAt P q := by
  rw [departProxies]
  cases hd : departs u with
  | false => simp
  | true =>
      by_cases hq : q = oldKey u
      · subst hq
        simpa [ownersAt] using
          owners_leaveContent u.uid (prevRoute u) (P (oldKey u))
      · simp [ownersAt, hq]

theorem routesAt_departProxies :
    routesAt (departProxies u P) q
      = if departs u = true ∧ q = oldKey u
        then keptRoutes (prevRoute u) (routesAt P q) else routesAt P q := by
  rw [departProxies]
  cases hd : departs u with
  | false => simp
  | true =>
      by_cases hq : q = oldKey u
      · subst hq
        simpa [routesAt] using
          routes_leaveContent u.uid (prevRoute u) (P (oldKey u))
      · simp [routesAt, hq]

variable {u P}

theorem ownersAt_installProxies {m : Fields}
    (h : mergeContent u (P (targetKey u)) = some m) :
    ownersAt (installProxies u P) q
      = if q = targetKey u then mergedOwners u (ownersAt P q)
        else ownersAt P q := by
  rw [installProxies_ok h]
  by_cases hq : q = targetKey u
  · subst hq
    simpa [ownersAt, targetKey] using (mergeContent_spec h).1
  · have hq' : q ≠ (nsOf u, proxyNameOf u) := hq
    simp [ownersAt, hq, Function.update_of_ne hq']

theorem routesAt_installProxies {m : Fields}
    (h : mergeContent u (P (targetKey u)) = some m) :
    routesAt (installProxies u P) q
      = if q = targetKey u then mergedRoutes u (routesAt P q)
        else routesAt P q := by
  rw [installProxies_ok h]
  by_cases hq : q = targetKey u
  · subst hq
    simpa [routesAt, targetKey] using (mergeContent_spec h).2.1
  · have hq' : q ≠ (nsOf u, proxyNameOf u) := hq
    simp [routesAt, hq, Function.update_of_ne hq']

theorem fqdnAt_installProxies {m : Fields}
    (h : mergeContent u (P (targetKey u)) = some m) :
    fqdnAt (installProxies u P) q
      = if q = targetKey u then mergedFqdn u (fqdnAt P q) else fqdnAt P q := by
  rw [installProxies_ok h]
  by_cases hq : q = targetKey u
  · subst hq
    simpa [fqdnAt, targetKey] using (mergeContent_spec h).2.2
  · have hq' : q ≠ (nsOf u, proxyNameOf u) := hq
    simp [fqdnAt, hq, Function.update_of_ne hq']

end Moves

end ProxyView
