import KubernetesUpRunning.Idempotence
import KubernetesUpRunning.TwoParties

/-! # The moves of two reconciles

    A reconcile leaves the proxy it has recorded and joins the one it is to be
    served by.  Here are the two moves of two CRs on the same proxies: leaving
    commutes with leaving, joining commutes with whatever happens to another
    proxy, and joining a proxy that another CR leaves commutes with that up to
    the content the operator does not manage, unless the prefix that is given
    up is the one that is taken. -/

namespace ProxyMoves

open AssocMap ApiServer GoJson Idempotence KubeObjects ProxyShape ProxyView
open Reconcile ReconcileEffect ReconcileRun TwoParties

/-! ## Leaving and leaving -/

theorem lookup_of_metadataOf {o md : Fields} (h : metadataOf o = some md) :
    o.lookup "metadata" = some (.obj md) := asMap_eq_some.mp h

theorem lookup_of_specOf {o spec : Fields} (h : specOf o = some spec) :
    o.lookup "spec" = some (.obj spec) := asMap_eq_some.mp h

theorem removeOwner_comm (uid uid' : String) (o : Fields) :
    removeOwner uid (removeOwner uid' o) = removeOwner uid' (removeOwner uid o) := by
  unfold removeOwner
  cases hmd : metadataOf o with
  | none => simp [hmd]
  | some md =>
      cases hors : asSlice (md.lookup "ownerReferences") with
      | none => simp [hmd, hors]
      | some ors => simp [hors, List.filter_filter, Bool.and_comm]

theorem removePrefix_comm (p p' : String) (o : Fields) :
    removePrefix p (removePrefix p' o) = removePrefix p' (removePrefix p o) := by
  unfold removePrefix
  cases hspec : specOf o with
  | none => simp [hspec]
  | some spec =>
      cases hrts : asSlice (spec.lookup "routes") with
      | none => simp [hspec, hrts]
      | some rts => simp [hrts, List.filter_filter, Bool.and_comm]

theorem removeOwner_removePrefix (uid p : String) (o : Fields) :
    removeOwner uid (removePrefix p o) = removePrefix p (removeOwner uid o) := by
  unfold removeOwner removePrefix
  cases hmd : metadataOf o with
  | none =>
      cases hspec : specOf o with
      | none => simp [hmd]
      | some spec =>
          cases hrts : asSlice (spec.lookup "routes") with
          | none => simp [hmd, hrts]
          | some rts => simp [hmd, hrts]
  | some md =>
      cases hspec : specOf o with
      | none =>
          cases hors : asSlice (md.lookup "ownerReferences") with
          | none => simp [hmd, hors, hspec]
          | some ors => simp [hmd, hors, hspec]
      | some spec =>
          cases hors : asSlice (md.lookup "ownerReferences") with
          | none =>
              cases hrts : asSlice (spec.lookup "routes") with
              | none => simp [hmd, hors, hspec, hrts]
              | some rts => simp [hmd, hors, hspec, hrts]
          | some ors =>
              cases hrts : asSlice (spec.lookup "routes") with
              | none => simp [hmd, hors, hspec, hrts]
              | some rts =>
                  simp only [metadataOf_setSpec, specOf_setMetadata, hmd, hspec,
                    hors, hrts]
                  exact setKey_comm (by decide) _ _ o
                    ⟨_, lookup_of_metadataOf hmd⟩ ⟨_, lookup_of_specOf hspec⟩

theorem stripProxy_comm (uid route uid' route' : String) (o : Fields) :
    stripProxy uid route (stripProxy uid' route' o)
      = stripProxy uid' route' (stripProxy uid route o) := by
  unfold stripProxy
  by_cases h : route = ""
  · by_cases h' : route' = ""
    · simp only [h, h', if_pos]
      exact removeOwner_comm uid uid' o
    · simp only [h, if_pos, if_neg h', removeOwner_removePrefix]
      rw [removeOwner_comm]
  · by_cases h' : route' = ""
    · simp only [h', if_pos, if_neg h, removeOwner_removePrefix]
      rw [removeOwner_comm]
    · simp only [if_neg h, if_neg h', removeOwner_removePrefix]
      rw [removeOwner_comm, removePrefix_comm]

/-- A proxy that is to be deleted is still to be deleted when another CR has
    left it. -/
theorem deleteOld_stripProxy {o : Fields} (h : deleteOld o = true)
    (uid route : String) : deleteOld (stripProxy uid route o) = true := by
  obtain ⟨hown, hrts⟩ := deleteOld_empty h
  have hown' : removeOwner uid o = o :=
    removeOwner_eq_self fun r hr => absurd hr (by simp [hown])
  rw [stripProxy]
  rw [hown']
  split
  · exact h
  · rw [removePrefix_eq_self fun r hr => absurd hr (by simp [hrts])]
    exact h

theorem leaveContent_comm (uid route uid' route' : String)
    (o : Option Fields) :
    leaveContent uid route (leaveContent uid' route' o)
      = leaveContent uid' route' (leaveContent uid route o) := by
  cases o with
  | none => rfl
  | some o =>
      have hcomm := stripProxy_comm uid route uid' route' o
      by_cases hd : deleteOld (stripProxy uid route o) = true
      · have hboth : deleteOld (stripProxy uid route (stripProxy uid' route' o))
            = true := by
          rw [hcomm]
          exact deleteOld_stripProxy hd uid' route'
        by_cases hd' : deleteOld (stripProxy uid' route' o) = true
        · simp [leaveContent, hd, hd']
        · simp [leaveContent, hd, hd', hboth]
      · by_cases hd' : deleteOld (stripProxy uid' route' o) = true
        · have hboth : deleteOld
              (stripProxy uid' route' (stripProxy uid route o)) = true := by
            rw [← hcomm]
            exact deleteOld_stripProxy hd' uid route
          simp [leaveContent, hd, hd', hboth]
        · simp [leaveContent, hd, hd', hcomm]

/-! ## The two moves as moves on one proxy -/

/-- What leaving makes of the recorded proxy. -/
def leaveAt (u : Multiplicador) (o : Option Fields) : Option Fields :=
  leaveContent u.uid (prevRoute u) o

/-- What joining makes of the target proxy; a panic leaves it. -/
def joinAt (u : Multiplicador) (o : Option Fields) : Option Fields :=
  (mergeContent u o).or o

section Moves

variable {u w : Multiplicador} {P : Key → Option Fields}

theorem departProxies_of_departs (h : departs u = true) :
    departProxies u P = moveAt (oldKey u) (leaveAt u) P := if_pos h

theorem departProxies_of_not (h : departs u = false) :
    departProxies u P = P := by
  rw [departProxies, h]
  rfl

theorem joinProxies_of_joins (h : joins u = true) :
    joinProxies u P = moveAt (targetKey u) (joinAt u) P := by
  rw [joinProxies, if_pos h]
  show installProxies u P = Function.update P (nsOf u, proxyNameOf u)
    ((mergeContent u (P (nsOf u, proxyNameOf u))).or
      (P (nsOf u, proxyNameOf u)))
  cases hm : mergeContent u (P (nsOf u, proxyNameOf u)) with
  | none =>
      rw [installProxies_panic hm]
      exact (Function.update_eq_self _ _).symm
  | some o => exact installProxies_ok hm

theorem joinProxies_of_not (h : joins u = false) : joinProxies u P = P := by
  rw [joinProxies, h]
  rfl

/-- `u` joins the proxy that `w` leaves. -/
def Enters (u w : Multiplicador) : Prop :=
  joins u = true ∧ departs w = true ∧ targetKey u = oldKey w

/-- Both join the same proxy. -/
def Meets (u w : Multiplicador) : Prop :=
  joins u = true ∧ joins w = true ∧ targetKey u = targetKey w

theorem departProxies_idem (u : Multiplicador) (P : Key → Option Fields) :
    departProxies u (departProxies u P) = departProxies u P := by
  cases hd : departs u with
  | false => rw [departProxies_of_not hd]
  | true =>
      rw [departProxies_of_departs hd, departProxies_of_departs hd,
        moveAt_moveAt]
      congr 1
      funext o
      exact leaveContent_leaveContent u.uid (prevRoute u) o

theorem departProxies_comm (u w : Multiplicador) (P : Key → Option Fields) :
    departProxies u (departProxies w P)
      = departProxies w (departProxies u P) := by
  cases hd : departs u with
  | false => rw [departProxies_of_not hd, departProxies_of_not hd]
  | true =>
      cases hd' : departs w with
      | false => rw [departProxies_of_not hd', departProxies_of_not hd']
      | true =>
          rw [departProxies_of_departs hd, departProxies_of_departs hd,
            departProxies_of_departs hd', departProxies_of_departs hd']
          by_cases hk : oldKey u = oldKey w
          · rw [hk, moveAt_moveAt, moveAt_moveAt]
            congr 1
            funext o
            exact leaveContent_comm u.uid (prevRoute u) w.uid (prevRoute w) o
          · exact moveAt_comm hk _ _ P

theorem joinProxies_departProxies (h : ¬ Enters u w)
    (P : Key → Option Fields) :
    joinProxies u (departProxies w P) = departProxies w (joinProxies u P) := by
  cases hj : joins u with
  | false => rw [joinProxies_of_not hj, joinProxies_of_not hj]
  | true =>
      cases hd : departs w with
      | false => rw [departProxies_of_not hd, departProxies_of_not hd]
      | true =>
          rw [joinProxies_of_joins hj, joinProxies_of_joins hj,
            departProxies_of_departs hd, departProxies_of_departs hd]
          exact moveAt_comm (fun hk => h ⟨hj, hd, hk⟩) _ _ P

theorem joinProxies_comm (h : ¬ Meets u w) (P : Key → Option Fields) :
    joinProxies u (joinProxies w P) = joinProxies w (joinProxies u P) := by
  cases hj : joins u with
  | false => rw [joinProxies_of_not hj, joinProxies_of_not hj]
  | true =>
      cases hj' : joins w with
      | false => rw [joinProxies_of_not hj', joinProxies_of_not hj']
      | true =>
          rw [joinProxies_of_joins hj, joinProxies_of_joins hj,
            joinProxies_of_joins hj', joinProxies_of_joins hj']
          exact moveAt_comm (fun hk => h ⟨hj, hj', hk⟩) _ _ P

end Moves

/-! ## The same but for order and for what is not managed -/

/-- The same proxy, up to the order of owners and routes. -/
structure AlikeAt (o o' : Option Fields) : Prop where
  gone : o = none ↔ o' = none
  fqdn : o.bind fqdnOf = o'.bind fqdnOf
  owners : ((o.map ownersOf).getD []).Perm ((o'.map ownersOf).getD [])
  routes : ((o.map routesOf).getD []).Perm ((o'.map routesOf).getD [])

/-- The same proxies, up to the order of their owners and routes. -/
def Alike (P P' : Key → Option Fields) : Prop := ∀ q, AlikeAt (P q) (P' q)

theorem AlikeAt.refl (o : Option Fields) : AlikeAt o o :=
  ⟨Iff.rfl, rfl, List.Perm.refl _, List.Perm.refl _⟩

theorem AlikeAt.symm {o o' : Option Fields} (h : AlikeAt o o') :
    AlikeAt o' o :=
  ⟨h.gone.symm, h.fqdn.symm, h.owners.symm, h.routes.symm⟩

theorem AlikeAt.trans {o o' o'' : Option Fields} (h : AlikeAt o o')
    (h' : AlikeAt o' o'') : AlikeAt o o'' :=
  ⟨h.gone.trans h'.gone, h.fqdn.trans h'.fqdn, h.owners.trans h'.owners,
    h.routes.trans h'.routes⟩

theorem alikeAt_of_some {x y : Fields} (hf : fqdnOf x = fqdnOf y)
    (ho : ownersOf x = ownersOf y) (hr : routesOf x = routesOf y) :
    AlikeAt (some x) (some y) := by
  refine ⟨by simp, hf, ?_, ?_⟩
  · show (ownersOf x).Perm (ownersOf y)
    rw [ho]
  · show (routesOf x).Perm (routesOf y)
    rw [hr]

/-! ## Leaving what another CR joins -/

/-- Replacing or appending a route does not notice routes that are filtered out
    by their prefix anyhow. -/
theorem filter_upsertRoute_of_false {f : Json → Bool} {p : String}
    {route : Json} (hf : ∀ r, firstPrefix r = some p → f r = f route)
    (hno : f route = false) (rs : List Json) :
    (upsertRoute p route rs).filter f = rs.filter f := by
  induction rs with
  | nil => simp [upsertRoute, hno]
  | cons a rs ih =>
      rw [upsertRoute]
      split
      · rename_i ha
        have hfa : f a = false := (hf a (hasPrefix_iff.mp ha)).trans hno
        simp [hno, hfa]
      · rw [List.filter_cons, List.filter_cons, ih]

theorem filter_upsertRoute_filter {f : Json → Bool} {p : String}
    {route : Json} (hf : ∀ r, firstPrefix r = some p → f r = f route)
    (rs : List Json) :
    (upsertRoute p route (rs.filter f)).filter f
      = (upsertRoute p route rs).filter f := by
  cases hno : f route with
  | false =>
      rw [filter_upsertRoute_of_false hf hno,
        filter_upsertRoute_of_false hf hno, List.filter_filter]
      simp
  | true =>
      induction rs with
      | nil => rfl
      | cons a rs ih =>
          by_cases ha : hasPrefix p a = true
          · have hfa : f a = true := (hf a (hasPrefix_iff.mp ha)).trans hno
            simp [upsertRoute, ha, hfa, hno, List.filter_filter]
          · cases hfa : f a with
            | true => simp [upsertRoute, ha, hfa, ih]
            | false => simp [upsertRoute, ha, hfa, ih]

theorem keptRoutes_upsertRoute (prev : String) {p : String} {route : Json}
    (hr : firstPrefix route = some p) (rs : List Json) :
    keptRoutes prev (upsertRoute p route (keptRoutes prev rs))
      = keptRoutes prev (upsertRoute p route rs) := by
  unfold keptRoutes
  split
  · rfl
  · refine filter_upsertRoute_filter ?_ rs
    intro r hp
    simp [hasPrefix, hp, hr]

/-- `w` does not take the prefix that `u` gives up. -/
def FreeFor (u w : Multiplicador) : Prop :=
  prevRoute u = "" ∨ prefixOf w ≠ prevRoute u

theorem keptRoutes_upsertRoute_of_free {u w : Multiplicador}
    (h : FreeFor u w) (rs : List Json) :
    keptRoutes (prevRoute u) (upsertRoute (prefixOf w) (routeFor w)
        (keptRoutes (prevRoute u) rs))
      = upsertRoute (prefixOf w) (routeFor w) (keptRoutes (prevRoute u) rs) := by
  by_cases hp : prevRoute u = ""
  · rw [hp]
    rfl
  · have hne : prefixOf w ≠ prevRoute u := h.resolve_left hp
    conv => lhs; rw [keptRoutes, if_neg hp]
    refine List.filter_eq_self.mpr ?_
    intro r hr
    rcases mem_upsertRoute hr with rfl | hr
    · simp [hasPrefix, hne]
    · simpa [hasPrefix, hp] using (mem_keptRoutes.mp hr).2

/-- Other owners do not mind who leaves. -/
theorem filter_mergedOwners {u w : Multiplicador} (huid : u.uid ≠ w.uid)
    (ors : List Json) :
    (mergedOwners w (ors.filter fun r => !ownedBy u.uid r)).filter
        (fun r => !ownedBy u.uid r)
      = (mergedOwners w ors).filter fun r => !ownedBy u.uid r := by
  have hother : ∀ r, ownedBy w.uid r = true → ownedBy u.uid r = false := by
    intro r hr
    rw [ownedBy, decide_eq_false_iff_not, ownedBy_iff.mp hr]
    simpa using huid.symm
  have hany : (ors.filter fun r => !ownedBy u.uid r).any (ownedBy w.uid)
      = ors.any (ownedBy w.uid) := by
    rw [Bool.eq_iff_iff, List.any_eq_true, List.any_eq_true]
    constructor
    · rintro ⟨r, hr, hw⟩
      exact ⟨r, (List.mem_filter.mp hr).1, hw⟩
    · rintro ⟨r, hr, hw⟩
      exact ⟨r, List.mem_filter.mpr ⟨hr, by simp [hother r hw]⟩, hw⟩
  unfold mergedOwners
  rw [hany]
  split
  · simp [List.filter_filter]
  · simp [List.filter_filter]

/-- An owner that does not leave keeps the proxy. -/
theorem leaveAt_some {u w : Multiplicador} (huid : u.uid ≠ w.uid) {x : Fields}
    (h : (ownersOf x).any (ownedBy w.uid) = true) :
    leaveAt u (some x) = some (stripProxy u.uid (prevRoute u) x) := by
  obtain ⟨r, hr, hw⟩ := List.any_eq_true.mp h
  have hu : ownedBy u.uid r = false := by
    rw [ownedBy, decide_eq_false_iff_not, ownedBy_iff.mp hw]
    simpa using huid.symm
  have hdel : ¬ deleteOld (stripProxy u.uid (prevRoute u) x) = true := by
    intro hdel
    have hnil := (deleteOld_empty hdel).1
    rw [ownersOf_stripProxy] at hnil
    have hmem : r ∈ (ownersOf x).filter fun r => !ownedBy u.uid r :=
      List.mem_filter.mpr ⟨hr, by simp [hu]⟩
    rw [hnil] at hmem
    exact absurd hmem List.not_mem_nil
  simp [leaveAt, leaveContent, hdel]

/-! ## When a merge panics -/

theorem isSome_specOf_removePrefix (p : String) (o : Fields) :
    (specOf (removePrefix p o)).isSome = (specOf o).isSome := by
  cases hs : specOf o with
  | none => rw [removePrefix, hs]; exact congrArg Option.isSome hs
  | some spec => exact spec_removePrefix (by rw [hs]; rfl)

theorem isSome_metadataOf_removeOwner (uid : String) (o : Fields) :
    (metadataOf (removeOwner uid o)).isSome = (metadataOf o).isSome := by
  cases hm : metadataOf o with
  | none => rw [removeOwner, hm]; exact congrArg Option.isSome hm
  | some md => exact metadata_removeOwner (by rw [hm]; rfl)

theorem isSome_specOf_stripProxy (uid route : String) (o : Fields) :
    (specOf (stripProxy uid route o)).isSome = (specOf o).isSome := by
  rw [stripProxy]
  split
  · rw [spec_removeOwner]
  · rw [isSome_specOf_removePrefix, spec_removeOwner]

theorem isSome_metadataOf_stripProxy (uid route : String) (o : Fields) :
    (metadataOf (stripProxy uid route o)).isSome = (metadataOf o).isSome := by
  rw [stripProxy]
  split
  · exact isSome_metadataOf_removeOwner uid o
  · rw [metadata_removePrefix, isSome_metadataOf_removeOwner]

/-- A merge needs a spec, and a metadata if the owner is not there yet. -/
theorem isSome_mergeProxy (w : Multiplicador) (o : Fields) :
    (mergeProxy w o).isSome = ((specOf o).isSome
      && ((ownersOf o).any (ownedBy w.uid) || (metadataOf o).isSome)) := by
  have hspec : ∀ o' : Fields, specOf o' = specOf o →
      (mergeSpec w (dropOldPrefix w o')).isSome = (specOf o).isSome := by
    intro o' ho'
    have hdrop : (specOf (dropOldPrefix w o')).isSome = (specOf o).isSome := by
      rw [dropOldPrefix]
      split
      · rw [isSome_specOf_removePrefix, ho']
      · rw [ho']
    rw [← hdrop, mergeSpec]
    cases specOf (dropOldPrefix w o') <;> rfl
  rw [mergeProxy]
  cases hm : mergeOwner w o with
  | some o' =>
      rw [Option.bind_some, hspec o' (mergeOwner_spec hm).2]
      have hown : ((ownersOf o).any (ownedBy w.uid) || (metadataOf o).isSome)
          = true := by
        rw [mergeOwner] at hm
        split at hm
        · rename_i h
          simp [h]
        · cases hmd : metadataOf o with
          | none => rw [hmd] at hm; exact absurd hm (by simp)
          | some md => simp
      rw [hown, Bool.and_true]
  | none =>
      rw [mergeOwner] at hm
      split at hm
      · exact absurd hm (by simp)
      · rename_i h
        cases hmd : metadataOf o with
        | none => simp [h]
        | some md => rw [hmd] at hm; exact absurd hm (by simp)

/-- Another CR merges into a proxy that one has left just as before. -/
theorem isSome_mergeProxy_stripProxy {u w : Multiplicador}
    (huid : u.uid ≠ w.uid) (route : String) (o : Fields) :
    (mergeProxy w (stripProxy u.uid route o)).isSome
      = (mergeProxy w o).isSome := by
  have hany : (ownersOf (stripProxy u.uid route o)).any (ownedBy w.uid)
      = (ownersOf o).any (ownedBy w.uid) := by
    rw [ownersOf_stripProxy, Bool.eq_iff_iff, List.any_eq_true,
      List.any_eq_true]
    constructor
    · rintro ⟨r, hr, hw⟩
      exact ⟨r, (List.mem_filter.mp hr).1, hw⟩
    · rintro ⟨r, hr, hw⟩
      refine ⟨r, List.mem_filter.mpr ⟨hr, ?_⟩, hw⟩
      rw [ownedBy, ownedBy_iff.mp hw]
      simpa using huid.symm
  rw [isSome_mergeProxy, isSome_mergeProxy, isSome_specOf_stripProxy,
    isSome_metadataOf_stripProxy, hany]

/-! ## Joining what another CR leaves -/

/-- If `u` leaving deletes the proxy, `w` can make it anew: it has a spec to
    merge into, and the fqdn that is lost is none or the one that `w` sets. -/
def Renewable (u w : Multiplicador) (o : Option Fields) : Prop :=
  ∀ x, o = some x → deleteOld (stripProxy u.uid (prevRoute u) x) = true →
    (specOf x).isSome = true ∧ (w.host ≠ "" ∨ fqdnOf x = none)

theorem mergedRoutes_of_moves {w : Multiplicador}
    (hw : prevProxy w ≠ proxyNameOf w) (rs : List Json) :
    mergedRoutes w rs = upsertRoute (prefixOf w) (routeFor w) rs := by
  rw [mergedRoutes, mergeBase, if_neg]
  rintro ⟨h, -⟩
  exact hw h

section Joining

variable {u w : Multiplicador} {o : Option Fields} {m : Fields}

theorem joinAt_of_none (h : mergeContent w o = none) : joinAt w o = o := by
  rw [joinAt, h]
  rfl

theorem joinAt_of_some (h : mergeContent w o = some m) :
    joinAt w o = some m := by
  rw [joinAt, h]
  rfl

/-- What `w` has joined is kept when `u` leaves it. -/
theorem leaveAt_joined (huid : u.uid ≠ w.uid) (h : mergeContent w o = some m) :
    leaveAt u (some m) = some (stripProxy u.uid (prevRoute u) m) := by
  refine leaveAt_some huid ?_
  rw [(mergeContent_spec h).1]
  exact owned_mergedOwners w _

/-- Leaving again finds nothing, if the prefix that was given up has not been
    taken. -/
theorem leaveAt_joinAt_of_free (huid : u.uid ≠ w.uid)
    (hw : prevProxy w ≠ proxyNameOf w) (hfree : FreeFor u w)
    (o : Option Fields) :
    AlikeAt (leaveAt u (joinAt w (leaveAt u o))) (joinAt w (leaveAt u o)) := by
  cases hm : mergeContent w (leaveAt u o) with
  | none =>
      rw [joinAt_of_none hm]
      rw [show leaveAt u (leaveAt u o) = leaveAt u o from
        leaveContent_leaveContent u.uid (prevRoute u) o]
      exact AlikeAt.refl _
  | some m =>
      obtain ⟨hown, hrts, -⟩ := mergeContent_spec hm
      rw [joinAt_of_some hm, leaveAt_joined huid hm]
      refine alikeAt_of_some (fqdnOf_stripProxy _ _ m) ?_ ?_
      · rw [ownersOf_stripProxy, hown]
        rw [show ((leaveAt u o).map ownersOf).getD []
          = ((o.map ownersOf).getD []).filter fun r => !ownedBy u.uid r from
          owners_leaveContent u.uid (prevRoute u) o]
        refine List.filter_eq_self.mpr ?_
        intro r hr
        rcases mem_mergedOwners hr with rfl | hr
        · simpa [ownedBy] using huid.symm
        · exact (List.mem_filter.mp hr).2
      · rw [routesOf_stripProxy, hrts, mergedRoutes_of_moves hw]
        rw [show ((leaveAt u o).map routesOf).getD []
          = keptRoutes (prevRoute u) ((o.map routesOf).getD []) from
          routes_leaveContent u.uid (prevRoute u) o]
        exact keptRoutes_upsertRoute_of_free hfree _

/-- Leaving makes of a merge into what was left and of a merge into what was
    there the same, when the fqdn is. -/
theorem leaveAt_joinAt_of_merged {m' : Fields} (huid : u.uid ≠ w.uid)
    (hw : prevProxy w ≠ proxyNameOf w)
    (hm : mergeContent w (leaveAt u o) = some m)
    (hm' : mergeContent w o = some m') (hfqdn : fqdnOf m = fqdnOf m') :
    AlikeAt (leaveAt u (joinAt w (leaveAt u o))) (leaveAt u (joinAt w o)) := by
  obtain ⟨hown, hrts, -⟩ := mergeContent_spec hm
  obtain ⟨hown', hrts', -⟩ := mergeContent_spec hm'
  rw [joinAt_of_some hm, joinAt_of_some hm', leaveAt_joined huid hm,
    leaveAt_joined huid hm']
  refine alikeAt_of_some ?_ ?_ ?_
  · rw [fqdnOf_stripProxy, fqdnOf_stripProxy, hfqdn]
  · rw [ownersOf_stripProxy, ownersOf_stripProxy, hown, hown']
    rw [show ((leaveAt u o).map ownersOf).getD []
      = ((o.map ownersOf).getD []).filter fun r => !ownedBy u.uid r from
      owners_leaveContent u.uid (prevRoute u) o]
    exact filter_mergedOwners huid _
  · rw [routesOf_stripProxy, routesOf_stripProxy, hrts, hrts',
      mergedRoutes_of_moves hw, mergedRoutes_of_moves hw]
    rw [show ((leaveAt u o).map routesOf).getD []
      = keptRoutes (prevRoute u) ((o.map routesOf).getD []) from
      routes_leaveContent u.uid (prevRoute u) o]
    exact keptRoutes_upsertRoute _ (firstPrefix_routeFor w) _

/-- Whether `u` has left before `w` joins or not, once `u` has left all is the
    same. -/
theorem leaveAt_joinAt_leaveAt (huid : u.uid ≠ w.uid)
    (hw : prevProxy w ≠ proxyNameOf w) (hre : Renewable u w o) :
    AlikeAt (leaveAt u (joinAt w (leaveAt u o))) (leaveAt u (joinAt w o)) := by
  cases o with
  | none => exact AlikeAt.refl _
  | some x =>
      by_cases hdel : deleteOld (stripProxy u.uid (prevRoute u) x) = true
      · -- the proxy is gone, so `w` makes a new one instead of merging
        have hgone : leaveAt u (some x) = none := by
          simp [leaveAt, leaveContent, hdel]
        obtain ⟨hspec, hfqdn⟩ := hre x rfl hdel
        have hmeta : (metadataOf x).isSome = true := by
          rw [← isSome_metadataOf_stripProxy u.uid (prevRoute u) x]
          cases hmd : metadataOf (stripProxy u.uid (prevRoute u) x) with
          | none =>
              rw [deleteOld, hmd] at hdel
              exact absurd hdel (by simp)
          | some md => rfl
        have hsome : (mergeProxy w x).isSome = true := by
          rw [isSome_mergeProxy, hspec, hmeta]
          simp
        obtain ⟨m', hm'⟩ := Option.isSome_iff_exists.mp hsome
        have hm : mergeContent w (leaveAt u (some x)) = some (newProxy w) := by
          rw [hgone]
          rfl
        refine leaveAt_joinAt_of_merged huid hw hm hm' ?_
        rw [fqdnOf_newProxy, (mergeProxy_spec hm').2.2, mergedFqdn]
        rcases hfqdn with hh | hf
        · rw [if_neg hh, if_neg hh]
        · rw [hf]
      · have hleft : leaveAt u (some x)
            = some (stripProxy u.uid (prevRoute u) x) := by
          simp [leaveAt, leaveContent, hdel]
        have hiff := isSome_mergeProxy_stripProxy huid (prevRoute u) x
        cases hm' : mergeProxy w x with
        | none =>
            have hm : mergeProxy w (stripProxy u.uid (prevRoute u) x) = none := by
              rw [hm'] at hiff
              exact Option.isNone_iff_eq_none.mp (by simpa using hiff)
            rw [joinAt_of_none (o := some x) hm', hleft,
              joinAt_of_none (o := some _) hm, ← hleft]
            rw [show leaveAt u (leaveAt u (some x)) = leaveAt u (some x) from
              leaveContent_leaveContent u.uid (prevRoute u) (some x)]
            exact AlikeAt.refl _
        | some m' =>
            rw [hm'] at hiff
            obtain ⟨m, hm⟩ := Option.isSome_iff_exists.mp hiff
            have hmc : mergeContent w (leaveAt u (some x)) = some m := by
              rw [hleft]
              exact hm
            refine leaveAt_joinAt_of_merged huid hw hmc hm' ?_
            rw [(mergeProxy_spec hm).2.2, (mergeProxy_spec hm').2.2,
              fqdnOf_stripProxy]

/-- `w` may join before `u` leaves or after. -/
theorem joinAt_leaveAt (huid : u.uid ≠ w.uid)
    (hw : prevProxy w ≠ proxyNameOf w) (hfree : FreeFor u w)
    (hre : Renewable u w o) :
    AlikeAt (joinAt w (leaveAt u o)) (leaveAt u (joinAt w o)) :=
  (leaveAt_joinAt_of_free huid hw hfree o).symm.trans
    (leaveAt_joinAt_leaveAt huid hw hre)

end Joining

end ProxyMoves
