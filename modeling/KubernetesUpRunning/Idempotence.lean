import KubernetesUpRunning.ProxyShape

/-! # A second reconcile finds nothing to repair

    Each repair of the operator is idempotent: the Deployment, the Service and
    the HTTPProxies that one reconcile leaves are, to the next one, already as
    they should be.  So are the three writes to the CR itself: annotations,
    then the record with the finalizer, then the status; each of them leaves
    what the earlier ones wrote. -/

namespace Idempotence

open AssocMap ApiServer GoJson KubeObjects ProxyShape ProxyView Reconcile
open ReconcileEffect ReconcileRun VersionedStore

/-! ## The Deployment -/

/-- Setting MULTIPLIER a second time changes nothing. -/
theorem repairEnv_repairEnv (value : String) (env : List EnvVar) :
    repairEnv value (repairEnv value env) = repairEnv value env := by
  induction env with
  | nil => simp [repairEnv]
  | cons e rest ih =>
      by_cases he : e.name = "MULTIPLIER"
      · simp [repairEnv, he]
      · simp [repairEnv, he, ih]

theorem repairContainers_repairContainers (value : String)
    (cts : List Container) :
    repairContainers value (repairContainers value cts)
      = repairContainers value cts := by
  cases cts with
  | nil => rfl
  | cons ct rest => simp [repairContainers, repairEnv_repairEnv]

/-- An owner reference that was appended is found. -/
theorem hasOwner_append (u : Multiplicador) (ors : List OwnerReference) :
    hasOwner u.uid (ors ++ [newControllerRef u (gvkOf u)]) = true := by
  simp [hasOwner, newControllerRef]

theorem hasOwner_repaired (u : Multiplicador) (ors : List OwnerReference) :
    hasOwner u.uid (if hasOwner u.uid ors then ors
      else ors ++ [newControllerRef u (gvkOf u)]) = true := by
  split
  · assumption
  · exact hasOwner_append u ors

/-- A Deployment that passes the three tests needs no repair. -/
theorem repairDeployment_eq_self {u : Multiplicador} {d : Deployment}
    (hreplicas : d.replicas = some u.replicas)
    (hown : hasOwner u.uid d.ownerReferences = true)
    (henv : repairContainers (sprintD u.multiplicador) d.containers
      = d.containers) : repairDeployment u d = d := by
  rw [repairDeployment, if_pos hown, henv, ← hreplicas]

/-- The Deployment that a reconcile leaves needs no repair. -/
theorem repairDeployment_deploymentAfter (u : Multiplicador)
    (d : Option Deployment) :
    repairDeployment u (deploymentAfter u d) = deploymentAfter u d := by
  cases d with
  | none =>
      refine repairDeployment_eq_self rfl ?_ ?_
      · simp [deploymentAfter, newDeployment, hasOwner, newControllerRef]
      · simp [deploymentAfter, newDeployment, makeDeployment,
          repairContainers, repairEnv]
  | some d =>
      refine repairDeployment_eq_self rfl ?_ ?_
      · exact hasOwner_repaired u d.ownerReferences
      · exact repairContainers_repairContainers _ d.containers

/-! ## The Service -/

theorem sameMap_self {K V : Type} [DecidableEq K] [DecidableEq V]
    (m : List (K × V)) : sameMap m m = true := by
  simp [sameMap]

/-- A Service that passes the three tests needs no repair. -/
theorem repairService_eq_self {u : Multiplicador} {s : Service}
    (hsel : sameMap s.selector (labelsOf (deplNameOf u.name)) = true)
    (hports : portOk s.ports = true)
    (hown : hasOwner u.uid s.ownerReferences = true) :
    repairService u s = s := by
  rw [repairService, if_pos hsel, if_pos hports, if_pos hown]

/-- The Service that a reconcile leaves needs no repair. -/
theorem repairService_serviceAfter (u : Multiplicador) (s : Option Service) :
    repairService u (serviceAfter u s) = serviceAfter u s := by
  cases s with
  | none =>
      refine repairService_eq_self (sameMap_self _) rfl ?_
      simp [serviceAfter, newService, hasOwner, newControllerRef]
  | some s =>
      refine repairService_eq_self ?_ ?_ ?_
      · show sameMap (if _ then _ else _) _ = true
        split
        · assumption
        · exact sameMap_self _
      · show portOk (if _ then _ else _) = true
        split
        · assumption
        · rfl
      · exact hasOwner_repaired u s.ownerReferences

/-! ## Leaving an HTTPProxy twice -/

/-- Nothing to take out of the owners. -/
theorem removeOwner_eq_self {uid : String} {o : Fields}
    (h : ∀ r ∈ ownersOf o, ownedBy uid r = false) : removeOwner uid o = o := by
  rw [removeOwner]
  cases hmd : metadataOf o with
  | none => rfl
  | some md =>
      dsimp only
      cases hors : asSlice (md.lookup "ownerReferences") with
      | none => rfl
      | some ors =>
          have hall : ∀ r ∈ ors, ownedBy uid r = false := by
            intro r hr
            exact h r (by simpa [ownersOf, hmd, hors] using hr)
          have hsame : (ors.filter fun r => !ownedBy uid r) = ors :=
            List.filter_eq_self.mpr fun r hr => by simp [hall r hr]
          dsimp only
          rw [hsame, setKey_eq_self (asSlice_eq_some.mp hors),
            setKey_eq_self (asMap_eq_some.mp hmd)]

/-- Nothing to take out of the routes. -/
theorem removePrefix_eq_self {p : String} {o : Fields}
    (h : ∀ r ∈ routesOf o, hasPrefix p r = false) : removePrefix p o = o := by
  rw [removePrefix]
  cases hspec : specOf o with
  | none => rfl
  | some spec =>
      dsimp only
      cases hrts : asSlice (spec.lookup "routes") with
      | none => rfl
      | some rts =>
          have hall : ∀ r ∈ rts, hasPrefix p r = false := by
            intro r hr
            exact h r (by simpa [routesOf, hspec, hrts] using hr)
          have hsame : (rts.filter fun r => !hasPrefix p r) = rts :=
            List.filter_eq_self.mpr fun r hr => by simp [hall r hr]
          dsimp only
          rw [hsame, setKey_eq_self (asSlice_eq_some.mp hrts),
            setKey_eq_self (asMap_eq_some.mp hspec)]

/-- A CR that has left a proxy has nothing more to take out of it. -/
theorem stripProxy_stripProxy (uid route : String) (o : Fields) :
    stripProxy uid route (stripProxy uid route o) = stripProxy uid route o := by
  have hown : ∀ r ∈ ownersOf (stripProxy uid route o),
      ownedBy uid r = false := by
    intro r hr
    rw [ownersOf_stripProxy] at hr
    simpa using (List.mem_filter.mp hr).2
  rw [stripProxy, removeOwner_eq_self hown]
  split
  · rfl
  · rename_i hroute
    refine removePrefix_eq_self ?_
    intro r hr
    rw [routesOf_stripProxy, keptRoutes, if_neg hroute] at hr
    simpa using (List.mem_filter.mp hr).2

theorem leaveContent_leaveContent (uid route : String) (o : Option Fields) :
    leaveContent uid route (leaveContent uid route o)
      = leaveContent uid route o := by
  cases o with
  | none => rfl
  | some o =>
      by_cases hd : deleteOld (stripProxy uid route o) = true
      · simp [leaveContent, hd]
      · simp [leaveContent, hd, stripProxy_stripProxy]

/-! ## Merging into an HTTPProxy twice -/

/-- Replacing or appending the same route again. -/
theorem upsertRoute_upsertRoute {p : String} {route : Json}
    (hp : hasPrefix p route = true) (rs : List Json) :
    upsertRoute p route (upsertRoute p route rs) = upsertRoute p route rs := by
  induction rs with
  | nil => simp [upsertRoute, hp]
  | cons r rest ih =>
      by_cases hr : hasPrefix p r = true
      · simp [upsertRoute, hr, hp]
      · simp [upsertRoute, hr, ih]

/-- The proxy serves the CR: our owner entry, our route in its place and our
    virtual host. -/
structure Serves (u : Multiplicador) (m : Fields) : Prop where
  owned : (ownersOf m).any (ownedBy u.uid) = true
  spec : ∃ spec rs, specOf m = some spec
    ∧ spec.lookup "routes" = some (.arr rs)
    ∧ upsertRoute (prefixOf u) (routeFor u) rs = rs
    ∧ (u.host ≠ "" → spec.lookup "virtualhost" = some (vhostFor u.host))

theorem serves_newProxy (u : Multiplicador) : Serves u (newProxy u) := by
  refine ⟨by simp [ownedBy], _, [routeFor u], specOf_newProxy u, ?_, ?_, ?_⟩
  · split <;> rfl
  · simp [upsertRoute, hasPrefix]
  · intro hh
    rw [if_neg hh]
    rfl

/-- A merge leaves a proxy that serves the CR. -/
theorem serves_mergeProxy {u : Multiplicador} {o m : Fields}
    (h : mergeProxy u o = some m) : Serves u m := by
  have howned := (mergeProxy_spec h).1
  refine ⟨by rw [howned]; exact owned_mergedOwners u _, ?_⟩
  rw [mergeProxy] at h
  obtain ⟨o₁, -, h⟩ := Option.bind_eq_some_iff.mp h
  rw [mergeSpec] at h
  cases hs : specOf (dropOldPrefix u o₁) with
  | none => rw [hs] at h; exact absurd h (by simp)
  | some spec =>
      rw [hs] at h
      have hm := Option.some.inj h
      have hmine : hasPrefix (prefixOf u) (routeFor u) = true := by
        simp [hasPrefix]
      have hfix := upsertRoute_upsertRoute hmine
        (routesOf (dropOldPrefix u o₁))
      rw [← hm]
      refine ⟨_, _, specOf_setSpec _ _, ?_, hfix, ?_⟩
      · by_cases hh : u.host = ""
        · rw [if_pos hh, lookup_setKey_self]
        · rw [if_neg hh, lookup_setKey_of_ne (by decide), lookup_setKey_self]
      · intro hh
        rw [if_neg hh, lookup_setKey_self]

theorem serves_mergeContent {u : Multiplicador} {o : Option Fields}
    {m : Fields} (h : mergeContent u o = some m) : Serves u m := by
  cases o with
  | none =>
      rw [← Option.some.inj h]
      exact serves_newProxy u
  | some o => exact serves_mergeProxy h

/-- A proxy that serves the CR already, and has nothing under an old prefix,
    is merged into without a change. -/
theorem mergeProxy_of_serves {u : Multiplicador} {m : Fields}
    (h : Serves u m) (hdrop : dropOldPrefix u m = m) :
    mergeProxy u m = some m := by
  obtain ⟨spec, rs, hspec, hrts, hfix, hhost⟩ := h.spec
  have hroutes : routesOf m = rs := by simp [routesOf, hspec, hrts]
  have hsame : setKey "spec" (.obj spec) m = m :=
    setKey_eq_self (asMap_eq_some.mp hspec)
  rw [mergeProxy, mergeOwner]
  rw [if_pos h.owned, Option.bind_some, hdrop, mergeSpec, hspec]
  dsimp only
  rw [hroutes, hfix, setKey_eq_self hrts]
  by_cases hh : u.host = ""
  · rw [if_pos hh, hsame]
  · rw [if_neg hh, setKey_eq_self (hhost hh), hsame]

/-- After a create or a merge nothing is left under the old prefix. -/
theorem dropOldPrefix_mergeContent {u : Multiplicador} {o : Option Fields}
    {m : Fields} (h : mergeContent u o = some m) : dropOldPrefix u m = m := by
  rw [dropOldPrefix]
  split
  · rename_i hcond
    refine removePrefix_eq_self ?_
    intro r hr
    rw [(mergeContent_spec h).2.1] at hr
    rcases mem_upsertRoute hr with hr | hr
    · rw [hr]
      simpa [hasPrefix] using fun e => hcond.2.2 e.symm
    · rw [mergeBase, if_pos hcond] at hr
      simpa using (List.mem_filter.mp hr).2
  · rfl

/-! ## What a reconcile writes into the CR -/

/-- The record with the finalizer, when the CR is to be served. -/
def registered (u : Multiplicador) : Multiplicador :=
  if u.ruta = "" then u else withFinalizer (recorded u)

/-- The write of a reconcile that finds everything else in place. -/
def markStep (u : Multiplicador) : Multiplicador :=
  if annotated u ≠ u then annotated u
  else if registered u ≠ u then registered u
  else withReady u

/-- `v` is `u` after writes of the reconciler: its record is the one it had or
    names the target. -/
structure Continues (u v : Multiplicador) : Prop where
  marks : ∃ a f s, v = { u with annotations := a, finalizers := f, status := s }
  record : (prevProxy v = prevProxy u ∧ prevRoute v = prevRoute u)
    ∨ (prevProxy v = proxyNameOf u ∧ prevRoute v = prefixOf u)

theorem Continues.refl (u : Multiplicador) : Continues u u :=
  ⟨⟨_, _, _, rfl⟩, Or.inl ⟨rfl, rfl⟩⟩

theorem Continues.trans {u v w : Multiplicador} (h : Continues u v)
    (h' : Continues v w) : Continues u w := by
  obtain ⟨⟨a, f, s, rfl⟩, hrec⟩ := h
  obtain ⟨⟨a', f', s', rfl⟩, hrec'⟩ := h'
  refine ⟨⟨a', f', s', rfl⟩, ?_⟩
  rcases hrec' with ⟨hp, hr⟩ | ⟨hp, hr⟩
  · rcases hrec with ⟨hp', hr'⟩ | ⟨hp', hr'⟩
    · exact Or.inl ⟨hp.trans hp', hr.trans hr'⟩
    · exact Or.inr ⟨hp.trans hp', hr.trans hr'⟩
  · exact Or.inr ⟨hp, hr⟩

theorem continues_annotated (u : Multiplicador) : Continues u (annotated u) :=
  ⟨⟨_, _, _, rfl⟩, Or.inl ⟨(sameReads_annotated u).prevProxy,
    (sameReads_annotated u).prevRoute⟩⟩

theorem continues_withReady (u : Multiplicador) : Continues u (withReady u) :=
  ⟨⟨_, _, _, rfl⟩, Or.inl ⟨rfl, rfl⟩⟩

theorem prevProxy_recorded (u : Multiplicador) :
    prevProxy (recorded u) = proxyNameOf u := by
  show annGet (setKey annProxyRoute _ (setKey annProxy _ u.ann)) annProxy = _
  rw [annGet_setKey_of_ne (by decide), annGet_setKey_self]

theorem prevRoute_recorded (u : Multiplicador) :
    prevRoute (recorded u) = prefixOf u := annGet_setKey_self _ _ _

theorem continues_recorded (u : Multiplicador) : Continues u (recorded u) :=
  ⟨⟨_, _, _, rfl⟩, Or.inr ⟨prevProxy_recorded u, prevRoute_recorded u⟩⟩

theorem continues_withFinalizer (u : Multiplicador) :
    Continues u (withFinalizer u) := by
  rw [withFinalizer]
  split
  · exact Continues.refl u
  · exact ⟨⟨_, _, _, rfl⟩, Or.inl ⟨rfl, rfl⟩⟩

theorem continues_settled (u : Multiplicador) (o : Option Fields) :
    Continues u (settled u o) := by
  cases o with
  | none => exact continues_recorded u
  | some o =>
      exact (continues_recorded u).trans (continues_withFinalizer _)

/-- The record changes nothing that the main update would not store. -/
theorem mainWrite_settled (u : Multiplicador) (o : Option Fields) :
    mainWrite (settled u o) u = settled u o := by
  cases o with
  | none => rfl
  | some o =>
      show mainWrite (withFinalizer (recorded u)) u
        = withFinalizer (recorded u)
      rw [withFinalizer]
      split <;> rfl

theorem recordWrite_cases (u : Multiplicador) (P : Key → Option Fields) :
    recordWrite u P u = u ∨ ∃ o, recordWrite u P u = settled u o := by
  rw [recordWrite]
  split
  · exact Or.inl rfl
  · split
    · exact Or.inl rfl
    · exact Or.inr ⟨_, mainWrite_settled u _⟩

/-- What a complete reconcile stores continues what it read. -/
theorem continues_crAfter (u : Multiplicador) (dep : Option Deployment)
    (P : Key → Option Fields) : Continues u (crAfter u dep P) := by
  have hrec : Continues u (recordWrite u P u) := by
    rcases recordWrite_cases u P with h | ⟨o, h⟩
    · rw [h]
      exact Continues.refl u
    · rw [h]
      exact continues_settled u o
  unfold crAfter
  split
  · exact continues_annotated u
  · cases dep with
    | none =>
        dsimp only
        split
        · exact continues_withReady u
        · exact hrec
    | some d =>
        dsimp only
        split
        · exact hrec
        · split
          · exact Continues.refl u
          · exact continues_withReady u

/-! ## The three writes -/

/-- The annotations are there: the first write is none. -/
theorem annotated_eq_self_iff {u : Multiplicador} :
    annotated u = u ↔ ∃ a, u.annotations = some a
      ∧ a.lookup annValid = some "true"
      ∧ a.lookup annMultiplicador = some (sprintD u.multiplicador) := by
  constructor
  · intro h
    have ha := congrArg Multiplicador.annotations h
    refine ⟨_, ha.symm, ?_, lookup_setKey_self _ _ _⟩
    rw [lookup_setKey_of_ne (by decide), lookup_setKey_self]
  · rintro ⟨a, ha, hv, hm⟩
    have hann : u.ann = a := by rw [Multiplicador.ann, ha]; rfl
    rw [annotated, hann, setKey_eq_self hv, setKey_eq_self hm,
      Multiplicador.setAnnotations, ← ha]

theorem annotated_annotated (u : Multiplicador) :
    annotated (annotated u) = annotated u := by
  refine annotated_eq_self_iff.mpr ⟨_, rfl, ?_, lookup_setKey_self _ _ _⟩
  rw [lookup_setKey_of_ne (by decide), lookup_setKey_self]

theorem annotated_withReady {u : Multiplicador} (h : annotated u = u) :
    annotated (withReady u) = withReady u := by
  have hcomm : annotated (withReady u) = withReady (annotated u) := rfl
  rw [hcomm, h]

theorem annotated_recorded {u : Multiplicador} (h : annotated u = u) :
    annotated (recorded u) = recorded u := by
  obtain ⟨a, ha, hv, hm⟩ := annotated_eq_self_iff.mp h
  have hann : u.ann = a := by rw [Multiplicador.ann, ha]; rfl
  refine annotated_eq_self_iff.mpr ⟨_, rfl, ?_, ?_⟩
  · rw [lookup_setKey_of_ne (by decide), lookup_setKey_of_ne (by decide), hann]
    exact hv
  · rw [lookup_setKey_of_ne (by decide), lookup_setKey_of_ne (by decide), hann]
    exact hm

theorem annotated_withFinalizer {u : Multiplicador} (h : annotated u = u) :
    annotated (withFinalizer u) = withFinalizer u := by
  rw [withFinalizer]
  split
  · exact h
  · have hcomm : ∀ f, annotated { u with finalizers := f }
        = { annotated u with finalizers := f } := fun _ => rfl
    rw [hcomm, h]

theorem annotated_settled {u : Multiplicador} (h : annotated u = u)
    (o : Option Fields) : annotated (settled u o) = settled u o := by
  cases o with
  | none => exact annotated_recorded h
  | some o => exact annotated_withFinalizer (annotated_recorded h)

theorem annotated_registered {u : Multiplicador} (h : annotated u = u) :
    annotated (registered u) = registered u := by
  rw [registered]
  split
  · exact h
  · exact annotated_withFinalizer (annotated_recorded h)

/-- **FIRST PASS**: whatever it writes, the annotations are there after it. -/
theorem annotated_crAfter (u : Multiplicador) (dep : Option Deployment)
    (P : Key → Option Fields) :
    annotated (crAfter u dep P) = crAfter u dep P := by
  unfold crAfter
  split
  · exact annotated_annotated u
  · rename_i hann
    have h : annotated u = u := by simpa using hann
    have hrec : annotated (recordWrite u P u) = recordWrite u P u := by
      rcases recordWrite_cases u P with hw | ⟨o, hw⟩
      · rw [hw, h]
      · rw [hw, annotated_settled h o]
    cases dep with
    | none =>
        dsimp only
        split
        · exact annotated_withReady h
        · exact hrec
    | some d =>
        dsimp only
        split
        · exact hrec
        · split
          · exact h
          · exact annotated_withReady h

@[simp] theorem withFinalizer_annotations (u : Multiplicador) :
    (withFinalizer u).annotations = u.annotations := by
  rw [withFinalizer]
  split <;> rfl

theorem mem_withFinalizer (u : Multiplicador) :
    finalizerName ∈ (withFinalizer u).finalizers := by
  rw [withFinalizer]
  split
  · assumption
  · simp

/-- The record and the finalizer are there. -/
def Registered (u : Multiplicador) : Prop :=
  u.ruta ≠ "" → ∃ a, u.annotations = some a
    ∧ a.lookup annProxy = some (proxyNameOf u)
    ∧ a.lookup annProxyRoute = some (prefixOf u)
    ∧ finalizerName ∈ u.finalizers

/-- Then the second write is none. -/
theorem registered_eq_self {u : Multiplicador} (h : Registered u) :
    registered u = u := by
  rw [registered]
  split
  · rfl
  · rename_i hr
    obtain ⟨a, ha, hp, hroute, hfin⟩ := h hr
    have hann : u.ann = a := by rw [Multiplicador.ann, ha]; rfl
    have hrec : recorded u = u := by
      rw [recorded, hann, setKey_eq_self hp, setKey_eq_self hroute,
        Multiplicador.setAnnotations, ← ha]
    rw [hrec, withFinalizer, if_pos hfin]

theorem continues_registered (u : Multiplicador) :
    Continues u (registered u) := by
  rw [registered]
  split
  · exact Continues.refl u
  · exact continues_settled u (some [])

theorem registered_registered (u : Multiplicador) :
    Registered (registered u) := by
  intro hr
  obtain ⟨⟨a, f, s, heq⟩, -⟩ := continues_registered u
  have hruta : (registered u).ruta = u.ruta := by rw [heq]; rfl
  have hname : proxyNameOf (registered u) = proxyNameOf u := by rw [heq]; rfl
  have hunder : prefixOf (registered u) = prefixOf u := by rw [heq]; rfl
  rw [hname, hunder]
  rw [hruta] at hr
  rw [registered, if_neg hr, withFinalizer_annotations]
  refine ⟨_, rfl, ?_, lookup_setKey_self _ _ _, mem_withFinalizer _⟩
  rw [lookup_setKey_of_ne (by decide), lookup_setKey_self]

theorem registered_withReady {u : Multiplicador} (h : registered u = u) :
    registered (withReady u) = withReady u := by
  have hcomm : registered (withReady u) = withReady (registered u) := by
    unfold registered withFinalizer
    split
    · rename_i hr
      rw [if_pos (show u.ruta = "" from hr)]
    · rename_i hr
      rw [if_neg (show u.ruta ≠ "" from hr)]
      split
      · rename_i hf
        rw [if_pos (show finalizerName ∈ (recorded u).finalizers from hf)]
        rfl
      · rename_i hf
        rw [if_neg (show finalizerName ∉ (recorded u).finalizers from hf)]
        rfl
  rw [hcomm, h]

/-- **SECOND PASS**: the record is there after it. -/
theorem markStep_second {u : Multiplicador} (h : annotated u = u) :
    annotated (markStep u) = markStep u
      ∧ registered (markStep u) = markStep u := by
  rw [markStep, if_neg (by simpa using h)]
  split
  · exact ⟨annotated_registered h, registered_eq_self (registered_registered u)⟩
  · rename_i hreg
    have hr : registered u = u := by simpa using hreg
    exact ⟨annotated_withReady h, registered_withReady hr⟩

/-- **THIRD PASS**: only the status is left to write. -/
theorem markStep_third {u : Multiplicador} (ha : annotated u = u)
    (hr : registered u = u) : markStep u = withReady u := by
  rw [markStep, if_neg (by simpa using ha), if_neg (by simpa using hr)]

end Idempotence
