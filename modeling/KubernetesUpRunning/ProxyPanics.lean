import KubernetesUpRunning.ClusterRuns
import KubernetesUpRunning.FaultyBranches
import KubernetesUpRunning.FixedPoint
import KubernetesUpRunning.ProxyMoves

/-! # What the content of a proxy can do to the operator

    An HTTPProxy is read as nested untyped maps.  Go stops the process when a
    one-result assertion meets another type, when a nil map is written and
    when an index is out of range.  Here the code that handles a proxy is
    written with these steps as they are, each of which may panic, and
    compared with the functions of `Reconcile`: leaving a proxy never panics,
    merging into one does exactly when its metadata or its spec is not a
    map.  Operator v1 handles a proxy with the same functions. -/

namespace ProxyPanics

open ApiServer AssocMap CallProgram ClusterRuns FaultyBranches FaultyReconcile
open GoJson KubeObjects Reconcile ReconcileEffect ReconcileRun VersionedStore

/-- Why the process stops. -/
inductive Panic where
  | typeAssertion
  | nilMap
  | outOfRange
  deriving DecidableEq

/-- A step that may panic. -/
abbrev Go := Except Panic

/-! ## The steps -/

/-- `v.(map[string]interface{})` in its one-result form. -/
def assertMap (v : Option Json) : Go Fields :=
  match asMap v with
  | some m => .ok m
  | none => .error .typeAssertion

/-- `m[k]`; a nil map is read as an empty one. -/
def readKey (m : Option Fields) (k : String) : Option Json :=
  m.bind (List.lookup k)

/-- `m[k] = v`. -/
def writeKey (m : Option Fields) (k : String) (v : Json) : Go Fields :=
  match m with
  | some m => .ok (setKey k v m)
  | none => .error .nilMap

/-- `xs[i]`. -/
def index (xs : List Json) (i : Nat) : Go Json :=
  match xs[i]? with
  | some x => .ok x
  | none => .error .outOfRange

/-- The nested tests of the loops over the routes: the prefix of the first
    condition is `p`. -/
def matchesPrefix (p : String) (rr : Json) : Go Bool :=
  match asMap (some rr) with
  | none => .ok false
  | some rm =>
      match asSlice (readKey (some rm) "conditions") with
      | none => .ok false
      | some conds =>
          if conds.length > 0 then
            (index conds 0).bind fun c =>
              match asMap (some c) with
              | none => .ok false
              | some cm =>
                  match asString (readKey (some cm) "prefix") with
                  | none => .ok false
                  | some q => .ok (decide (q = p))
          else .ok false

/-- The loop that collects the routes under other prefixes. -/
def keepRoutes (p : String) : List Json → List Json → Go (List Json)
  | [], newRts => .ok newRts
  | rr :: rts, newRts =>
      (matchesPrefix p rr).bind fun found =>
        keepRoutes p rts (if found then newRts else newRts ++ [rr])

/-- The loop that collects the owner entries of others. -/
def keepOwners (uid : String) : List Json → List Json → List Json
  | [], newOrs => newOrs
  | or :: ors, newOrs =>
      keepOwners uid ors (if ownedBy uid or then newOrs else newOrs ++ [or])

/-- The loop that replaces the first route under the prefix, or appends it. -/
def placeRoute (p : String) (route : Json) :
    List Json → List Json → Go (List Json)
  | done, [] => .ok (done ++ [route])
  | done, r :: rest =>
      (matchesPrefix p r).bind fun found =>
        if found then .ok (done ++ route :: rest)
        else placeRoute p route (done ++ [r]) rest

/-! ## The blocks -/

/-- `removeOwner`, step by step. -/
def removeOwnerGo (uid : String) (o : Fields) : Go Fields :=
  match asMap (readKey (some o) "metadata") with
  | none => .ok o
  | some md =>
      match asSlice (readKey (some md) "ownerReferences") with
      | none => .ok o
      | some ors =>
          (writeKey (some md) "ownerReferences"
            (.arr (keepOwners uid ors []))).bind fun md =>
              writeKey (some o) "metadata" (.obj md)

/-- `removePrefix`, step by step, from a spec that has been looked up. -/
def removePrefixGo (p : String) (spec : Option Fields) (o : Fields) :
    Go Fields :=
  match spec with
  | none => .ok o
  | some spec =>
      match asSlice (readKey (some spec) "routes") with
      | none => .ok o
      | some rts =>
          (keepRoutes p rts []).bind fun newRts =>
            (writeKey (some spec) "routes" (.arr newRts)).bind fun spec =>
              writeKey (some o) "spec" (.obj spec)

/-- `stripProxy`, step by step. -/
def stripProxyGo (uid route : String) (o : Fields) : Go Fields :=
  (removeOwnerGo uid o).bind fun o =>
    if route = "" then .ok o
    else removePrefixGo route (asMap (readKey (some o) "spec")) o

/-- The proxy of the create branch, step by step. -/
def newProxyGo (u : Multiplicador) : Go Fields :=
  let proxySpec := if u.host = "" then [("routes", Json.arr [routeFor u])]
    else [("routes", .arr [routeFor u]), ("virtualhost", vhostFor u.host)]
  let proxy : Fields := [
    ("apiVersion", .str "projectcontour.io/v1"),
    ("kind", .str "HTTPProxy"),
    ("metadata", .obj [("name", .str (proxyNameOf u)),
      ("namespace", .str (nsOf u))]),
    ("spec", .obj proxySpec)]
  (assertMap (readKey (some proxy) "metadata")).bind fun md =>
    (writeKey (some md) "ownerReferences" (.arr [ownerFor u])).bind fun md =>
      writeKey (some proxy) "metadata" (.obj md)

/-- `mergeOwner`, step by step: the metadata may be a nil map. -/
def mergeOwnerGo (u : Multiplicador) (o : Fields) : Go Fields :=
  let md := asMap (readKey (some o) "metadata")
  let ors := (asSlice (readKey md "ownerReferences")).getD []
  if ors.any (ownedBy u.uid) then .ok o
  else
    (writeKey md "ownerReferences" (.arr (ors ++ [ownerFor u]))).bind
      fun md => writeKey (some o) "metadata" (.obj md)

/-- `dropOldPrefix`, step by step. -/
def dropOldPrefixGo (u : Multiplicador) (o : Fields) : Go Fields :=
  let spec := asMap (readKey (some o) "spec")
  if prevProxy u = proxyNameOf u ∧ prevRoute u ≠ "" ∧ prevRoute u ≠ prefixOf u
  then removePrefixGo (prevRoute u) spec o
  else .ok o

/-- `mergeSpec`, step by step: the assertion on the spec is unchecked. -/
def mergeSpecGo (u : Multiplicador) (o : Fields) : Go Fields :=
  (assertMap (readKey (some o) "spec")).bind fun spec =>
    (placeRoute (prefixOf u) (routeFor u) []
      ((asSlice (readKey (some spec) "routes")).getD [])).bind fun routes =>
      (writeKey (some spec) "routes" (.arr routes)).bind fun spec =>
        (if u.host = "" then .ok spec
          else writeKey (some spec) "virtualhost" (vhostFor u.host)).bind
            fun spec => writeKey (some o) "spec" (.obj spec)

/-- `mergeProxy`, step by step. -/
def mergeProxyGo (u : Multiplicador) (o : Fields) : Go Fields :=
  (mergeOwnerGo u o).bind fun o =>
    (dropOldPrefixGo u o).bind fun o => mergeSpecGo u o

/-! ## The functions -/

/-- `leaveProxy` with the steps that may panic. -/
def leaveProxyGo (ns name uid route : String) : Api Outcome := do
  match ← ask (.getProxy (ns, name)) with
  | .error _ => return .nil
  | .ok old =>
      match stripProxyGo uid route old.obj with
      | .error _ => return .panic
      | .ok o =>
          if deleteOld o then
            let _ ← ask (.deleteProxy (ns, name))
            return .nil
          else
            let _ ← ask (.updateProxy (ns, name) ⟨o, old.version⟩)
            return .nil

/-- `cleanupProxyForCR` with the steps that may panic. -/
def cleanupProxyForCRGo (u : Multiplicador) : Api Outcome :=
  if prevProxy u = "" then return .nil
  else leaveProxyGo (nsOf u) (prevProxy u) u.uid (prevRoute u)

/-- `installRoute` with the steps that may panic. -/
def installRouteGo (u : Versioned Multiplicador) :
    Api (Outcome × Multiplicador) := do
  match ← ask (.getProxy (nsOf u.obj, proxyNameOf u.obj)) with
  | .error _ =>
      match newProxyGo u.obj with
      | .error _ => return (.panic, u.obj)
      | .ok proxy =>
          match ← ask (.createProxy (nsOf u.obj, proxyNameOf u.obj) proxy) with
          | .error e =>
              return (.error (.wrap "create httpproxy: " (.api e)), u.obj)
          | .ok _ =>
              let _ ← ask (.updateCR (nsOf u.obj, u.obj.name)
                ⟨recorded u.obj, u.version⟩)
              return (.nil, recorded u.obj)
  | .ok existing =>
      match mergeProxyGo u.obj existing.obj with
      | .error _ => return (.panic, u.obj)
      | .ok merged =>
          match ← ask (.updateProxy (nsOf u.obj, proxyNameOf u.obj)
              ⟨merged, existing.version⟩) with
          | .error e =>
              return (.error (.wrap "update httpproxy: " (.api e)), u.obj)
          | .ok _ =>
              let _ ← ask (.updateCR (nsOf u.obj, u.obj.name)
                ⟨withFinalizer (recorded u.obj), u.version⟩)
              return (.nil, withFinalizer (recorded u.obj))

/-- `ensureServiceAndProxy` with the steps that may panic. -/
def ensureServiceAndProxyGo (u : Versioned Multiplicador) :
    Api (Outcome × Multiplicador) := do
  match ← ensureService u.obj with
  | .nil =>
      if u.obj.ruta = "" then return (.nil, u.obj)
      else if movesAway u.obj then
        match ← leaveProxyGo (nsOf u.obj) (prevProxy u.obj) u.obj.uid
            (prevRoute u.obj) with
        | .panic => return (.panic, u.obj)
        | _ => installRouteGo u
      else installRouteGo u
  | r => return (r, u.obj)

/-- The deletion branch with the steps that may panic. -/
def reconcileDeletedGo (u : Versioned Multiplicador) : Api Outcome := do
  match ← cleanupProxyForCRGo u.obj with
  | .panic => return .panic
  | _ =>
      if (withoutFinalizer u.obj).finalizers.length
          ≠ u.obj.finalizers.length then
        let _ ← ask (.updateCR (nsOf u.obj, u.obj.name)
          ⟨withoutFinalizer u.obj, u.version⟩)
      return .nil

/-- `reconcileOne` with the steps that may panic; the valid branch calls
    `ensureServiceAndProxy`, which is its step by step form. -/
def reconcileOneGo (u : Versioned Multiplicador) : Api Outcome :=
  if u.obj.deletionTimestamp.isSome then reconcileDeletedGo u
  else if u.obj.multiplicador ≤ 0 then reconcileInvalid u
  else reconcileValid u

/-! ## The steps against the functions of the reconciler -/

/-- **THE TESTS OF A ROUTE** never panic: the index is guarded. -/
theorem matchesPrefix_eq (p : String) (rr : Json) :
    matchesPrefix p rr = .ok (hasPrefix p rr) := by
  rw [matchesPrefix, hasPrefix, firstPrefix]
  cases asMap (some rr) with
  | none => rfl
  | some rm =>
      rw [Option.bind_some]
      show (match asSlice (rm.lookup "conditions") with
        | none => _
        | some conds => _) = _
      cases asSlice (rm.lookup "conditions") with
      | none => rfl
      | some conds =>
          cases conds with
          | nil => rfl
          | cons c rest =>
              show (match asMap (some c) with | none => _ | some cm => _) = _
              rw [Option.bind_some, List.head?_cons]
              cases asMap (some c) with
              | none => rfl
              | some cm =>
                  rw [Option.bind_some]
                  show (match asString (cm.lookup "prefix") with
                    | none => _
                    | some q => _) = _
                  cases asString (cm.lookup "prefix") with
                  | none => rfl
                  | some q => simp

theorem keepRoutes_eq (p : String) (rts : List Json) :
    ∀ newRts, keepRoutes p rts newRts
      = .ok (newRts ++ rts.filter fun r => !hasPrefix p r) := by
  induction rts with
  | nil => exact fun _ => congrArg Except.ok (List.append_nil _).symm
  | cons rr rts ih =>
      intro newRts
      rw [keepRoutes, matchesPrefix_eq]
      show keepRoutes p rts _ = _
      rw [ih]
      cases h : hasPrefix p rr <;> simp [h]

theorem keepOwners_eq (uid : String) (ors : List Json) :
    ∀ newOrs, keepOwners uid ors newOrs
      = newOrs ++ ors.filter fun r => !ownedBy uid r := by
  induction ors with
  | nil => exact fun _ => (List.append_nil _).symm
  | cons or ors ih =>
      intro newOrs
      rw [keepOwners, ih]
      cases h : ownedBy uid or <;> simp [h]

theorem placeRoute_eq (p : String) (route : Json) (rest : List Json) :
    ∀ done, placeRoute p route done rest
      = .ok (done ++ upsertRoute p route rest) := by
  induction rest with
  | nil => exact fun _ => rfl
  | cons r rest ih =>
      intro done
      rw [placeRoute, matchesPrefix_eq, upsertRoute]
      show (if _ then _ else _) = _
      cases h : hasPrefix p r with
      | true => rfl
      | false => simp [ih]

/-- Taking out the owner entry never panics. -/
theorem removeOwnerGo_eq (uid : String) (o : Fields) :
    removeOwnerGo uid o = .ok (removeOwner uid o) := by
  rw [removeOwnerGo, removeOwner]
  show (match metadataOf o with | none => _ | some md => _) = _
  cases metadataOf o with
  | none => rfl
  | some md =>
      show (match asSlice (md.lookup "ownerReferences") with
        | none => _
        | some ors => _) = _
      dsimp only
      cases asSlice (md.lookup "ownerReferences") with
      | none => rfl
      | some ors =>
          dsimp only
          rw [keepOwners_eq]
          rfl

/-- Taking out the routes of a prefix never panics. -/
theorem removePrefixGo_eq (p : String) (o : Fields) :
    removePrefixGo p (specOf o) o = .ok (removePrefix p o) := by
  unfold removePrefixGo removePrefix
  cases specOf o with
  | none => rfl
  | some spec =>
      show (match asSlice (spec.lookup "routes") with
        | none => _
        | some rts => _) = _
      dsimp only
      cases asSlice (spec.lookup "routes") with
      | none => rfl
      | some rts =>
          dsimp only
          rw [keepRoutes_eq]
          rfl

/-- **LEAVING A PROXY** never panics, whatever it contains. -/
theorem stripProxyGo_eq (uid route : String) (o : Fields) :
    stripProxyGo uid route o = .ok (stripProxy uid route o) := by
  rw [stripProxyGo, removeOwnerGo_eq, stripProxy]
  show (if _ then _ else _) = _
  split
  · rfl
  · exact removePrefixGo_eq route (removeOwner uid o)

theorem newProxyGo_eq (u : Multiplicador) :
    newProxyGo u = .ok (newProxy u) := rfl

/-- The owner part panics where the model gives up, on a nil map. -/
theorem mergeOwnerGo_eq (u : Multiplicador) (o : Fields) :
    mergeOwnerGo u o = match mergeOwner u o with
      | some m => .ok m
      | none => .error .nilMap := by
  have hors : (asSlice (readKey (metadataOf o) "ownerReferences")).getD []
      = ownersOf o := by
    rw [ownersOf]
    cases metadataOf o <;> rfl
  have hgo : mergeOwnerGo u o
      = if ((asSlice (readKey (metadataOf o) "ownerReferences")).getD []).any
          (ownedBy u.uid) then .ok o
        else (writeKey (metadataOf o) "ownerReferences"
          (.arr ((asSlice (readKey (metadataOf o) "ownerReferences")).getD []
            ++ [ownerFor u]))).bind
          fun md => writeKey (some o) "metadata" (.obj md) := rfl
  rw [hgo, hors, mergeOwner]
  split
  · rfl
  · cases metadataOf o <;> rfl

theorem dropOldPrefixGo_eq (u : Multiplicador) (o : Fields) :
    dropOldPrefixGo u o = .ok (dropOldPrefix u o) := by
  rw [dropOldPrefixGo, dropOldPrefix]
  split
  · exact removePrefixGo_eq (prevRoute u) o
  · rfl

/-- The route part panics where the model gives up, on the assertion. -/
theorem mergeSpecGo_eq (u : Multiplicador) (o : Fields) :
    mergeSpecGo u o = match mergeSpec u o with
      | some m => .ok m
      | none => .error .typeAssertion := by
  unfold mergeSpecGo mergeSpec
  show (assertMap (o.lookup "spec")).bind _ = _
  rw [assertMap]
  change Except.bind (match specOf o with | some m => _ | none => _) _ = _
  cases hs : specOf o with
  | none => rfl
  | some spec =>
      have hrts : (asSlice (readKey (some spec) "routes")).getD []
          = routesOf o := by
        rw [routesOf, hs]
        rfl
      show Except.bind (placeRoute _ _ [] _) _ = _
      rw [hrts, placeRoute_eq]
      by_cases hh : u.host = ""
      · simp only [hh, if_true]
        rfl
      · simp only [hh, if_false]
        rfl

/-- **THE MERGE** panics exactly where the model gives up. -/
theorem toOption_mergeProxyGo (u : Multiplicador) (o : Fields) :
    (mergeProxyGo u o).toOption = mergeProxy u o := by
  rw [mergeProxyGo, mergeOwnerGo_eq, mergeProxy]
  cases mergeOwner u o with
  | none => rfl
  | some o' =>
      show ((dropOldPrefixGo u o').bind _).toOption = _
      rw [dropOldPrefixGo_eq, Option.bind_some]
      show (mergeSpecGo u _).toOption = _
      rw [mergeSpecGo_eq]
      cases mergeSpec u (dropOldPrefix u o') <;> rfl

/-! ## The functions against those of the reconciler -/

/-- Leaving a proxy is the same program, and comes back with nil. -/
theorem leaveProxyGo_eq (ns name uid route : String) :
    leaveProxyGo ns name uid route
      = leaveProxy ns name uid route >>= fun _ => .ret .nil := by
  refine congrArg (Prog.call _) (funext fun x => ?_)
  cases x with
  | error e => rfl
  | ok old =>
      simp only [Prog.bind, stripProxyGo_eq]
      by_cases hd : deleteOld (stripProxy uid route old.obj) = true
      · rw [if_pos hd, if_pos hd]
        rfl
      · rw [if_neg hd, if_neg hd]
        rfl

/-- **THE CLEAN-UP** is the same program, and comes back with nil. -/
theorem cleanupProxyForCRGo_eq (u : Multiplicador) :
    cleanupProxyForCRGo u
      = cleanupProxyForCR u >>= fun _ => .ret .nil := by
  rw [cleanupProxyForCRGo, cleanupProxyForCR]
  split
  · rfl
  · exact leaveProxyGo_eq _ _ _ _

/-- The create or the merge is the same program. -/
theorem installRouteGo_eq (u : Versioned Multiplicador) :
    installRouteGo u = installRoute u := by
  refine congrArg (Prog.call _) (funext fun x => ?_)
  cases x with
  | error e =>
      simp only [Prog.bind, newProxyGo_eq]
      refine congrArg (Prog.call _) (funext fun y => ?_)
      cases y <;> rfl
  | ok existing =>
      have hm := toOption_mergeProxyGo u.obj existing.obj
      simp only [Prog.bind, ← hm]
      cases mergeProxyGo u.obj existing.obj with
      | error p => rfl
      | ok merged =>
          refine congrArg (Prog.call _) (funext fun y => ?_)
          cases y <;> rfl

/-- **SERVICE AND PROXY** are the same program. -/
theorem ensureServiceAndProxyGo_eq (u : Versioned Multiplicador) :
    ensureServiceAndProxyGo u = ensureServiceAndProxy u := by
  refine congrArg (ensureService u.obj >>= ·) (funext fun o => ?_)
  cases o with
  | error e => rfl
  | panic => rfl
  | nil =>
      by_cases hr : u.obj.ruta = ""
      · simp only [if_pos hr]
      · simp only [if_neg hr]
        by_cases hm : movesAway u.obj = true
        · simp only [if_pos hm, leaveProxyGo_eq, installRouteGo_eq]
          exact Prog.bind_seq _ _ _
        · simp only [if_neg hm, installRouteGo_eq]

/-- **A RECONCILE** is the same program. -/
theorem reconcileOneGo_eq (u : Versioned Multiplicador) :
    reconcileOneGo u = reconcileOne u := by
  have hdel : reconcileDeletedGo u = reconcileDeleted u := by
    rw [reconcileDeletedGo, cleanupProxyForCRGo_eq, reconcileDeleted]
    exact Prog.bind_seq _ _ _
  rw [reconcileOneGo, reconcileOne, hdel]

/-! ## When the process stops -/

/-- A proxy into which a CR can be merged: its metadata and its spec are
    maps. -/
def Mergeable (o : Fields) : Prop :=
  (metadataOf o).isSome = true ∧ (specOf o).isSome = true

/-- The CR asks for no route, there is no target proxy, or it can be merged
    into. -/
def Sound (u : Multiplicador) (P : Key → Option Fields) : Prop :=
  u.ruta = "" ∨ ∀ o, P (targetKey u) = some o → Mergeable o

/-- The merge goes through exactly for a mergeable proxy. -/
theorem isSome_mergeProxy_iff (u : Multiplicador) (o : Fields) :
    (mergeProxy u o).isSome = true ↔ Mergeable o := by
  rw [ProxyMoves.isSome_mergeProxy, Mergeable, Bool.and_eq_true,
    Bool.or_eq_true]
  -- an owner entry is found only in a metadata that is a map
  have hown : (ownersOf o).any (ownedBy u.uid) = true →
      (metadataOf o).isSome = true := by
    intro h
    rw [ownersOf] at h
    cases hm : metadataOf o with
    | none =>
        rw [hm] at h
        exact absurd h (by simp)
    | some md => rfl
  constructor
  · rintro ⟨hs, h | h⟩
    · exact ⟨hown h, hs⟩
    · exact ⟨h, hs⟩
  · rintro ⟨hm, hs⟩
    exact ⟨hs, .inr hm⟩

/-- The condition on the contents in the terms of the reconcile. -/
theorem panics_iff (u : Multiplicador) (P : Key → Option Fields) :
    panics u P = false ↔ Sound u P := by
  have htarget : leaveProxies u P (nsOf u, proxyNameOf u) = P (targetKey u) :=
    FixedPoint.leaveProxies_target u P
  rw [panics, htarget, decide_eq_false_iff_not, Sound]
  by_cases hr : u.ruta = ""
  · exact iff_of_true (fun h => h.1 hr) (.inl hr)
  · cases hP : P (targetKey u) with
    | none =>
        refine iff_of_true ?_ (.inr fun o ho => absurd ho (by simp))
        exact fun h => absurd h.2 (by simp [mergeContent])
    | some o =>
        have hm := isSome_mergeProxy_iff u o
        rw [Option.isSome_iff_ne_none] at hm
        show ¬ (_ ∧ mergeProxy u o = none) ↔ _
        constructor
        · intro h
          refine .inr fun o' ho => ?_
          rw [← Option.some.inj ho]
          exact hm.mp fun hn => h ⟨hr, hn⟩
        · rintro (h | h) ⟨-, hn⟩
          · exact hr h
          · exact hm.mpr (h o rfl) hn

/-! ## Any server -/

/-- An answer that is not a proxy at `k` one cannot merge into. -/
def Fit (k : Key) : (r : Req) → Resp r → Prop
  | .getProxy k', x => k' = k → ∀ v, x = .ok v → Mergeable v.obj
  | _, _ => True

/-- A client that may ask for anything and gets fit answers. -/
def fitAnswers (k : Key) : Contract Req Resp Unit where
  allowed _ _ := True
  answers _ r x := Fit k r x
  next _ _ _ := ()

section Safe

variable {k : Key}

/-- The last call of a part, whose error comes back. -/
theorem safe_orError (r : Req) (text : String) :
    Obeys (fitAnswers k) (.call r (orError text)) () fun _ o => o ≠ .panic := by
  refine ⟨trivial, fun x _ => ?_⟩
  cases x with
  | error e => exact fun h => Outcome.noConfusion h
  | ok a => exact fun h => Outcome.noConfusion h

theorem safe_ensureService (u : Multiplicador) :
    Obeys (fitAnswers k) (ensureService u) () fun _ o => o ≠ .panic := by
  rw [ensureService_eq]
  refine ⟨trivial, fun x _ => ?_⟩
  cases x with
  | error e => exact safe_orError _ _
  | ok svc =>
      dsimp only
      split
      · exact fun h => Outcome.noConfusion h
      · exact safe_orError _ _

/-- A part that comes back with nothing. -/
theorem safe_unit (p : Api Unit) :
    Obeys (fitAnswers k) p () fun _ _ => True := by
  induction p with
  | ret a => trivial
  | call r f ih => exact ⟨trivial, fun x _ => ih x⟩

/-- The create or the merge, when the target is fit. -/
theorem safe_installRoute {u : Versioned Multiplicador}
    (hk : targetKey u.obj = k) :
    Obeys (fitAnswers k) (installRoute u) () fun _ a => a.1 ≠ .panic := by
  refine ⟨trivial, fun x hx => ?_⟩
  cases x with
  | error e =>
      refine ⟨trivial, fun y _ => ?_⟩
      cases y with
      | error e => exact fun h => Outcome.noConfusion h
      | ok a => exact ⟨trivial, fun _ _ h => Outcome.noConfusion h⟩
  | ok existing =>
      obtain ⟨m, hm⟩ := Option.isSome_iff_exists.mp
        ((isSome_mergeProxy_iff u.obj existing.obj).mpr (hx hk _ rfl))
      simp only [Prog.bind, hm]
      refine ⟨trivial, fun y _ => ?_⟩
      cases y with
      | error e => exact fun h => Outcome.noConfusion h
      | ok a => exact ⟨trivial, fun _ _ h => Outcome.noConfusion h⟩

theorem safe_ensure {u : Versioned Multiplicador}
    (hk : targetKey u.obj = k) :
    Obeys (fitAnswers k) (ensureServiceAndProxy u) ()
      fun _ a => a.1 ≠ .panic := by
  rw [ensureServiceAndProxy_eq]
  refine Obeys.seq (safe_ensureService u.obj) fun _ o ho => ?_
  split
  · split
    · exact fun h => Outcome.noConfusion h
    · exact Obeys.seq (safe_unit _) fun _ _ _ => safe_installRoute hk
  · exact ho

theorem wrapEnsure_ne_panic {o : Outcome} (h : o ≠ .panic) :
    wrapEnsure o ≠ .panic := by
  cases o with
  | nil => exact fun h => Outcome.noConfusion h
  | error e => exact fun h => Outcome.noConfusion h
  | panic => exact absurd rfl h

theorem safe_reconcileCreate {u : Versioned Multiplicador}
    (hk : targetKey u.obj = k) :
    Obeys (fitAnswers k) (reconcileCreate u) () fun _ o => o ≠ .panic := by
  rw [reconcileCreate_eq]
  refine ⟨trivial, fun x _ => ?_⟩
  cases x with
  | error e => exact fun h => Outcome.noConfusion h
  | ok a =>
      refine Obeys.seq (safe_unit _) fun _ _ _ => ?_
      refine Obeys.seq (safe_ensure ?_) fun _ _ h => wrapEnsure_ne_panic h
      exact (targetKey_congr (sameReads_withReady u.obj)).trans hk

theorem safe_reconcileRepair {u : Versioned Multiplicador}
    (hk : targetKey u.obj = k) (v : Versioned Deployment) :
    Obeys (fitAnswers k) (reconcileRepair u v) () fun _ o => o ≠ .panic := by
  rw [reconcileRepair_eq, updateDeployment_eq]
  refine Obeys.seq (M := fun _ o => o ≠ .panic) ?_ fun _ o ho => ?_
  · split
    · exact fun h => Outcome.noConfusion h
    · exact safe_orError _ _
  · split
    · refine Obeys.seq (safe_ensure hk) fun _ r hr => ?_
      split
      · exact Obeys.seq (safe_unit _) fun _ _ _ h => Outcome.noConfusion h
      · exact wrapEnsure_ne_panic hr
    · exact ho

theorem safe_reconcileOne {u : Versioned Multiplicador}
    (hk : targetKey u.obj = k) :
    Obeys (fitAnswers k) (reconcileOne u) () fun _ o => o ≠ .panic := by
  have hka : targetKey (annotated u.obj) = k :=
    (targetKey_congr (sameReads_annotated u.obj)).trans hk
  rw [reconcileOne]
  split
  · rw [reconcileDeleted]
    refine Obeys.seq (safe_unit _) fun _ _ _ => ?_
    split
    · exact ⟨trivial, fun _ _ h => Outcome.noConfusion h⟩
    · exact fun h => Outcome.noConfusion h
  · split
    · refine ⟨trivial, fun x _ => ?_⟩
      cases x with
      | ok a => exact fun h => Outcome.noConfusion h
      | error e =>
          refine ⟨trivial, fun y _ => ?_⟩
          cases y with
          | ok a => exact fun h => Outcome.noConfusion h
          | error e => exact fun h => Outcome.noConfusion h
    · refine ⟨trivial, fun _ _ => ⟨trivial, fun x _ => ?_⟩⟩
      cases x with
      | error e =>
          exact safe_reconcileCreate (u := ⟨annotated u.obj, u.version⟩) hka
      | ok v =>
          exact safe_reconcileRepair (u := ⟨annotated u.obj, u.version⟩) hka v

end Safe

/-- **NO PANIC ON ANY SERVER**: whatever the calls answer and whoever else
    writes, the operator comes back to a caller unless a Get of the target has
    answered a proxy it cannot merge into. -/
theorem ne_panic_of_fit {σ : Type} {srv : σ → (r : Req) → σ × Resp r}
    (u : Versioned Multiplicador)
    (h : ∀ s v, (srv s (.getProxy (targetKey u.obj))).2 = .ok v →
      Mergeable v.obj) (s : σ) :
    ((reconcileOneGo u).run srv s).2 ≠ .panic
      ∧ ((ensureServiceAndProxyGo u).run srv s).2.1 ≠ .panic := by
  have hfit : ∀ s r, Fit (targetKey u.obj) r (srv s r).2 := by
    intro s r
    cases r with
    | getProxy k =>
        rintro rfl v hv
        exact h s v hv
    | getCR k | updateCR k w | updateStatusCR k w | getDeployment k
    | createDeployment k d | updateDeployment k d | getService k
    | createService k d | updateService k d | createProxy k o
    | updateProxy k o | deleteProxy k => trivial
  rw [reconcileOneGo_eq, ensureServiceAndProxyGo_eq]
  constructor
  · exact (run_of_obeys (G := fun _ _ => True)
      (fun s _ r _ _ => ⟨hfit s r, trivial⟩) trivial
      (safe_reconcileOne rfl)).choose_spec.2
  · exact (run_of_obeys (G := fun _ _ => True)
      (fun s _ r _ _ => ⟨hfit s r, trivial⟩) trivial
      (safe_ensure rfl)).choose_spec.2

/-- The clean-up comes back with nil on any server. -/
theorem cleanup_nil {σ : Type} (srv : σ → (r : Req) → σ × Resp r)
    (u : Multiplicador) (s : σ) :
    ((cleanupProxyForCRGo u).run srv s).2 = .nil := by
  rw [cleanupProxyForCRGo_eq, Prog.run_bind]
  rfl

/-! ## The API server -/

/-- The invalid branch does not look at a proxy. -/
theorem reconcileInvalid_ne_panic {σ : Type}
    (srv : σ → (r : Req) → σ × Resp r) (u : Versioned Multiplicador) (s : σ) :
    ((reconcileInvalid u).run srv s).2 ≠ .panic := by
  have hobeys : Obeys (asking fun _ => True) (reconcileInvalid u) ()
      fun _ o => o ≠ .panic := by
    refine ⟨trivial, fun x _ => ?_⟩
    cases x with
    | ok a => exact fun h => Outcome.noConfusion h
    | error e =>
        refine ⟨trivial, fun y _ => ?_⟩
        cases y with
        | ok a => exact fun h => Outcome.noConfusion h
        | error e => exact fun h => Outcome.noConfusion h
  exact (run_of_asking srv (I := fun _ => True) (fun _ _ _ _ => trivial)
    hobeys trivial).2

/-- **WHEN THE OPERATOR STOPS**: with no failing call the clean-up always comes
    back with nil; `ensureServiceAndProxy` comes back with nil or an error
    exactly when the target proxy, if there is one and a route is asked for,
    has a metadata and a spec that are maps; and so does `reconcileOne` when
    the CR is live and valid, and always when it is not. -/
theorem ne_panic_iff_sound (u : Versioned Multiplicador) (c : Cluster) :
    ((cleanupProxyForCRGo u.obj).run serve c).2 = .nil
      ∧ (((ensureServiceAndProxyGo u).run serve c).2.1 ≠ .panic
        ↔ Sound u.obj (content c.proxies))
      ∧ (((reconcileOneGo u).run serve c).2 ≠ .panic
        ↔ u.obj.deletionTimestamp.isSome = true ∨ u.obj.multiplicador ≤ 0
          ∨ Sound u.obj (content c.proxies)) := by
  have hout : ∀ b : Bool, (if b then Outcome.panic else .nil) ≠ .panic
      ↔ b = false := by decide
  refine ⟨cleanup_nil serve u.obj c, ?_, ?_⟩
  · rw [ensureServiceAndProxyGo_eq, run_ensureServiceAndProxy,
      ensureState_outcome, hout]
    exact panics_iff u.obj _
  · rw [reconcileOneGo_eq]
    by_cases hdel : u.obj.deletionTimestamp.isSome = true
    · rw [reconcileOne_deleted hdel, run_reconcileDeleted]
      exact iff_of_true (fun h => Outcome.noConfusion h) (.inl hdel)
    have hlive : u.obj.deletionTimestamp = none := by simpa using hdel
    by_cases hle : u.obj.multiplicador ≤ 0
    · rw [reconcileOne_invalid hlive hle]
      exact iff_of_true (reconcileInvalid_ne_panic serve u c)
        (.inr (.inl hle))
    · rw [reconcileOne_valid hlive (by omega), run_reconcileValid,
        validState_outcome, hout, panics_iff u.obj]
      constructor
      · exact fun h => .inr (.inr h)
      · rintro (h | h | h)
        · exact absurd h hdel
        · exact absurd h hle
        · exact h

/-- A stored proxy without a spec stops the operator. -/
theorem not_ne_panic_noSpec :
    ¬ ∀ (u : Versioned Multiplicador) (c : Cluster),
      ((cleanupProxyForCRGo u.obj).run serve c).2 ≠ .panic
        ∧ ((ensureServiceAndProxyGo u).run serve c).2.1 ≠ .panic
        ∧ ((reconcileOneGo u).run serve c).2 ≠ .panic := by
  intro h
  obtain ⟨-, -, hone⟩ := h ⟨newCR "web" "" "calc", 1⟩
    (clusterOf [(("default", "web"), ⟨newCR "web" "" "calc", 1⟩)] []
      [(("default", "web"), ⟨[("metadata", .obj [("name", .str "web")])], 1⟩)]
      1)
  exact hone (by decide)

end ProxyPanics
