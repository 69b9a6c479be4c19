import KubernetesUpRunning.ApiServer

/-! # The reconciler of operator v2

    `reconcileOne`, `ensureServiceAndProxy` and `cleanupProxyForCR` as programs
    over the calls of the API server, branch by branch.  The in-memory CR `u`
    is passed along: `ensureServiceAndProxy` mutates it through its pointer and
    hands it back.  Its version is the one it was read with and is never
    refreshed from what a write returns. -/

namespace Reconcile

open AssocMap ApiServer CallProgram GoJson KubeObjects VersionedStore

/-- A Go error: one an API call returned, with the texts wrapped around it. -/
inductive GoError where
  | api (e : ApiError)
  | wrap (text : String) (e : GoError)
  deriving DecidableEq

/-- How a function of the operator comes back: nil, an error, or a panic. -/
inductive Outcome where
  | nil
  | error (e : GoError)
  | panic
  deriving DecidableEq

def finalizerName : String := "multiplicador.gz.com/finalizer"

def annValid : String := "multiplicador.gz.com/valid"
def annError : String := "multiplicador.gz.com/error"
def annMultiplicador : String := "multiplicador.gz.com/multiplicador"
def annProxy : String := "multiplicador.gz.com/proxy"
def annProxyRoute : String := "multiplicador.gz.com/proxy-route"

/-- The annotation keys the operator writes. -/
def operatorKeys : List String :=
  [annValid, annError, annMultiplicador, annProxy, annProxyRoute]

/-- The text of an invalid multiplicador. -/
def invalidText : String := "el multiplicador tiene que ser positivo"

/-- `gvr` as a GroupVersionKind, used when the CR carries none. -/
def defaultGVK : GroupVersionKind := ⟨"gz.com", "v1", "Multiplicador"⟩

/-- `u.GroupVersionKind()`, or the default when empty. -/
def gvkOf (u : Multiplicador) : GroupVersionKind :=
  if u.gvk.isEmpty then defaultGVK else u.gvk

/-- `u.GetNamespace()`, or the default when empty. -/
def nsOf (u : Multiplicador) : String := if u.ns = "" then "default" else u.ns

/-- The name of the Deployment of a CR. -/
def deplNameOf (name : String) : String := name ++ "-multiplicador"

/-- The name of the Service of a CR. -/
def svcNameOf (name : String) : String := deplNameOf name ++ "-svc"

/-- The labels of the Deployment and of the Service. -/
def labelsOf (deplName : String) : List (String × String) :=
  [("app", "multiplicador"), ("multiplicador-name", deplName)]

/-- `fmt.Sprintf("%d", n)`. -/
def sprintD (n : Int) : String := toString n

/-! ## Deployment -/

/-- `makeDeployment`. -/
def makeDeployment (name ns : String) (replicas multiplicador : Int) :
    Deployment where
  name := name
  ns := ns
  labels := labelsOf name
  ownerReferences := []
  replicas := some replicas
  selector := labelsOf name
  templateLabels := labelsOf name
  containers := [{
    name := "multiplica"
    image := "docker.io/egsmartin/multiplica:latest"
    ports := [8080]
    env := [⟨"MULTIPLIER", sprintD multiplicador⟩] }]

/-- An owner reference with this uid is in the list. -/
def hasOwner (uid : String) (ors : List OwnerReference) : Bool :=
  ors.any fun r => decide (r.uid = uid)

/-- The loop over the environment: the first MULTIPLIER entry is set, one is
    appended when there is none. -/
def repairEnv (value : String) : List EnvVar → List EnvVar
  | [] => [⟨"MULTIPLIER", value⟩]
  | e :: rest =>
      if e.name = "MULTIPLIER" then { e with value := value } :: rest
      else e :: repairEnv value rest

/-- The repairs of the first container. -/
def repairContainers (value : String) : List Container → List Container
  | [] => []
  | ct :: rest => { ct with env := repairEnv value ct.env } :: rest

/-- The repaired Deployment; the source sets `needUpdate` exactly when one of
    the three repairs changes something. -/
def repairDeployment (u : Multiplicador) (d : Deployment) : Deployment :=
  { d with
    replicas := some u.replicas
    ownerReferences :=
      if hasOwner u.uid d.ownerReferences then d.ownerReferences
      else d.ownerReferences ++ [newControllerRef u (gvkOf u)]
    containers := repairContainers (sprintD u.multiplicador) d.containers }

/-- The Deployment the create branch builds. -/
def newDeployment (u : Multiplicador) : Deployment :=
  { makeDeployment (deplNameOf u.name) (nsOf u) u.replicas u.multiplicador with
    ownerReferences := [newControllerRef u (gvkOf u)] }

/-! ## Service -/

/-- The Service the create branch builds. -/
def newService (u : Multiplicador) : Service where
  name := svcNameOf u.name
  ns := nsOf u
  labels := labelsOf (deplNameOf u.name)
  ownerReferences := [newControllerRef u (gvkOf u)]
  selector := labelsOf (deplNameOf u.name)
  ports := [⟨8080, .int 8080⟩]

/-- The first port is 8080. -/
def portOk : List ServicePort → Bool
  | [] => false
  | p :: _ => decide (p.port = 8080)

/-- The repaired Service; `updated` is set exactly when a test fails. -/
def repairService (u : Multiplicador) (s : Service) : Service :=
  { s with
    selector :=
      if sameMap s.selector (labelsOf (deplNameOf u.name)) then s.selector
      else labelsOf (deplNameOf u.name)
    ports := if portOk s.ports then s.ports else [⟨8080, .int 8080⟩]
    ownerReferences :=
      if hasOwner u.uid s.ownerReferences then s.ownerReferences
      else s.ownerReferences ++ [newControllerRef u (gvkOf u)] }

/-- The Service part of `ensureServiceAndProxy`. -/
def ensureService (u : Multiplicador) : Api Outcome := do
  match ← ask (.getService (nsOf u, svcNameOf u.name)) with
  | .error _ =>
      match ← ask (.createService (nsOf u, svcNameOf u.name) (newService u)) with
      | .error e => return .error (.wrap "create service: " (.api e))
      | .ok _ => return .nil
  | .ok svc =>
      if repairService u svc.obj = svc.obj then return .nil
      else
        match ← ask (.updateService (nsOf u, svcNameOf u.name)
            ⟨repairService u svc.obj, svc.version⟩) with
        | .error e => return .error (.wrap "update service: " (.api e))
        | .ok _ => return .nil

/-! ## HTTPProxy -/

/-- `strings.ReplaceAll(host, ".", "-")`. -/
def dashes (host : String) : String :=
  String.ofList (host.toList.map fun ch => if ch = '.' then '-' else ch)

/-- `"vhost-" + strings.ReplaceAll(host, ".", "-")`. -/
def vhostName (host : String) : String := "vhost-" ++ dashes host

/-- The name of the proxy a CR is to be served by. -/
def proxyNameOf (u : Multiplicador) : String :=
  if u.host = "" then u.name else vhostName u.host

/-- The prefix a CR is to be served under. -/
def prefixOf (u : Multiplicador) : String := "/" ++ u.ruta

/-- The recorded proxy, empty when there is none. -/
def prevProxy (u : Multiplicador) : String := annGet u.ann annProxy

/-- The recorded prefix, empty when there is none. -/
def prevRoute (u : Multiplicador) : String := annGet u.ann annProxyRoute

/-- `om["uid"] == string(u.GetUID())` for an entry that is a map. -/
def ownedBy (uid : String) (r : Json) : Bool :=
  decide (uidOf r = some (.str uid))

/-- The first condition of the route has this prefix. -/
def hasPrefix (p : String) (r : Json) : Bool := decide (firstPrefix r = some p)

/-- The loop over the owner references, taking out the entries of `uid`. -/
def removeOwner (uid : String) (o : Fields) : Fields :=
  match metadataOf o with
  | some md =>
      match asSlice (md.lookup "ownerReferences") with
      | some ors => setKey "metadata" (.obj (setKey "ownerReferences"
          (.arr (ors.filter fun r => !ownedBy uid r)) md)) o
      | none => o
  | none => o

/-- The loop over the routes, taking out those under the prefix `p`. -/
def removePrefix (p : String) (o : Fields) : Fields :=
  match specOf o with
  | some spec =>
      match asSlice (spec.lookup "routes") with
      | some rts => setKey "spec" (.obj (setKey "routes"
          (.arr (rts.filter fun r => !hasPrefix p r)) spec)) o
      | none => o
  | none => o

/-- The old proxy without the CR of `uid` and its recorded prefix. -/
def stripProxy (uid route : String) (o : Fields) : Fields :=
  if route = "" then removeOwner uid o
  else removePrefix route (removeOwner uid o)

/-- `deleteOld`: nobody owns the proxy and it routes nothing. -/
def deleteOld (o : Fields) : Bool :=
  match metadataOf o with
  | none => false
  | some md =>
      if (asSlice (md.lookup "ownerReferences")).getD [] = [] then
        match specOf o with
        | none => true
        | some spec =>
            match asSlice (spec.lookup "routes") with
            | none => true
            | some rts => decide (rts = [])
      else false

/-- Leave the proxy `name`: the block of `ensureServiceAndProxy` under "the
    host has changed" and the body of `cleanupProxyForCR`, which repeats it.
    Every error is discarded. -/
def leaveProxy (ns name uid route : String) : Api Unit := do
  match ← ask (.getProxy (ns, name)) with
  | .error _ => return ()
  | .ok old =>
      if deleteOld (stripProxy uid route old.obj) then
        let _ ← ask (.deleteProxy (ns, name))
        return ()
      else
        let _ ← ask (.updateProxy (ns, name)
          ⟨stripProxy uid route old.obj, old.version⟩)
        return ()

/-- The route of a CR. -/
def routeFor (u : Multiplicador) : Json := .obj [
  ("conditions", .arr [.obj [("prefix", .str (prefixOf u))]]),
  ("services", .arr [.obj [("name", .str (svcNameOf u.name)),
    ("port", .int 8080)]]),
  ("pathRewritePolicy", .obj [("replacePrefix",
    .arr [.obj [("replacement", .str "/multiplica")]])])]

/-- The owner entry of a CR: not a controller, since a proxy is shared. -/
def ownerFor (u : Multiplicador) : Json := .obj [
  ("apiVersion", .str (gvkOf u).groupVersion),
  ("kind", .str (gvkOf u).kind),
  ("name", .str u.name),
  ("uid", .str u.uid),
  ("controller", .bool false)]

/-- The virtual host entry of a spec. -/
def vhostFor (host : String) : Json := .obj [("fqdn", .str host)]

/-- The proxy the create branch builds. -/
def newProxy (u : Multiplicador) : Fields := [
  ("apiVersion", .str "projectcontour.io/v1"),
  ("kind", .str "HTTPProxy"),
  ("metadata", .obj [("name", .str (proxyNameOf u)), ("namespace", .str (nsOf u)),
    ("ownerReferences", .arr [ownerFor u])]),
  ("spec", .obj (if u.host = "" then [("routes", .arr [routeFor u])]
    else [("routes", .arr [routeFor u]), ("virtualhost", vhostFor u.host)]))]

/-- The loop over the routes: the first one under the prefix `p` is replaced,
    `route` is appended when there is none. -/
def upsertRoute (p : String) (route : Json) : List Json → List Json
  | [] => [route]
  | r :: rest =>
      if hasPrefix p r then route :: rest else r :: upsertRoute p route rest

/-- The owner part of the merge: append our entry when no entry has our uid.
    Writing to a metadata that is not a map is a write to a nil map. -/
def mergeOwner (u : Multiplicador) (o : Fields) : Option Fields :=
  if (ownersOf o).any (ownedBy u.uid) then some o
  else
    match metadataOf o with
    | some md => some (setKey "metadata" (.obj (setKey "ownerReferences"
        (.arr (ownersOf o ++ [ownerFor u])) md)) o)
    | none => none

/-- The old prefix of the CR in the same proxy, when it has changed. -/
def dropOldPrefix (u : Multiplicador) (o : Fields) : Fields :=
  if prevProxy u = proxyNameOf u ∧ prevRoute u ≠ "" ∧ prevRoute u ≠ prefixOf u
  then removePrefix (prevRoute u) o else o

/-- The route part of the merge.  The assertion on the spec is unchecked. -/
def mergeSpec (u : Multiplicador) (o : Fields) : Option Fields :=
  match specOf o with
  | none => none
  | some spec =>
      let spec := setKey "routes"
        (.arr (upsertRoute (prefixOf u) (routeFor u) (routesOf o))) spec
      let spec := if u.host = "" then spec
        else setKey "virtualhost" (vhostFor u.host) spec
      some (setKey "spec" (.obj spec) o)

/-- The merge of a CR into an existing proxy; `none` is a panic. -/
def mergeProxy (u : Multiplicador) (o : Fields) : Option Fields :=
  (mergeOwner u o).bind fun o => mergeSpec u (dropOldPrefix u o)

/-- The CR with the proxy and the prefix recorded. -/
def recorded (u : Multiplicador) : Multiplicador :=
  u.setAnnotations (setKey annProxyRoute (prefixOf u)
    (setKey annProxy (proxyNameOf u) u.ann))

/-- The CR with the finalizer of the operator. -/
def withFinalizer (u : Multiplicador) : Multiplicador :=
  if finalizerName ∈ u.finalizers then u
  else { u with finalizers := u.finalizers ++ [finalizerName] }

/-- The create-or-merge part of `ensureServiceAndProxy`, with the write of the
    record.  The create branch returns before the finalizer is added. -/
def installRoute (u : Versioned Multiplicador) :
    Api (Outcome × Multiplicador) := do
  match ← ask (.getProxy (nsOf u.obj, proxyNameOf u.obj)) with
  | .error _ =>
      match ← ask (.createProxy (nsOf u.obj, proxyNameOf u.obj)
          (newProxy u.obj)) with
      | .error e => return (.error (.wrap "create httpproxy: " (.api e)), u.obj)
      | .ok _ =>
          let _ ← ask (.updateCR (nsOf u.obj, u.obj.name)
            ⟨recorded u.obj, u.version⟩)
          return (.nil, recorded u.obj)
  | .ok existing =>
      match mergeProxy u.obj existing.obj with
      | none => return (.panic, u.obj)
      | some merged =>
          match ← ask (.updateProxy (nsOf u.obj, proxyNameOf u.obj)
              ⟨merged, existing.version⟩) with
          | .error e =>
              return (.error (.wrap "update httpproxy: " (.api e)), u.obj)
          | .ok _ =>
              let _ ← ask (.updateCR (nsOf u.obj, u.obj.name)
                ⟨withFinalizer (recorded u.obj), u.version⟩)
              return (.nil, withFinalizer (recorded u.obj))

/-- The old proxy is another one than the one to be used. -/
def movesAway (u : Multiplicador) : Bool :=
  decide (prevProxy u ≠ "" ∧ prevProxy u ≠ proxyNameOf u)

/-- `ensureServiceAndProxy`, with the CR as its pointer leaves it. -/
def ensureServiceAndProxy (u : Versioned Multiplicador) :
    Api (Outcome × Multiplicador) := do
  match ← ensureService u.obj with
  | .nil =>
      if u.obj.ruta = "" then return (.nil, u.obj)
      else do
        if movesAway u.obj then
          leaveProxy (nsOf u.obj) (prevProxy u.obj) u.obj.uid (prevRoute u.obj)
        installRoute u
  | r => return (r, u.obj)

/-- `cleanupProxyForCR`; it never returns an error. -/
def cleanupProxyForCR (u : Multiplicador) : Api Unit :=
  if prevProxy u = "" then return ()
  else leaveProxy (nsOf u) (prevProxy u) u.uid (prevRoute u)

/-! ## The CR -/

/-- The status of a reconciled CR. -/
def readyStatus (u : Multiplicador) : Json := .obj [
  ("ready", .bool true),
  ("replicas", .int u.replicas),
  ("multiplicador", .int u.multiplicador)]

/-- The CR with the status of a reconciled one. -/
def withReady (u : Multiplicador) : Multiplicador :=
  { u with status := some (readyStatus u) }

/-- The CR with the annotations of a valid spec. -/
def annotated (u : Multiplicador) : Multiplicador :=
  u.setAnnotations (setKey annMultiplicador (sprintD u.multiplicador)
    (setKey annValid "true" u.ann))

/-- The CR with the annotations and the status of an invalid spec. -/
def invalidated (u : Multiplicador) : Multiplicador :=
  { u.setAnnotations (setKey annError invalidText
      (setKey annValid "false" u.ann)) with
    status := some (.obj [("valid", .bool false), ("error", .str invalidText)]) }

/-- The CR without the finalizer of the operator. -/
def withoutFinalizer (u : Multiplicador) : Multiplicador :=
  { u with finalizers := u.finalizers.filter fun f => decide (f ≠ finalizerName) }

/-- `UpdateStatus`, then the main update when it is refused; both errors are
    only logged. -/
def writeStatus (u : Versioned Multiplicador) : Api Unit := do
  match ← ask (.updateStatusCR (nsOf u.obj, u.obj.name) u) with
  | .ok _ => return ()
  | .error _ =>
      let _ ← ask (.updateCR (nsOf u.obj, u.obj.name) u)
      return ()

/-- An error of `ensureServiceAndProxy` as `reconcileOne` returns it. -/
def wrapEnsure : Outcome → Outcome
  | .error e => .error (.wrap "ensure service/proxy: " e)
  | r => r

/-- The deletion branch of `reconcileOne`. -/
def reconcileDeleted (u : Versioned Multiplicador) : Api Outcome := do
  cleanupProxyForCR u.obj
  if (withoutFinalizer u.obj).finalizers.length ≠ u.obj.finalizers.length then
    let _ ← ask (.updateCR (nsOf u.obj, u.obj.name)
      ⟨withoutFinalizer u.obj, u.version⟩)
  return .nil

/-- The invalid branch of `reconcileOne`. -/
def reconcileInvalid (u : Versioned Multiplicador) : Api Outcome := do
  match ← ask (.updateStatusCR (nsOf u.obj, u.obj.name)
      ⟨invalidated u.obj, u.version⟩) with
  | .ok _ => return .nil
  | .error _ =>
      match ← ask (.updateCR (nsOf u.obj, u.obj.name)
          ⟨invalidated u.obj, u.version⟩) with
      | .ok _ => return .nil
      | .error e => return .error (.api e)

/-- The create branch: the Deployment is missing. -/
def reconcileCreate (u : Versioned Multiplicador) : Api Outcome := do
  match ← ask (.createDeployment (nsOf u.obj, deplNameOf u.obj.name)
      (newDeployment u.obj)) with
  | .error e => return .error (.wrap "create deployment: " (.api e))
  | .ok _ =>
      writeStatus ⟨withReady u.obj, u.version⟩
      let r ← ensureServiceAndProxy ⟨withReady u.obj, u.version⟩
      return wrapEnsure r.1

/-- The Deployment part of the repair branch. -/
def updateDeployment (u : Multiplicador) (existing : Versioned Deployment) :
    Api Outcome := do
  if repairDeployment u existing.obj = existing.obj then return .nil
  else
    match ← ask (.updateDeployment (nsOf u, deplNameOf u.name)
        ⟨repairDeployment u existing.obj, existing.version⟩) with
    | .error e => return .error (.wrap "update deployment: " (.api e))
    | .ok _ => return .nil

/-- The repair branch: the Deployment exists. -/
def reconcileRepair (u : Versioned Multiplicador)
    (existing : Versioned Deployment) : Api Outcome := do
  match ← updateDeployment u.obj existing with
  | .nil =>
      let r ← ensureServiceAndProxy u
      match wrapEnsure r.1 with
      | .nil =>
          writeStatus ⟨withReady r.2, u.version⟩
          return .nil
      | o => return o
  | o => return o

/-- The valid branch of `reconcileOne`. -/
def reconcileValid (u : Versioned Multiplicador) : Api Outcome := do
  let _ ← ask (.updateCR (nsOf u.obj, u.obj.name) ⟨annotated u.obj, u.version⟩)
  match ← ask (.getDeployment (nsOf u.obj, deplNameOf u.obj.name)) with
  | .error _ => reconcileCreate ⟨annotated u.obj, u.version⟩
  | .ok existing => reconcileRepair ⟨annotated u.obj, u.version⟩ existing

/-- `reconcileOne`. -/
def reconcileOne (u : Versioned Multiplicador) : Api Outcome :=
  if u.obj.deletionTimestamp.isSome then reconcileDeleted u
  else if u.obj.multiplicador ≤ 0 then reconcileInvalid u
  else reconcileValid u

theorem reconcileOne_deleted {u : Versioned Multiplicador}
    (hdel : u.obj.deletionTimestamp.isSome = true) :
    reconcileOne u = reconcileDeleted u := by
  rw [reconcileOne, if_pos hdel]

theorem reconcileOne_invalid {u : Versioned Multiplicador}
    (hlive : u.obj.deletionTimestamp = none)
    (hle : u.obj.multiplicador ≤ 0) :
    reconcileOne u = reconcileInvalid u := by
  rw [reconcileOne, hlive, if_neg (by simp), if_pos hle]

theorem reconcileOne_valid {u : Versioned Multiplicador}
    (hlive : u.obj.deletionTimestamp = none)
    (hpos : 0 < u.obj.multiplicador) :
    reconcileOne u = reconcileValid u := by
  have hn : ¬ u.obj.multiplicador ≤ 0 := by omega
  rw [reconcileOne, hlive, if_neg (by simp), if_neg hn]

/-- A worker with a key in hand: fetch the CR and reconcile it.  Any error of
    the fetch is taken for "the CR no longer exists". -/
def reconcileKey (k : Key) : Api Outcome := do
  match ← ask (.getCR k) with
  | .error _ => return .nil
  | .ok u => reconcileOne u

end Reconcile
