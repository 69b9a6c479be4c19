import KubernetesUpRunning.GoJson
import KubernetesUpRunning.VersionedStore

/-! # The objects the operator reads and writes

    The Multiplicador custom resource, and the Deployment, Service and
    HTTPProxy the operator keeps for it.  Each record has the fields the
    operator reads or writes; an HTTPProxy is untyped, as in the source.  The
    resourceVersion of an object is the `version` of `Versioned`. -/

namespace KubeObjects

open AssocMap GoJson VersionedStore

/-- A namespaced name. -/
abbrev Key := String × String

/-- `schema.GroupVersionKind`. -/
structure GroupVersionKind where
  group : String
  version : String
  kind : String
  deriving DecidableEq

/-- `gvk.Empty()`. -/
def GroupVersionKind.isEmpty (g : GroupVersionKind) : Bool :=
  decide (g.group = "" ∧ g.version = "" ∧ g.kind = "")

/-- `gvk.GroupVersion().String()`. -/
def GroupVersionKind.groupVersion (g : GroupVersionKind) : String :=
  if g.group = "" then g.version else g.group ++ "/" ++ g.version

/-- A `map[string]string`. -/
abbrev Annotations := List (String × String)

/-- A Multiplicador CR.  `annotations` and `deletionTimestamp` may be absent;
    `spec` and `status` are untyped. -/
structure Multiplicador where
  ns : String
  name : String
  uid : String
  gvk : GroupVersionKind
  deletionTimestamp : Option String
  annotations : Option Annotations
  finalizers : List String
  spec : Option Json
  status : Option Json
  deriving DecidableEq

/-- `metav1.OwnerReference`. -/
structure OwnerReference where
  apiVersion : String
  kind : String
  name : String
  uid : String
  controller : Option Bool
  blockOwnerDeletion : Option Bool
  deriving DecidableEq

/-- `metav1.NewControllerRef(u, gvk)`. -/
def newControllerRef (u : Multiplicador) (g : GroupVersionKind) :
    OwnerReference where
  apiVersion := g.groupVersion
  kind := g.kind
  name := u.name
  uid := u.uid
  controller := some true
  blockOwnerDeletion := some true

/-- `corev1.EnvVar`. -/
structure EnvVar where
  name : String
  value : String
  deriving DecidableEq

/-- `corev1.Container`. -/
structure Container where
  name : String
  image : String
  ports : List Int
  env : List EnvVar
  deriving DecidableEq

/-- `appsv1.Deployment`; `replicas` is the `*int32` of the spec. -/
structure Deployment where
  name : String
  ns : String
  labels : List (String × String)
  ownerReferences : List OwnerReference
  replicas : Option Int
  selector : List (String × String)
  templateLabels : List (String × String)
  containers : List Container
  deriving DecidableEq

/-- `intstr.IntOrString`. -/
inductive IntOrString where
  | int (n : Int)
  | str (s : String)
  deriving DecidableEq

/-- `corev1.ServicePort`. -/
structure ServicePort where
  port : Int
  targetPort : IntOrString
  deriving DecidableEq

/-- `corev1.Service`. -/
structure Service where
  name : String
  ns : String
  labels : List (String × String)
  ownerReferences : List OwnerReference
  selector : List (String × String)
  ports : List ServicePort
  deriving DecidableEq

/-! ## Reading the spec of a CR -/

/-- `getIntField(u, "spec", field)`. -/
def getIntField (u : Multiplicador) (field : String) : Option Int :=
  match (asMap u.spec).bind (List.lookup field) with
  | some (.int n) => some n
  | some (.float q) => some (int64OfFloat q)
  | _ => none

/-- `getStringField(u, "spec", field)`; the source drops the found flag. -/
def getStringField (u : Multiplicador) (field : String) : String :=
  (asString ((asMap u.spec).bind (List.lookup field))).getD ""

/-- The replicas in force: 1 when absent, the low 32 bits otherwise. -/
def Multiplicador.replicas (u : Multiplicador) : Int :=
  match getIntField u "replicas" with
  | some r => int32OfInt64 r
  | none => 1

/-- The multiplicador in force: 2 when absent. -/
def Multiplicador.multiplicador (u : Multiplicador) : Int :=
  (getIntField u "multiplicador").getD 2

/-- The public path, empty when none is asked for. -/
def Multiplicador.ruta (u : Multiplicador) : String := getStringField u "ruta"

/-- The virtual host, empty when none is asked for. -/
def Multiplicador.host (u : Multiplicador) : String := getStringField u "host"

/-- `u.GetAnnotations()`, nil read as the empty map. -/
def Multiplicador.ann (u : Multiplicador) : Annotations :=
  u.annotations.getD []

/-- `ann[key]`: the zero value when absent. -/
def annGet (ann : Annotations) (key : String) : String :=
  (ann.lookup key).getD ""

/-- `u.SetAnnotations(ann)`. -/
def Multiplicador.setAnnotations (u : Multiplicador) (ann : Annotations) :
    Multiplicador := { u with annotations := some ann }

/-! ## Reading an HTTPProxy -/

/-- The entry `metadata` as a map. -/
def metadataOf (o : Fields) : Option Fields := asMap (o.lookup "metadata")

/-- The entry `spec` as a map. -/
def specOf (o : Fields) : Option Fields := asMap (o.lookup "spec")

/-- The owner references, none when any step of the path is missing. -/
def ownersOf (o : Fields) : List Json :=
  (((metadataOf o).bind fun m => asSlice (m.lookup "ownerReferences"))).getD []

/-- The routes, none when any step of the path is missing. -/
def routesOf (o : Fields) : List Json :=
  (((specOf o).bind fun s => asSlice (s.lookup "routes"))).getD []

/-- The fqdn of the virtual host. -/
def fqdnOf (o : Fields) : Option String :=
  (specOf o).bind fun s => (asMap (s.lookup "virtualhost")).bind fun v =>
    asString (v.lookup "fqdn")

/-- The `uid` entry of an owner reference that is a map. -/
def uidOf (r : Json) : Option Json :=
  (asMap (some r)).bind (List.lookup "uid")

/-- The prefix of the first condition of a route. -/
def firstPrefix (r : Json) : Option String :=
  (asMap (some r)).bind fun rm =>
    (asSlice (rm.lookup "conditions")).bind fun conds =>
      (asMap conds.head?).bind fun cm => asString (cm.lookup "prefix")

/-- The names of the services a route points to. -/
def serviceNames (r : Json) : List String :=
  (((asMap (some r)).bind fun rm => asSlice (rm.lookup "services")).getD []).filterMap
    fun s => (asMap (some s)).bind fun sm => asString (sm.lookup "name")

end KubeObjects
