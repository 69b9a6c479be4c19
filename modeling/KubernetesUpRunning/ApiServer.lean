import KubernetesUpRunning.CallProgram
import KubernetesUpRunning.KubeObjects

/-! # The API server, as the operator sees it

    The requests the operator makes and how the server answers them when no
    call fails: reads, creations, and updates that carry the resourceVersion
    they were computed from.  The CRD enables the status subresource: the main
    update stores everything but `.status`, `UpdateStatus` stores `.status`
    alone.  An object that is being deleted goes when its last finalizer goes.

    The writes of everybody else (users, the garbage collector) are
    `createCR`, `editCR`, `deleteCR` and `collectProxy`. -/

namespace ApiServer

open CallProgram GoJson KubeObjects VersionedStore

/-- What a call reports besides nil. -/
inductive ApiError where
  | refused (r : Refusal)
  | failed
  deriving DecidableEq

/-- The calls of the operator. -/
inductive Req where
  | getCR (k : Key)
  | updateCR (k : Key) (u : Versioned Multiplicador)
  | updateStatusCR (k : Key) (u : Versioned Multiplicador)
  | getDeployment (k : Key)
  | createDeployment (k : Key) (d : Deployment)
  | updateDeployment (k : Key) (d : Versioned Deployment)
  | getService (k : Key)
  | createService (k : Key) (s : Service)
  | updateService (k : Key) (s : Versioned Service)
  | getProxy (k : Key)
  | createProxy (k : Key) (o : Fields)
  | updateProxy (k : Key) (o : Versioned Fields)
  | deleteProxy (k : Key)

/-- What a call answers when it succeeds.  The object that a write returns is
    dropped at every call site, so a write answers nothing. -/
@[reducible] def Payload : Req → Type
  | .getCR _ => Versioned Multiplicador
  | .getDeployment _ => Versioned Deployment
  | .getService _ => Versioned Service
  | .getProxy _ => Versioned Fields
  | _ => Unit

/-- The answer of a call. -/
@[reducible] def Resp (r : Req) : Type := Except ApiError (Payload r)

/-- The stored objects of the cluster and the last version handed out. -/
structure Cluster where
  crs : Store Key Multiplicador
  deployments : Store Key Deployment
  services : Store Key Service
  proxies : Store Key Fields
  rev : Nat

/-- Answer of a read. -/
def got {α : Type} : Option (Versioned α) → Except ApiError (Versioned α)
  | some v => .ok v
  | none => .error (.refused .notFound)

/-- Answer of a write and the cluster it leaves. -/
def wrote {α : Type} (c : Cluster)
    (put : Store Key α × Nat → Cluster) :
    Except Refusal (Store Key α × Nat) → Cluster × Except ApiError Unit
  | .ok r => (put r, .ok ())
  | .error e => (c, .error (.refused e))

namespace Cluster

/-- The cluster after its CRs have moved. -/
def putCRs (c : Cluster) (r : Store Key Multiplicador × Nat) : Cluster :=
  { c with crs := r.1, rev := r.2 }

/-- The cluster after its Deployments have moved. -/
def putDeployments (c : Cluster) (r : Store Key Deployment × Nat) : Cluster :=
  { c with deployments := r.1, rev := r.2 }

/-- The cluster after its Services have moved. -/
def putServices (c : Cluster) (r : Store Key Service × Nat) : Cluster :=
  { c with services := r.1, rev := r.2 }

/-- The cluster after its HTTPProxies have moved. -/
def putProxies (c : Cluster) (r : Store Key Fields × Nat) : Cluster :=
  { c with proxies := r.1, rev := r.2 }

end Cluster

/-- What the main update of a CR stores: everything but the status and what
    only the server writes.  `none` when this takes the last finalizer of an
    object that is being deleted. -/
def admitCR (u old : Multiplicador) : Option Multiplicador :=
  if old.deletionTimestamp.isSome ∧ u.finalizers = [] then none
  else some { old with
    annotations := u.annotations
    finalizers := u.finalizers
    spec := u.spec }

/-- What `UpdateStatus` stores. -/
def admitStatus (u old : Multiplicador) : Option Multiplicador :=
  some { old with status := u.status }

/-- How the server answers a call that does not fail. -/
def serve (c : Cluster) : (r : Req) → Cluster × Resp r
  | .getCR k => (c, got (c.crs k))
  | .updateCR k u =>
      wrote c c.putCRs (update c.crs c.rev k u.version (admitCR u.obj))
  | .updateStatusCR k u =>
      wrote c c.putCRs (update c.crs c.rev k u.version (admitStatus u.obj))
  | .getDeployment k => (c, got (c.deployments k))
  | .createDeployment k d =>
      wrote c c.putDeployments (create c.deployments c.rev k d)
  | .updateDeployment k d =>
      wrote c c.putDeployments
        (update c.deployments c.rev k d.version fun _ => some d.obj)
  | .getService k => (c, got (c.services k))
  | .createService k s => wrote c c.putServices (create c.services c.rev k s)
  | .updateService k s =>
      wrote c c.putServices
        (update c.services c.rev k s.version fun _ => some s.obj)
  | .getProxy k => (c, got (c.proxies k))
  | .createProxy k o => wrote c c.putProxies (create c.proxies c.rev k o)
  | .updateProxy k o =>
      wrote c c.putProxies
        (update c.proxies c.rev k o.version fun _ => some o.obj)
  | .deleteProxy k => wrote c c.putProxies (delete c.proxies c.rev k)

/-- A client program of the API server. -/
abbrev Api (α : Type) := Prog Req Resp α

/-- Make one call. -/
def ask (r : Req) : Api (Resp r) := .call r .ret

/-! ## Everybody else -/

/-- A CR is created; the server gives it its uid. -/
def createCR (c : Cluster) (k : Key) (u : Multiplicador) : Cluster :=
  match create c.crs c.rev k u with
  | .ok r => c.putCRs r
  | .error _ => c

/-- A user writes a CR: any new spec, annotations and finalizers. -/
def editCR (c : Cluster) (k : Key) (f : Multiplicador → Multiplicador) :
    Cluster :=
  match c.crs k with
  | some v => c.putCRs (write c.crs c.rev k (admitCR (f v.obj) v.obj))
  | none => c

/-- A user writes the spec of a CR. -/
def editSpec (c : Cluster) (k : Key) (spec : Option Json) : Cluster :=
  editCR c k fun u => { u with spec := spec }

/-- A CR is deleted: marked when it has finalizers, removed when not. -/
def deleteCR (c : Cluster) (k : Key) (now : String) : Cluster :=
  match c.crs k with
  | none => c
  | some v =>
      if v.obj.finalizers = [] then c.putCRs (write c.crs c.rev k none)
      else c.putCRs (write c.crs c.rev k (some { v.obj with
        deletionTimestamp := some (v.obj.deletionTimestamp.getD now) }))

/-- An owner entry names a CR of the namespace that is gone (no CR of that
    name, or a later one with another uid). -/
def dangling (c : Cluster) (ns : String) (r : Json) : Bool :=
  match asMap (some r) with
  | some om =>
      match asString (om.lookup "kind"), asString (om.lookup "name") with
      | some kind, some name =>
          decide (kind = "Multiplicador") &&
            match c.crs (ns, name) with
            | some v => decide (om.lookup "uid" ≠ some (.str v.obj.uid))
            | none => true
      | _, _ => false
  | none => false

/-- The object with its dangling owner entries dropped. -/
def dropDangling (c : Cluster) (ns : String) (o : Fields) : Fields :=
  match metadataOf o with
  | some md =>
      match asSlice (md.lookup "ownerReferences") with
      | some ors => AssocMap.setKey "metadata" (.obj
          (AssocMap.setKey "ownerReferences"
            (.arr (ors.filter fun r => !dangling c ns r)) md)) o
      | none => o
  | none => o

/-- The garbage collector looks at an HTTPProxy: it deletes one all of whose
    owners are gone and drops the dangling entries of any other.  Deployments
    and Services, which it treats alike, are left alone here. -/
def collectProxy (c : Cluster) (k : Key) : Cluster :=
  match c.proxies k with
  | none => c
  | some v =>
      if ownersOf v.obj = [] then c
      else if (ownersOf v.obj).all (dangling c k.1) then
        c.putProxies (write c.proxies c.rev k none)
      else c.putProxies (write c.proxies c.rev k
        (some (dropDangling c k.1 v.obj)))

end ApiServer
