import KubernetesUpRunning.Reconcile

/-! # One complete reconcile, alone

    When nobody else calls in between and no call fails, a Get followed by the
    write computed from it always lands.  Each part of `reconcileOne` is then a
    plain function of the cluster: `setDeployment`, `setService` and `setProxy`
    for the objects it keeps, `writeCR` for the CR, whose version may have
    moved under an earlier write of the same reconcile. -/

namespace ReconcileRun

open AssocMap ApiServer CallProgram GoJson KubeObjects Reconcile VersionedStore

/-- A Deployment, freshly read, becomes `new`. -/
def setDeployment (c : Cluster) (k : Key) (new : Option Deployment) :
    Cluster := c.putDeployments (write c.deployments c.rev k new)

/-- A Service, freshly read, becomes `new`. -/
def setService (c : Cluster) (k : Key) (new : Option Service) : Cluster :=
  c.putServices (write c.services c.rev k new)

/-- An HTTPProxy, freshly read, becomes `new`. -/
def setProxy (c : Cluster) (k : Key) (new : Option Fields) : Cluster :=
  c.putProxies (write c.proxies c.rev k new)

/-- A CR is written from the version `ver`; refused when it has moved. -/
def writeCR (c : Cluster) (k : Key) (ver : Nat)
    (accept : Multiplicador → Option Multiplicador) : Cluster :=
  c.putCRs (writeAt c.crs c.rev k ver accept)

variable (c : Cluster) (k : Key)

theorem setDeployment_eq_self {new : Option Deployment}
    (h : new = content c.deployments k) : setDeployment c k new = c := by
  rw [setDeployment, write_eq_self h]
  rfl

theorem setService_eq_self {new : Option Service}
    (h : new = content c.services k) : setService c k new = c := by
  rw [setService, write_eq_self h]
  rfl

theorem setProxy_eq_self {new : Option Fields}
    (h : new = content c.proxies k) : setProxy c k new = c := by
  rw [setProxy, write_eq_self h]
  rfl

/-! ## What each part touches -/

section Frame

variable (ver : Nat) (nd : Option Deployment) (ns : Option Service)
  (np : Option Fields) (ad : Multiplicador → Option Multiplicador)

@[simp] theorem setDeployment_crs : (setDeployment c k nd).crs = c.crs := rfl
@[simp] theorem setDeployment_services :
    (setDeployment c k nd).services = c.services := rfl
@[simp] theorem setDeployment_proxies :
    (setDeployment c k nd).proxies = c.proxies := rfl
@[simp] theorem setDeployment_deployments :
    content (setDeployment c k nd).deployments
      = Function.update (content c.deployments) k nd :=
  content_write c.deployments c.rev k nd

@[simp] theorem setService_crs : (setService c k ns).crs = c.crs := rfl
@[simp] theorem setService_deployments :
    (setService c k ns).deployments = c.deployments := rfl
@[simp] theorem setService_proxies :
    (setService c k ns).proxies = c.proxies := rfl
@[simp] theorem setService_services :
    content (setService c k ns).services
      = Function.update (content c.services) k ns :=
  content_write c.services c.rev k ns

@[simp] theorem setProxy_crs : (setProxy c k np).crs = c.crs := rfl
@[simp] theorem setProxy_deployments :
    (setProxy c k np).deployments = c.deployments := rfl
@[simp] theorem setProxy_services :
    (setProxy c k np).services = c.services := rfl
@[simp] theorem setProxy_proxies :
    content (setProxy c k np).proxies
      = Function.update (content c.proxies) k np :=
  content_write c.proxies c.rev k np

@[simp] theorem writeCR_deployments :
    (writeCR c k ver ad).deployments = c.deployments := rfl
@[simp] theorem writeCR_services :
    (writeCR c k ver ad).services = c.services := rfl
@[simp] theorem writeCR_proxies :
    (writeCR c k ver ad).proxies = c.proxies := rfl

end Frame

/-! ## How a fresh call is answered -/

section Answers

variable {c k}

theorem serve_get_proxy (k : Key) :
    serve c (.getProxy k) = (c, got (c.proxies k)) := rfl

theorem serve_createProxy {o : Fields} (h : c.proxies k = none) :
    serve c (.createProxy k o) = (setProxy c k (some o), .ok ()) := by
  simp [serve, create, h, wrote, setProxy]

theorem serve_updateProxy {o : Fields} {v : Versioned Fields}
    (h : c.proxies k = some v) :
    serve c (.updateProxy k ⟨o, v.version⟩)
      = (setProxy c k (some o), .ok ()) := by
  simp [serve, update, h, wrote, setProxy]

theorem serve_deleteProxy {v : Versioned Fields} (h : c.proxies k = some v) :
    serve c (.deleteProxy k) = (setProxy c k none, .ok ()) := by
  simp [serve, delete, h, wrote, setProxy]

theorem serve_createService {s : Service} (h : c.services k = none) :
    serve c (.createService k s) = (setService c k (some s), .ok ()) := by
  simp [serve, create, h, wrote, setService]

theorem serve_updateService {s : Service} {v : Versioned Service}
    (h : c.services k = some v) :
    serve c (.updateService k ⟨s, v.version⟩)
      = (setService c k (some s), .ok ()) := by
  simp [serve, update, h, wrote, setService]

theorem serve_createDeployment {d : Deployment} (h : c.deployments k = none) :
    serve c (.createDeployment k d)
      = (setDeployment c k (some d), .ok ()) := by
  simp [serve, create, h, wrote, setDeployment]

theorem serve_updateDeployment {d : Deployment} {v : Versioned Deployment}
    (h : c.deployments k = some v) :
    serve c (.updateDeployment k ⟨d, v.version⟩)
      = (setDeployment c k (some d), .ok ()) := by
  simp [serve, update, h, wrote, setDeployment]

/-- A CR write leaves what `writeAt` leaves, whatever it answers. -/
theorem serve_updateCR (u : Versioned Multiplicador) :
    (serve c (.updateCR k u)).1 = writeCR c k u.version (admitCR u.obj) := by
  simp only [serve, writeCR, writeAt]
  cases update c.crs c.rev k u.version (admitCR u.obj) <;> rfl

end Answers

/-! ## The parts of a reconcile -/

/-- What is left of a proxy when a CR leaves it. -/
def leaveContent (uid route : String) (o : Option Fields) : Option Fields :=
  o.bind fun o =>
    if deleteOld (stripProxy uid route o) then none
    else some (stripProxy uid route o)

theorem run_leaveProxy (ns name uid route : String) :
    (leaveProxy ns name uid route).run serve c
      = (setProxy c (ns, name)
          (leaveContent uid route (content c.proxies (ns, name))), ()) := by
  unfold leaveProxy ask
  cases h : c.proxies (ns, name) with
  | none =>
      have hc := content_of_none h
      simp [serve_get_proxy, got, h, hc, leaveContent, setProxy_eq_self]
  | some old =>
      have hc := content_of_some h
      by_cases hd : deleteOld (stripProxy uid route old.obj) = true
      · simp [serve_get_proxy, got, h, hc, leaveContent, hd,
          serve_deleteProxy h]
      · simp [serve_get_proxy, got, h, hc, leaveContent, hd,
          serve_updateProxy h]

/-- The Service of a CR after its reconcile. -/
def serviceAfter (u : Multiplicador) : Option Service → Service
  | none => newService u
  | some s => repairService u s

theorem run_ensureService (u : Multiplicador) :
    (ensureService u).run serve c
      = (setService c (nsOf u, svcNameOf u.name)
          (some (serviceAfter u
            (content c.services (nsOf u, svcNameOf u.name)))), .nil) := by
  unfold ensureService ask
  cases h : c.services (nsOf u, svcNameOf u.name) with
  | none =>
      have hc := content_of_none h
      have hget : serve c (.getService (nsOf u, svcNameOf u.name))
          = (c, .error (.refused .notFound)) := by simp [serve, got, h]
      simp [hget, hc, serve_createService h, serviceAfter]
  | some s =>
      have hc := content_of_some h
      have hget : serve c (.getService (nsOf u, svcNameOf u.name))
          = (c, .ok s) := by simp [serve, got, h]
      by_cases hs : repairService u s.obj = s.obj
      · simp [hget, hc, hs, serviceAfter, setService_eq_self]
      · simp [hget, hc, hs, serviceAfter, serve_updateService h]

/-- The Deployment of a CR after its reconcile. -/
def deploymentAfter (u : Multiplicador) : Option Deployment → Deployment
  | none => newDeployment u
  | some d => repairDeployment u d

theorem run_updateDeployment (u : Multiplicador) (d : Versioned Deployment)
    (h : c.deployments (nsOf u, deplNameOf u.name) = some d) :
    (updateDeployment u d).run serve c
      = (setDeployment c (nsOf u, deplNameOf u.name)
          (some (repairDeployment u d.obj)), .nil) := by
  have hc := content_of_some h
  rw [updateDeployment, ask]
  by_cases hd : repairDeployment u d.obj = d.obj
  · simp [hd, hc, setDeployment_eq_self]
  · simp [hd, serve_updateDeployment h]

/-- The target proxy after the merge; `none` is a panic. -/
def mergeContent (u : Multiplicador) : Option Fields → Option Fields
  | none => some (newProxy u)
  | some o => mergeProxy u o

/-- What the reconcile writes into the CR after the merge: the create branch
    records the proxy, the merge branch adds the finalizer too. -/
def settled (u : Multiplicador) : Option Fields → Multiplicador
  | none => recorded u
  | some _ => withFinalizer (recorded u)

/-- The create-or-merge part on the cluster. -/
def installState (u : Versioned Multiplicador) (c : Cluster) :
    Cluster × Outcome × Multiplicador :=
  let old := content c.proxies (nsOf u.obj, proxyNameOf u.obj)
  match mergeContent u.obj old with
  | none => (c, .panic, u.obj)
  | some o =>
      (writeCR (setProxy c (nsOf u.obj, proxyNameOf u.obj) (some o))
        (nsOf u.obj, u.obj.name) u.version (admitCR (settled u.obj old)),
        .nil, settled u.obj old)

theorem run_installRoute (u : Versioned Multiplicador) :
    (installRoute u).run serve c = installState u c := by
  unfold installRoute ask installState
  cases h : c.proxies (nsOf u.obj, proxyNameOf u.obj) with
  | none =>
      have hc := content_of_none h
      simp [serve_get_proxy, got, h, hc, serve_createProxy h, mergeContent,
        settled, serve_updateCR]
  | some o =>
      have hc := content_of_some h
      cases hm : mergeProxy u.obj o.obj with
      | none => simp [serve_get_proxy, got, h, hc, mergeContent, hm]
      | some m =>
          simp [serve_get_proxy, got, h, hc, mergeContent, hm,
            serve_updateProxy h, settled, serve_updateCR]

/-- Leaving the old proxy, when the CR moves away from one. -/
def leaveState (u : Multiplicador) (c : Cluster) : Cluster :=
  if movesAway u then
    setProxy c (nsOf u, prevProxy u) (leaveContent u.uid (prevRoute u)
      (content c.proxies (nsOf u, prevProxy u)))
  else c

/-- Creating or repairing the Service. -/
def serviceState (u : Multiplicador) (c : Cluster) : Cluster :=
  setService c (nsOf u, svcNameOf u.name)
    (some (serviceAfter u (content c.services (nsOf u, svcNameOf u.name))))

/-- The Service, then the HTTPProxies. -/
def ensureState (u : Versioned Multiplicador) (c : Cluster) :
    Cluster × Outcome × Multiplicador :=
  if u.obj.ruta = "" then (serviceState u.obj c, .nil, u.obj)
  else installState u (leaveState u.obj (serviceState u.obj c))

theorem run_ensureServiceAndProxy (u : Versioned Multiplicador) :
    (ensureServiceAndProxy u).run serve c = ensureState u c := by
  rw [ensureServiceAndProxy, ensureState]
  by_cases hr : u.obj.ruta = ""
  · simp [run_ensureService, hr, serviceState]
  · by_cases hm : movesAway u.obj = true
    · simp [run_ensureService, hr, hm, run_leaveProxy, run_installRoute,
        leaveState, serviceState]
    · simp [run_ensureService, hr, hm, run_installRoute, leaveState,
        serviceState]

/-- `UpdateStatus` and its fallback check the same version, so one of them
    being refused means the other is. -/
theorem run_writeStatus (u : Versioned Multiplicador) :
    (writeStatus u).run serve c
      = (writeCR c (nsOf u.obj, u.obj.name) u.version (admitStatus u.obj), ())
    := by
  unfold writeStatus ask
  cases h : c.crs (nsOf u.obj, u.obj.name) with
  | none => simp [serve, update, wrote, h, writeCR, writeAt, Cluster.putCRs]
  | some v =>
      by_cases hv : v.version = u.version
      · simp [serve, update, wrote, h, hv, writeCR, writeAt]
      · simp [serve, update, wrote, h, hv, writeCR, writeAt, Cluster.putCRs]

/-! ## The branches of `reconcileOne` -/

/-- The deletion branch on the cluster. -/
def deletedState (u : Versioned Multiplicador) (c : Cluster) : Cluster :=
  let c₁ := if prevProxy u.obj = "" then c
    else setProxy c (nsOf u.obj, prevProxy u.obj)
      (leaveContent u.obj.uid (prevRoute u.obj)
        (content c.proxies (nsOf u.obj, prevProxy u.obj)))
  if (withoutFinalizer u.obj).finalizers.length = u.obj.finalizers.length
  then c₁
  else writeCR c₁ (nsOf u.obj, u.obj.name) u.version
    (admitCR (withoutFinalizer u.obj))

theorem run_reconcileDeleted (u : Versioned Multiplicador) :
    (reconcileDeleted u).run serve c = (deletedState u c, .nil) := by
  rw [reconcileDeleted, cleanupProxyForCR, deletedState, ask]
  by_cases hp : prevProxy u.obj = ""
  · by_cases hl : (withoutFinalizer u.obj).finalizers.length
        = u.obj.finalizers.length
    · simp [hp, hl]
    · simp [hp, hl, serve_updateCR]
  · by_cases hl : (withoutFinalizer u.obj).finalizers.length
        = u.obj.finalizers.length
    · simp [hp, hl, run_leaveProxy]
    · simp [hp, hl, run_leaveProxy, serve_updateCR]

/-- The create branch on the cluster. -/
def createState (u : Versioned Multiplicador) (c : Cluster) :
    Cluster × Outcome :=
  let c₁ := setDeployment c (nsOf u.obj, deplNameOf u.obj.name)
    (some (newDeployment u.obj))
  let c₂ := writeCR c₁ (nsOf u.obj, u.obj.name) u.version
    (admitStatus (withReady u.obj))
  let r := ensureState ⟨withReady u.obj, u.version⟩ c₂
  (r.1, wrapEnsure r.2.1)

theorem run_reconcileCreate (u : Versioned Multiplicador)
    (h : c.deployments (nsOf u.obj, deplNameOf u.obj.name) = none) :
    (reconcileCreate u).run serve c = createState u c := by
  have hns : nsOf (withReady u.obj) = nsOf u.obj := rfl
  have hname : (withReady u.obj).name = u.obj.name := rfl
  rw [reconcileCreate, createState, ask]
  simp [serve_createDeployment h, run_writeStatus, run_ensureServiceAndProxy,
    hns, hname]

/-- The repair branch on the cluster. -/
def repairState (u : Versioned Multiplicador) (d : Deployment) (c : Cluster) :
    Cluster × Outcome :=
  let c₁ := setDeployment c (nsOf u.obj, deplNameOf u.obj.name)
    (some (repairDeployment u.obj d))
  let r := ensureState u c₁
  match wrapEnsure r.2.1 with
  | .nil => (writeCR r.1 (nsOf r.2.2, r.2.2.name) u.version
      (admitStatus (withReady r.2.2)), .nil)
  | o => (r.1, o)

theorem run_reconcileRepair (u : Versioned Multiplicador)
    (d : Versioned Deployment)
    (h : c.deployments (nsOf u.obj, deplNameOf u.obj.name) = some d) :
    (reconcileRepair u d).run serve c = repairState u d.obj c := by
  have hns : ∀ v, nsOf (withReady v) = nsOf v := fun _ => rfl
  have hname : ∀ v, (withReady v).name = v.name := fun _ => rfl
  rw [reconcileRepair, repairState]
  simp only [Prog.run_bind, run_updateDeployment c u.obj d h,
    run_ensureServiceAndProxy]
  cases wrapEnsure (ensureState u (setDeployment c
      (nsOf u.obj, deplNameOf u.obj.name)
      (some (repairDeployment u.obj d.obj)))).2.1 with
  | nil => simp [run_writeStatus, hns, hname]
  | error e => simp
  | panic => simp

/-- The valid branch on the cluster. -/
def validState (u : Versioned Multiplicador) (c : Cluster) :
    Cluster × Outcome :=
  let c₁ := writeCR c (nsOf u.obj, u.obj.name) u.version
    (admitCR (annotated u.obj))
  match content c.deployments (nsOf u.obj, deplNameOf u.obj.name) with
  | none => createState ⟨annotated u.obj, u.version⟩ c₁
  | some d => repairState ⟨annotated u.obj, u.version⟩ d c₁

theorem run_reconcileValid (u : Versioned Multiplicador) :
    (reconcileValid u).run serve c = validState u c := by
  unfold reconcileValid validState ask
  simp only [Prog.call_bind, Prog.ret_bind, Prog.run_call, serve_updateCR]
  cases h : c.deployments (nsOf u.obj, deplNameOf u.obj.name) with
  | none =>
      rw [content_of_none h]
      simp only [serve, writeCR_deployments, h, got]
      exact run_reconcileCreate (writeCR c _ _ _)
        ⟨annotated u.obj, u.version⟩ h
  | some d =>
      rw [content_of_some h]
      simp only [serve, writeCR_deployments, h, got]
      exact run_reconcileRepair (writeCR c _ _ _)
        ⟨annotated u.obj, u.version⟩ d h

/-- The invalid branch: the status lands or nothing does. -/
theorem run_reconcileInvalid (u : Versioned Multiplicador) :
    ((reconcileInvalid u).run serve c).1
      = writeCR c (nsOf u.obj, u.obj.name) u.version
          (admitStatus (invalidated u.obj)) := by
  unfold reconcileInvalid ask
  cases h : c.crs (nsOf u.obj, u.obj.name) with
  | none => simp [serve, update, wrote, h, writeCR, writeAt, Cluster.putCRs]
  | some v =>
      by_cases hv : v.version = u.version
      · simp [serve, update, wrote, h, hv, writeCR, writeAt]
      · simp [serve, update, wrote, h, hv, writeCR, writeAt, Cluster.putCRs]

end ReconcileRun
