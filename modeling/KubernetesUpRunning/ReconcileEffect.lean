import KubernetesUpRunning.ReconcileRun

/-! # What one complete reconcile does to the cluster

    The effect of `reconcileKey` on the contents: on the HTTPProxies it is
    `proxiesAfter`, a function of the CR that was read and of the contents; on
    the CR it is `crAfter`, the first of the writes of the reconcile that
    changes anything.  Nothing else of the CRs or the HTTPProxies moves. -/

namespace ReconcileEffect

open AssocMap ApiServer CallProgram GoJson KubeObjects Reconcile ReconcileRun
open VersionedStore

/-! ## What the in-memory writes leave alone -/

/-- Two CRs a reconcile cannot tell apart when it handles the children. -/
structure SameReads (u v : Multiplicador) : Prop where
  ns : u.ns = v.ns
  name : u.name = v.name
  uid : u.uid = v.uid
  gvk : u.gvk = v.gvk
  spec : u.spec = v.spec
  prevProxy : prevProxy u = prevProxy v
  prevRoute : prevRoute u = prevRoute v

theorem SameReads.trans {u v w : Multiplicador} (h : SameReads u v)
    (h' : SameReads v w) : SameReads u w :=
  ⟨h.ns.trans h'.ns, h.name.trans h'.name, h.uid.trans h'.uid,
    h.gvk.trans h'.gvk, h.spec.trans h'.spec,
    h.prevProxy.trans h'.prevProxy, h.prevRoute.trans h'.prevRoute⟩

@[simp] theorem annGet_setKey_self (k v : String) (m : Annotations) :
    annGet (setKey k v m) k = v := by simp [annGet]

theorem annGet_setKey_of_ne {k k' : String} (h : k' ≠ k) (v : String)
    (m : Annotations) : annGet (setKey k v m) k' = annGet m k' := by
  simp [annGet, lookup_setKey_of_ne h]

theorem sameReads_annotated (u : Multiplicador) :
    SameReads (annotated u) u := by
  refine ⟨rfl, rfl, rfl, rfl, rfl, ?_, ?_⟩
  · show annGet (setKey annMultiplicador _ (setKey annValid _ u.ann)) annProxy
      = annGet u.ann annProxy
    rw [annGet_setKey_of_ne (by decide), annGet_setKey_of_ne (by decide)]
  · show annGet (setKey annMultiplicador _ (setKey annValid _ u.ann))
      annProxyRoute = annGet u.ann annProxyRoute
    rw [annGet_setKey_of_ne (by decide), annGet_setKey_of_ne (by decide)]

theorem sameReads_withReady (u : Multiplicador) :
    SameReads (withReady u) u := ⟨rfl, rfl, rfl, rfl, rfl, rfl, rfl⟩

theorem sameReads_withoutFinalizer (u : Multiplicador) :
    SameReads (withoutFinalizer u) u := ⟨rfl, rfl, rfl, rfl, rfl, rfl, rfl⟩

theorem sameReads_invalidated (u : Multiplicador) :
    SameReads (invalidated u) u := by
  refine ⟨rfl, rfl, rfl, rfl, rfl, ?_, ?_⟩
  · show annGet (setKey annError _ (setKey annValid _ u.ann)) annProxy
      = annGet u.ann annProxy
    rw [annGet_setKey_of_ne (by decide), annGet_setKey_of_ne (by decide)]
  · show annGet (setKey annError _ (setKey annValid _ u.ann)) annProxyRoute
      = annGet u.ann annProxyRoute
    rw [annGet_setKey_of_ne (by decide), annGet_setKey_of_ne (by decide)]

section Congr

variable {u v : Multiplicador} (h : SameReads u v)
include h

theorem SameReads.nsOf : nsOf u = nsOf v := by simp [Reconcile.nsOf, h.ns]

theorem SameReads.field (f : String) : getStringField u f = getStringField v f
    := by simp [getStringField, h.spec]

theorem SameReads.intField (f : String) : getIntField u f = getIntField v f :=
  by simp [getIntField, h.spec]

theorem SameReads.ruta : u.ruta = v.ruta := h.field "ruta"

theorem SameReads.host : u.host = v.host := h.field "host"

theorem SameReads.replicas : u.replicas = v.replicas := by
  simp [Multiplicador.replicas, h.intField]

theorem SameReads.multiplicador : u.multiplicador = v.multiplicador := by
  simp [Multiplicador.multiplicador, h.intField]

theorem SameReads.proxyName : proxyNameOf u = proxyNameOf v := by
  simp [proxyNameOf, h.host, h.name]

theorem SameReads.prefixOf : prefixOf u = prefixOf v := by
  simp [Reconcile.prefixOf, h.ruta]

theorem SameReads.gvkOf : gvkOf u = gvkOf v := by simp [Reconcile.gvkOf, h.gvk]

theorem SameReads.controllerRef :
    newControllerRef u (Reconcile.gvkOf u)
      = newControllerRef v (Reconcile.gvkOf v) := by
  simp [newControllerRef, h.gvkOf, h.name, h.uid]

theorem SameReads.ownerFor : ownerFor u = ownerFor v := by
  simp [Reconcile.ownerFor, h.gvkOf, h.name, h.uid]

theorem SameReads.routeFor : routeFor u = routeFor v := by
  simp [Reconcile.routeFor, h.prefixOf, h.name]

theorem SameReads.movesAway : movesAway u = movesAway v := by
  simp [Reconcile.movesAway, h.prevProxy, h.proxyName]

theorem SameReads.mergeContent (o : Option Fields) :
    mergeContent u o = mergeContent v o := by
  cases o with
  | none =>
      simp [ReconcileRun.mergeContent, newProxy, h.proxyName, h.nsOf,
        h.ownerFor, h.host, h.routeFor]
  | some o =>
      simp [ReconcileRun.mergeContent, mergeProxy, mergeOwner, mergeSpec,
        dropOldPrefix, h.proxyName, h.ownerFor, h.host, h.routeFor,
        h.prevProxy, h.prevRoute, h.prefixOf, h.uid]

theorem SameReads.serviceAfter (s : Option Service) :
    serviceAfter u s = serviceAfter v s := by
  cases s with
  | none =>
      simp [ReconcileRun.serviceAfter, newService, h.nsOf, h.controllerRef,
        h.name]
  | some s =>
      simp [ReconcileRun.serviceAfter, repairService, h.controllerRef, h.name,
        h.uid]

theorem SameReads.deploymentAfter (d : Option Deployment) :
    deploymentAfter u d = deploymentAfter v d := by
  cases d with
  | none =>
      simp [ReconcileRun.deploymentAfter, newDeployment, h.nsOf, h.name,
        h.controllerRef, h.replicas, h.multiplicador]
  | some d =>
      simp [ReconcileRun.deploymentAfter, repairDeployment, h.controllerRef,
        h.uid, h.replicas, h.multiplicador]

end Congr

/-! ## The HTTPProxies -/

/-- The contents after leaving the old proxy. -/
def leaveProxies (u : Multiplicador) (P : Key → Option Fields) :
    Key → Option Fields :=
  if movesAway u then
    Function.update P (nsOf u, prevProxy u)
      (leaveContent u.uid (prevRoute u) (P (nsOf u, prevProxy u)))
  else P

/-- The contents after the create or the merge; a panic writes nothing. -/
def installProxies (u : Multiplicador) (P : Key → Option Fields) :
    Key → Option Fields :=
  match mergeContent u (P (nsOf u, proxyNameOf u)) with
  | none => P
  | some o => Function.update P (nsOf u, proxyNameOf u) (some o)

/-- A merge that panics leaves the contents. -/
theorem installProxies_panic {u : Multiplicador} {P : Key → Option Fields}
    (h : mergeContent u (P (nsOf u, proxyNameOf u)) = none) :
    installProxies u P = P := by
  rw [installProxies, h]

/-- A create or a merge sets the target. -/
theorem installProxies_ok {u : Multiplicador} {P : Key → Option Fields}
    {o : Fields} (h : mergeContent u (P (nsOf u, proxyNameOf u)) = some o) :
    installProxies u P
      = Function.update P (nsOf u, proxyNameOf u) (some o) := by
  rw [installProxies, h]

/-- The contents after `ensureServiceAndProxy`. -/
def ensureProxies (u : Multiplicador) (P : Key → Option Fields) :
    Key → Option Fields :=
  if u.ruta = "" then P else installProxies u (leaveProxies u P)

/-- The contents after `cleanupProxyForCR`. -/
def cleanupProxies (u : Multiplicador) (P : Key → Option Fields) :
    Key → Option Fields :=
  if prevProxy u = "" then P
  else Function.update P (nsOf u, prevProxy u)
    (leaveContent u.uid (prevRoute u) (P (nsOf u, prevProxy u)))

/-- The contents after `reconcileOne`. -/
def proxiesAfter (u : Multiplicador) (P : Key → Option Fields) :
    Key → Option Fields :=
  if u.deletionTimestamp.isSome then cleanupProxies u P
  else if u.multiplicador ≤ 0 then P
  else ensureProxies u P

theorem ensureProxies_congr {u v : Multiplicador} (h : SameReads u v)
    (P : Key → Option Fields) : ensureProxies u P = ensureProxies v P := by
  simp [ensureProxies, installProxies, leaveProxies, h.ruta, h.movesAway,
    h.nsOf, h.prevProxy, h.prevRoute, h.uid, h.proxyName, h.mergeContent]

theorem leaveState_proxies (u : Multiplicador) (c : Cluster) :
    content (leaveState u c).proxies = leaveProxies u (content c.proxies) := by
  rw [leaveState, leaveProxies]
  cases movesAway u <;> simp

theorem installState_proxies (u : Versioned Multiplicador) (c : Cluster) :
    content (installState u c).1.proxies
      = installProxies u.obj (content c.proxies) := by
  unfold installState installProxies
  dsimp only
  cases mergeContent u.obj
    (content c.proxies (nsOf u.obj, proxyNameOf u.obj)) <;> simp

theorem ensureState_proxies (u : Versioned Multiplicador) (c : Cluster) :
    content (ensureState u c).1.proxies
      = ensureProxies u.obj (content c.proxies) := by
  rw [ensureState, ensureProxies]
  by_cases hr : u.obj.ruta = ""
  · simp [hr, serviceState]
  · simp [hr, installState_proxies, leaveState_proxies, serviceState]

theorem createState_proxies (u : Versioned Multiplicador) (c : Cluster) :
    content (createState u c).1.proxies
      = ensureProxies u.obj (content c.proxies) := by
  simp only [createState, ensureState_proxies, writeCR_proxies,
    setDeployment_proxies]
  exact ensureProxies_congr (sameReads_withReady u.obj) _

theorem repairState_proxies (u : Versioned Multiplicador) (d : Deployment)
    (c : Cluster) :
    content (repairState u d c).1.proxies
      = ensureProxies u.obj (content c.proxies) := by
  unfold repairState
  dsimp only
  split <;> simp [ensureState_proxies]

/-- **THE PROXIES AFTER A RECONCILE.** -/
theorem reconcileOne_proxies (u : Versioned Multiplicador) (c : Cluster) :
    content ((reconcileOne u).run serve c).1.proxies
      = proxiesAfter u.obj (content c.proxies) := by
  rw [reconcileOne, proxiesAfter]
  split
  · rw [run_reconcileDeleted]
    rw [deletedState, cleanupProxies]
    dsimp only
    split <;> split <;> simp
  · split
    · rw [run_reconcileInvalid, writeCR_proxies]
    · rw [run_reconcileValid]
      rw [validState]
      have h := sameReads_annotated u.obj
      cases content c.deployments (nsOf u.obj, deplNameOf u.obj.name) with
      | none =>
          simp [createState_proxies, ensureProxies_congr h]
      | some d =>
          simp [repairState_proxies, ensureProxies_congr h]

/-! ## Which proxies a CR moves between -/

/-- The CR is to be served: live, valid, and with a ruta. -/
def joins (u : Multiplicador) : Bool :=
  u.deletionTimestamp.isNone && decide (0 < u.multiplicador)
    && decide (u.ruta ≠ "")

/-- The CR is to leave the recorded proxy. -/
def departs (u : Multiplicador) : Bool :=
  if u.deletionTimestamp.isSome then decide (prevProxy u ≠ "")
  else joins u && movesAway u

/-- The recorded proxy. -/
def oldKey (u : Multiplicador) : Key := (nsOf u, prevProxy u)

/-- The proxy that is to serve the CR. -/
def targetKey (u : Multiplicador) : Key := (nsOf u, proxyNameOf u)

/-- A CR that is served does not leave the proxy that serves it. -/
theorem oldKey_ne_targetKey {u : Multiplicador} (hj : joins u = true)
    (hd : departs u = true) : oldKey u ≠ targetKey u := by
  intro h
  have hlive : u.deletionTimestamp.isSome = false := by
    simp only [joins, Bool.and_eq_true] at hj
    simpa using hj.1.1
  have hm : movesAway u = true := by
    simp only [departs, hlive] at hd
    simpa [hj] using hd
  have hne : prevProxy u ≠ proxyNameOf u := by
    simp only [movesAway, decide_eq_true_eq] at hm
    exact hm.2
  exact hne (congrArg Prod.snd h)

/-- The reconcile takes the recorded prefix out of the recorded proxy: it
    leaves that proxy, or stays there under another prefix. -/
def dropsOld (u : Multiplicador) : Bool :=
  departs u || (joins u && decide (prevProxy u = proxyNameOf u
    ∧ prevRoute u ≠ prefixOf u))

/-- The contents after leaving the recorded proxy, in either branch. -/
def departProxies (u : Multiplicador) (P : Key → Option Fields) :
    Key → Option Fields :=
  if departs u then
    Function.update P (oldKey u)
      (leaveContent u.uid (prevRoute u) (P (oldKey u)))
  else P

/-- The contents after the create or the merge, if there is one. -/
def joinProxies (u : Multiplicador) (P : Key → Option Fields) :
    Key → Option Fields :=
  if joins u then installProxies u P else P

/-- **A RECONCILE IS TWO MOVES**: it leaves one proxy, then joins another. -/
theorem proxiesAfter_eq (u : Multiplicador) (P : Key → Option Fields) :
    proxiesAfter u P = joinProxies u (departProxies u P) := by
  rw [proxiesAfter, joinProxies, departProxies]
  cases hd : u.deletionTimestamp with
  | some t =>
      have hj : joins u = false := by simp [joins, hd]
      by_cases hp : prevProxy u = ""
      · simp [hj, departs, hd, cleanupProxies, hp]
      · simp [hj, departs, hd, cleanupProxies, hp, oldKey]
  | none =>
      by_cases hpos : u.multiplicador ≤ 0
      · have hn : ¬ 0 < u.multiplicador := by omega
        have hj : joins u = false := by simp [joins, hn]
        simp [hj, departs, hd, hpos]
      · have hp : 0 < u.multiplicador := by omega
        by_cases hr : u.ruta = ""
        · have hj : joins u = false := by simp [joins, hr]
          simp [hj, departs, hd, hpos, ensureProxies, hr]
        · have hj : joins u = true := by simp [joins, hd, hp, hr]
          simp [hj, departs, hd, hpos, ensureProxies, hr, leaveProxies, oldKey]

theorem departProxies_of_joins {u : Multiplicador} (h : joins u = true)
    (P : Key → Option Fields) : departProxies u P = leaveProxies u P := by
  have hd : u.deletionTimestamp = none := by
    simp only [joins, Bool.and_eq_true] at h
    simpa using h.1.1
  simp [departProxies, leaveProxies, departs, hd, h, oldKey]

/-! ## The CR -/

theorem rev_le_setDeployment (c : Cluster) (k : Key) (n : Option Deployment) :
    c.rev ≤ (setDeployment c k n).rev :=
  (advances_write c.deployments c.rev k n).le

theorem rev_le_setService (c : Cluster) (k : Key) (n : Option Service) :
    c.rev ≤ (setService c k n).rev :=
  (advances_write c.services c.rev k n).le

theorem rev_le_setProxy (c : Cluster) (k : Key) (n : Option Fields) :
    c.rev ≤ (setProxy c k n).rev :=
  (advances_write c.proxies c.rev k n).le

theorem rev_le_writeCR (c : Cluster) (k : Key) (ver : Nat)
    (ad : Multiplicador → Option Multiplicador) :
    c.rev ≤ (writeCR c k ver ad).rev :=
  (advances_writeAt c.crs c.rev k ver ad).le

theorem rev_le_leaveState (u : Multiplicador) (c : Cluster) :
    c.rev ≤ (leaveState u c).rev := by
  rw [leaveState]
  split
  · exact rev_le_setProxy c _ _
  · exact Nat.le_refl _

/-- What the main update of `w` makes of a live CR `x`. -/
def mainWrite (w x : Multiplicador) : Multiplicador :=
  { x with
    annotations := w.annotations
    finalizers := w.finalizers
    spec := w.spec }

theorem admitCR_live {w x : Multiplicador} (h : x.deletionTimestamp = none) :
    admitCR w x = some (mainWrite w x) := by
  simp [admitCR, h, mainWrite]

/-- What the record written by `ensureServiceAndProxy` makes of `x`. -/
def recordWrite (w : Multiplicador) (P : Key → Option Fields)
    (x : Multiplicador) : Multiplicador :=
  if w.ruta = "" then x
  else match mergeContent w (leaveProxies w P (nsOf w, proxyNameOf w)) with
    | none => x
    | some _ =>
        mainWrite (settled w (leaveProxies w P (nsOf w, proxyNameOf w))) x

/-- The target proxy is one the merge panics on. -/
def panics (u : Multiplicador) (P : Key → Option Fields) : Bool :=
  decide (u.ruta ≠ "" ∧
    mergeContent u (leaveProxies u P (nsOf u, proxyNameOf u)) = none)

section CR

variable {x y w : Multiplicador} {n : Nat} {c : Cluster}

/-- A merge that panics writes nothing. -/
theorem installState_panic
    (h : mergeContent w (content c.proxies (nsOf w, proxyNameOf w)) = none) :
    installState ⟨w, n⟩ c = (c, .panic, w) := by
  rw [installState]
  dsimp only
  rw [h]

/-- A merge that does not panic writes the proxy, then the record. -/
theorem installState_ok {o : Fields}
    (h : mergeContent w (content c.proxies (nsOf w, proxyNameOf w))
      = some o) :
    installState ⟨w, n⟩ c
      = (writeCR (setProxy c (nsOf w, proxyNameOf w) (some o))
          (nsOf w, w.name) n
          (admitCR (settled w (content c.proxies (nsOf w, proxyNameOf w)))),
          .nil, settled w (content c.proxies (nsOf w, proxyNameOf w))) := by
  rw [installState]
  dsimp only
  rw [h]

@[simp] theorem leaveState_crs (u : Multiplicador) (c : Cluster) :
    (leaveState u c).crs = c.crs := by
  rw [leaveState]
  split <;> rfl

@[simp] theorem leaveState_deployments (u : Multiplicador) (c : Cluster) :
    (leaveState u c).deployments = c.deployments := by
  rw [leaveState]
  split <;> rfl

@[simp] theorem leaveState_services (u : Multiplicador) (c : Cluster) :
    (leaveState u c).services = c.services := by
  rw [leaveState]
  split <;> rfl

/-- Without a ruta there is only the Service. -/
theorem ensureState_of_no_ruta (hr : w.ruta = "") :
    ensureState ⟨w, n⟩ c = (serviceState w c, .nil, w) := by
  simp [ensureState, hr]

/-- With a ruta, the proxies come after the Service. -/
theorem ensureState_of_ruta (hr : w.ruta ≠ "") :
    ensureState ⟨w, n⟩ c
      = installState ⟨w, n⟩ (leaveState w (serviceState w c)) := by
  simp [ensureState, hr]

/-- The proxies as the create or the merge finds them. -/
theorem leave_service_proxies (w : Multiplicador) (c : Cluster) :
    content (leaveState w (serviceState w c)).proxies
      = leaveProxies w (content c.proxies) :=
  leaveState_proxies w (serviceState w c)

theorem rev_le_leave_service (w : Multiplicador) (c : Cluster) :
    c.rev ≤ (leaveState w (serviceState w c)).rev :=
  (rev_le_setService c _ _).trans (rev_le_leaveState w _)

/-- A CR that has changed stays as it is. -/
theorem since_ensureState_changed
    (h : Since x n c.crs (nsOf w, w.name) y) (hy : y ≠ x) :
    Since x n (ensureState ⟨w, n⟩ c).1.crs (nsOf w, w.name) y := by
  by_cases hr : w.ruta = ""
  · rw [ensureState_of_no_ruta hr]
    exact h
  · rw [ensureState_of_ruta hr]
    cases hm : mergeContent w (content (leaveState w (serviceState w c)).proxies
        (nsOf w, proxyNameOf w)) with
    | none =>
        rw [installState_panic hm, leaveState_crs]
        exact h
    | some o =>
        rw [installState_ok hm]
        refine Since.writeAt_changed ?_ hy
        rw [setProxy_crs, leaveState_crs]
        exact h

/-- A CR that has not changed takes the record. -/
theorem since_ensureState (hx : x.deletionTimestamp = none)
    (hle : n ≤ c.rev) (h : Since x n c.crs (nsOf w, w.name) x) :
    Since x n (ensureState ⟨w, n⟩ c).1.crs (nsOf w, w.name)
      (recordWrite w (content c.proxies) x) := by
  rw [recordWrite]
  by_cases hr : w.ruta = ""
  · rw [ensureState_of_no_ruta hr, if_pos hr]
    exact h
  · rw [ensureState_of_ruta hr, if_neg hr, ← leave_service_proxies]
    cases hm : mergeContent w (content (leaveState w (serviceState w c)).proxies
        (nsOf w, proxyNameOf w)) with
    | none =>
        rw [installState_panic hm, leaveState_crs]
        exact h
    | some o =>
        rw [installState_ok hm]
        refine Since.writeAt_unchanged ?_ ?_ (admitCR_live hx)
        · rw [setProxy_crs, leaveState_crs]
          exact h
        · exact hle.trans
            ((rev_le_leave_service w c).trans (rev_le_setProxy _ _ _))

theorem rev_le_ensureState : c.rev ≤ (ensureState ⟨w, n⟩ c).1.rev := by
  by_cases hr : w.ruta = ""
  · rw [ensureState_of_no_ruta hr]
    exact rev_le_setService c _ _
  · rw [ensureState_of_ruta hr]
    refine (rev_le_leave_service w c).trans ?_
    cases hm : mergeContent w (content (leaveState w (serviceState w c)).proxies
        (nsOf w, proxyNameOf w)) with
    | none =>
        rw [installState_panic hm]
    | some o =>
        rw [installState_ok hm]
        exact (rev_le_setProxy _ _ _).trans (rev_le_writeCR _ _ _ _)

/-- The CR that `ensureServiceAndProxy` hands back reads like the one it was
    given, but for the record. -/
theorem ensureState_cr :
    (ensureState ⟨w, n⟩ c).2.2.ns = w.ns
      ∧ (ensureState ⟨w, n⟩ c).2.2.name = w.name
      ∧ (ensureState ⟨w, n⟩ c).2.2.spec = w.spec := by
  by_cases hr : w.ruta = ""
  · rw [ensureState_of_no_ruta hr]
    exact ⟨rfl, rfl, rfl⟩
  · rw [ensureState_of_ruta hr]
    cases hm : mergeContent w (content (leaveState w (serviceState w c)).proxies
        (nsOf w, proxyNameOf w)) with
    | none =>
        rw [installState_panic hm]
        exact ⟨rfl, rfl, rfl⟩
    | some o =>
        rw [installState_ok hm]
        dsimp only [settled, withFinalizer]
        split
        · exact ⟨rfl, rfl, rfl⟩
        · split <;> exact ⟨rfl, rfl, rfl⟩

/-- `ensureServiceAndProxy`, alone, returns nil or panics. -/
theorem ensureState_outcome :
    (ensureState ⟨w, n⟩ c).2.1
      = if panics w (content c.proxies) then .panic else .nil := by
  rw [panics]
  by_cases hr : w.ruta = ""
  · rw [ensureState_of_no_ruta hr]
    simp [hr]
  · rw [ensureState_of_ruta hr, ← leave_service_proxies]
    cases hm : mergeContent w (content (leaveState w (serviceState w c)).proxies
        (nsOf w, proxyNameOf w)) with
    | none =>
        rw [installState_panic hm]
        simp [hr]
    | some o =>
        rw [installState_ok hm]
        simp

/-- The create branch, on a CR that has changed. -/
theorem since_createState_changed
    (h : Since x n c.crs (nsOf w, w.name) y) (hy : y ≠ x) :
    Since x n (createState ⟨w, n⟩ c).1.crs (nsOf w, w.name) y :=
  since_ensureState_changed (w := withReady w)
    (Since.writeAt_changed h hy) hy

/-- The repair branch, on a CR that has changed. -/
theorem since_repairState_changed (d : Deployment)
    (h : Since x n c.crs (nsOf w, w.name) y) (hy : y ≠ x) :
    Since x n (repairState ⟨w, n⟩ d c).1.crs (nsOf w, w.name) y := by
  rw [repairState]
  dsimp only
  have h₁ := since_ensureState_changed (w := w) (c := setDeployment c
    (nsOf w, deplNameOf w.name) (some (repairDeployment w d))) h hy
  obtain ⟨hns, hname, -⟩ := ensureState_cr (w := w) (n := n)
    (c := setDeployment c (nsOf w, deplNameOf w.name)
      (some (repairDeployment w d)))
  split
  · have hkey : ∀ v : Multiplicador, v.ns = w.ns → v.name = w.name →
        (nsOf v, v.name) = (nsOf w, w.name) := by
      intro v h h'
      simp [nsOf, h, h']
    rw [hkey _ hns hname]
    exact Since.writeAt_changed h₁ hy
  · exact h₁

end CR

/-- The CR that a complete reconcile of the live and valid CR `u` stores: the
    first of its writes that changes anything.  `dep` is the Deployment that
    the reconcile finds, `P` the HTTPProxies. -/
def crAfter (u : Multiplicador) (dep : Option Deployment)
    (P : Key → Option Fields) : Multiplicador :=
  if annotated u ≠ u then annotated u
  else match dep with
    | none => if withReady u ≠ u then withReady u else recordWrite u P u
    | some _ =>
        if recordWrite u P u ≠ u then recordWrite u P u
        else if panics u P then u
        else withReady u

section Valid

variable {u : Versioned Multiplicador} {c : Cluster}

/-- The create branch, on a CR that has not changed so far. -/
theorem since_createState (hlive : u.obj.deletionTimestamp = none)
    (hle : u.version ≤ c.rev)
    (h : Since u.obj u.version c.crs (nsOf u.obj, u.obj.name) u.obj) :
    Since u.obj u.version (createState u c).1.crs (nsOf u.obj, u.obj.name)
      (if withReady u.obj ≠ u.obj then withReady u.obj
        else recordWrite u.obj (content c.proxies) u.obj) := by
  rw [createState]
  dsimp only
  set c₁ := setDeployment c (nsOf u.obj, deplNameOf u.obj.name)
    (some (newDeployment u.obj)) with hc₁
  have hle₁ : u.version ≤ c₁.rev :=
    hle.trans (rev_le_setDeployment c _ _)
  have h₁ : Since u.obj u.version c₁.crs (nsOf u.obj, u.obj.name) u.obj := h
  have h₂ := Since.writeAt_unchanged h₁ hle₁
    (show admitStatus (withReady u.obj) u.obj = some (withReady u.obj) from rfl)
  by_cases hr : withReady u.obj = u.obj
  · rw [if_neg (by simpa using hr)]
    rw [hr] at h₂ ⊢
    exact since_ensureState hlive
      (hle₁.trans (rev_le_writeCR c₁ _ _ _)) h₂
  · rw [if_pos hr]
    exact since_ensureState_changed h₂ hr

/-- The repair branch, on a CR that has not changed so far. -/
theorem since_repairState (d : Deployment)
    (hlive : u.obj.deletionTimestamp = none) (hle : u.version ≤ c.rev)
    (h : Since u.obj u.version c.crs (nsOf u.obj, u.obj.name) u.obj) :
    Since u.obj u.version (repairState u d c).1.crs (nsOf u.obj, u.obj.name)
      (if recordWrite u.obj (content c.proxies) u.obj ≠ u.obj
        then recordWrite u.obj (content c.proxies) u.obj
        else if panics u.obj (content c.proxies) then u.obj
        else withReady u.obj) := by
  unfold repairState
  dsimp only
  set c₁ := setDeployment c (nsOf u.obj, deplNameOf u.obj.name)
    (some (repairDeployment u.obj d)) with hc₁
  have hle₁ : u.version ≤ c₁.rev := hle.trans (rev_le_setDeployment c _ _)
  have h₂ := since_ensureState (w := u.obj) (c := c₁) hlive hle₁ h
  have hout := ensureState_outcome (w := u.obj) (n := u.version) (c := c₁)
  obtain ⟨hns, hname, hspec⟩ :=
    ensureState_cr (w := u.obj) (n := u.version) (c := c₁)
  have hP : content c₁.proxies = content c.proxies := rfl
  rw [hP] at h₂ hout
  cases hp : panics u.obj (content c.proxies) with
  | true =>
      simp only [hp, if_true] at hout
      simp only [hout, wrapEnsure, if_true]
      have hrec : recordWrite u.obj (content c.proxies) u.obj = u.obj := by
        have hp' : u.obj.ruta ≠ "" ∧ mergeContent u.obj (leaveProxies u.obj
            (content c.proxies) (nsOf u.obj, proxyNameOf u.obj)) = none := by
          simpa [panics] using hp
        simp [recordWrite, hp'.1, hp'.2]
      simpa [hrec] using h₂
  | false =>
      simp only [hp, Bool.false_eq_true, if_false] at hout
      simp only [hout, wrapEnsure, Bool.false_eq_true, if_false]
      have hkey : (nsOf (ensureState u c₁).2.2, (ensureState u c₁).2.2.name)
          = (nsOf u.obj, u.obj.name) := by
        simp [nsOf, hns, hname]
      rw [hkey]
      by_cases hr : recordWrite u.obj (content c.proxies) u.obj = u.obj
      · rw [if_neg (by simpa using hr)]
        rw [hr] at h₂
        refine Since.writeAt_unchanged h₂
          (hle₁.trans rev_le_ensureState) ?_
        have hready : readyStatus (ensureState u c₁).2.2 = readyStatus u.obj := by
          simp [readyStatus, Multiplicador.replicas,
            Multiplicador.multiplicador, getIntField, hspec]
        simp [admitStatus, withReady, hready]
      · rw [if_pos hr]
        exact Since.writeAt_changed h₂ hr

/-- **THE CR AFTER A RECONCILE**, when it is live and valid: if nothing in it
    changed, its version did not either. -/
theorem since_reconcileOne (hlive : u.obj.deletionTimestamp = none)
    (hpos : 0 < u.obj.multiplicador) (hle : u.version ≤ c.rev)
    (hget : c.crs (nsOf u.obj, u.obj.name) = some u) :
    Since u.obj u.version ((reconcileOne u).run serve c).1.crs
      (nsOf u.obj, u.obj.name)
      (crAfter u.obj
        (content c.deployments (nsOf u.obj, deplNameOf u.obj.name))
        (content c.proxies)) := by
  rw [reconcileOne_valid hlive hpos, run_reconcileValid]
  have h₀ : Since u.obj u.version c.crs (nsOf u.obj, u.obj.name) u.obj :=
    Since.of_get hget
  have h₁ : Since u.obj u.version
      (writeCR c (nsOf u.obj, u.obj.name) u.version
        (admitCR (annotated u.obj))).crs
      (nsOf u.obj, u.obj.name) (annotated u.obj) :=
    Since.writeAt_unchanged h₀ hle (admitCR_live hlive)
  unfold crAfter
  by_cases hann : annotated u.obj = u.obj
  · rw [if_neg (by simpa using hann)]
    unfold validState
    dsimp only
    rw [hann] at h₁ ⊢
    have hle₁ := hle.trans (rev_le_writeCR c (nsOf u.obj, u.obj.name)
      u.version (admitCR u.obj))
    cases content c.deployments (nsOf u.obj, deplNameOf u.obj.name) with
    | none => exact since_createState hlive hle₁ h₁
    | some d => exact since_repairState d hlive hle₁ h₁
  · rw [if_pos hann]
    unfold validState
    dsimp only
    cases content c.deployments (nsOf u.obj, deplNameOf u.obj.name) with
    | none =>
        exact since_createState_changed (w := annotated u.obj) h₁ hann
    | some d =>
        exact since_repairState_changed (w := annotated u.obj) d h₁ hann

end Valid

/-! ## The other branches, and what comes back -/

/-- What the status write of the invalid branch stores. -/
def markedInvalid (u : Multiplicador) : Multiplicador :=
  { u with status := (invalidated u).status }

/-- The CR that a complete reconcile of `u` stores; `none` when its last
    finalizer goes. -/
def crNext (u : Multiplicador) (dep : Option Deployment)
    (P : Key → Option Fields) : Option Multiplicador :=
  if u.deletionTimestamp.isSome then
    if finalizerName ∈ u.finalizers then admitCR (withoutFinalizer u) u
    else some u
  else if u.multiplicador ≤ 0 then some (markedInvalid u)
  else some (crAfter u dep P)

/-- The finalizer list gets shorter exactly when it held the operator's. -/
theorem length_withoutFinalizer (u : Multiplicador) :
    (withoutFinalizer u).finalizers.length = u.finalizers.length
      ↔ finalizerName ∉ u.finalizers := by
  rw [withoutFinalizer]
  dsimp only
  rw [List.length_filter_eq_length_iff]
  constructor
  · intro h hmem
    simpa using h _ hmem
  · intro h f hf
    have hne : f ≠ finalizerName := fun e => h (e ▸ hf)
    simpa using hne

/-- The reconcile takes the last finalizer of a CR that is being deleted. -/
def vanishes (u : Multiplicador) : Bool :=
  u.deletionTimestamp.isSome && decide (finalizerName ∈ u.finalizers
    ∧ (withoutFinalizer u).finalizers = [])

/-- Exactly then nothing is stored. -/
theorem crNext_eq_none {u : Multiplicador} {dep : Option Deployment}
    {P : Key → Option Fields} : crNext u dep P = none ↔ vanishes u = true := by
  rw [crNext, vanishes]
  by_cases hdel : u.deletionTimestamp.isSome = true
  · rw [if_pos hdel, hdel, Bool.true_and, decide_eq_true_eq]
    by_cases hfin : finalizerName ∈ u.finalizers
    · rw [if_pos hfin, admitCR]
      by_cases hrest : (withoutFinalizer u).finalizers = []
      · rw [if_pos ⟨hdel, hrest⟩]
        simp [hfin, hrest]
      · rw [if_neg fun h => hrest h.2]
        simp [hrest]
    · rw [if_neg hfin]
      simp [hfin]
  · rw [if_neg hdel]
    split <;> simp [hdel]

section Branches

variable {u : Versioned Multiplicador} {c : Cluster}

/-- A write from the stored version is a plain write. -/
theorem content_writeCR {ad : Multiplicador → Option Multiplicador} {k : Key}
    (hget : c.crs k = some u) :
    content (writeCR c k u.version ad).crs k = ad u.obj := by
  show content (writeAt c.crs c.rev k u.version ad).1 k = _
  rw [writeAt_of_current hget, content_write, Function.update_self]

/-- **THE CR AFTER A RECONCILE**, in every branch. -/
theorem reconcileOne_crNext (hle : u.version ≤ c.rev)
    (hget : c.crs (nsOf u.obj, u.obj.name) = some u) :
    content ((reconcileOne u).run serve c).1.crs (nsOf u.obj, u.obj.name)
      = crNext u.obj
          (content c.deployments (nsOf u.obj, deplNameOf u.obj.name))
          (content c.proxies) := by
  rw [crNext]
  by_cases hdel : u.obj.deletionTimestamp.isSome = true
  · rw [if_pos hdel, reconcileOne_deleted hdel, run_reconcileDeleted]
    rw [deletedState]
    dsimp only
    by_cases hfin : finalizerName ∈ u.obj.finalizers
    · have hlen : ¬ (withoutFinalizer u.obj).finalizers.length
          = u.obj.finalizers.length :=
        fun e => (length_withoutFinalizer u.obj).mp e hfin
      rw [if_pos hfin, if_neg hlen]
      refine content_writeCR ?_
      split
      · exact hget
      · exact hget
    · rw [if_neg hfin, if_pos ((length_withoutFinalizer u.obj).mpr hfin)]
      split
      · exact content_of_some hget
      · show content c.crs _ = _
        exact content_of_some hget
  · rw [if_neg hdel]
    have hlive : u.obj.deletionTimestamp = none := by simpa using hdel
    by_cases hpos : u.obj.multiplicador ≤ 0
    · rw [if_pos hpos, reconcileOne_invalid hlive hpos, run_reconcileInvalid]
      exact content_writeCR hget
    · rw [if_neg hpos]
      exact (since_reconcileOne hlive (by omega) hle hget).content_eq

theorem leaveProxies_congr {v w : Multiplicador} (h : SameReads v w)
    (P : Key → Option Fields) : leaveProxies v P = leaveProxies w P := by
  simp [leaveProxies, h.movesAway, h.nsOf, h.prevProxy, h.prevRoute, h.uid]

theorem panics_congr {v w : Multiplicador} (h : SameReads v w)
    (P : Key → Option Fields) : panics v P = panics w P := by
  simp [panics, leaveProxies_congr h, h.ruta, h.nsOf, h.proxyName,
    h.mergeContent]

/-- The valid branch returns nil or panics. -/
theorem validState_outcome :
    (validState u c).2
      = if panics u.obj (content c.proxies) then .panic else .nil := by
  have ha := sameReads_annotated u.obj
  have hwrap : ∀ b : Bool, wrapEnsure (if b then .panic else .nil)
      = if b then .panic else .nil := by decide
  rw [validState]
  cases content c.deployments (nsOf u.obj, deplNameOf u.obj.name) with
  | none =>
      rw [createState]
      dsimp only
      rw [ensureState_outcome, hwrap]
      have hr := (sameReads_withReady (annotated u.obj)).trans ha
      exact congrArg (fun b : Bool => if b then Outcome.panic else .nil)
        (panics_congr hr _)
  | some d =>
      unfold repairState
      dsimp only
      rw [ensureState_outcome, hwrap]
      rw [← panics_congr ha, setDeployment_proxies, writeCR_proxies]
      cases panics (annotated u.obj) (content c.proxies) <;> rfl

/-- **WHAT A RECONCILE RETURNS**, alone and on a fresh read: nil, unless the
    merge panics. -/
theorem reconcileOne_outcome
    (hget : c.crs (nsOf u.obj, u.obj.name) = some u) :
    ((reconcileOne u).run serve c).2
      = if u.obj.deletionTimestamp = none ∧ 0 < u.obj.multiplicador
          ∧ panics u.obj (content c.proxies) then .panic else .nil := by
  by_cases hdel : u.obj.deletionTimestamp.isSome = true
  · have hne : u.obj.deletionTimestamp ≠ none := by
      intro e
      rw [e] at hdel
      exact absurd hdel (by simp)
    rw [reconcileOne_deleted hdel, run_reconcileDeleted,
      if_neg fun h => hne h.1]
  · have hlive : u.obj.deletionTimestamp = none := by simpa using hdel
    by_cases hpos : u.obj.multiplicador ≤ 0
    · have hn : ¬ 0 < u.obj.multiplicador := by omega
      rw [reconcileOne_invalid hlive hpos, if_neg fun h => hn h.2.1]
      rw [reconcileInvalid, ask]
      simp [serve, update, hget, wrote]
    · have hp : 0 < u.obj.multiplicador := by omega
      rw [reconcileOne_valid hlive hp, run_reconcileValid, validState_outcome]
      simp [hlive, hp]

end Branches

end ReconcileEffect
