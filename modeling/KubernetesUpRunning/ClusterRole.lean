import KubernetesUpRunning.Convergence
import KubernetesUpRunning.FaultyBranches
import KubernetesUpRunning.OperatorPool

/-! # The operator under its ClusterRole

    The manifest that deploys the operator binds it to a ClusterRole.  The rule
    for the custom resource names `multiplicadores`, which does not cover the
    status subresource that the CRD enables: every `UpdateStatus` is forbidden
    and the main update that is tried instead stores everything but the
    status.  So the operator does all its work there and no CR ever gets a
    status. -/

namespace ClusterRole

open ApiServer CallProgram ClusterRuns Conduct Convergence FaultyBranches
open FaultyReconcile FixedPoint GoJson Idempotence KubeObjects Neighbours
open OperatorPool Reconcile ReconcileEffect ReconcileRun ServerSteps
open VersionedStore WorkerPool

/-! ## Rules -/

/-- A rule of a ClusterRole. -/
structure PolicyRule where
  apiGroups : List String
  resources : List String
  verbs : List String

/-- What the API server asks about a call. -/
structure Attributes where
  verb : String
  apiGroup : String
  resource : String
  subresource : String

/-- A subresource goes by the name `resource/subresource`. -/
def Attributes.combined (a : Attributes) : String :=
  if a.subresource = "" then a.resource else a.resource ++ "/" ++ a.subresource

/-- The rule has the entry, or one for everything. -/
def matchesAny (entries : List String) (x : String) : Bool :=
  entries.any fun e => decide (e = "*" ∨ e = x)

/-- The rule is about the resource, or about that subresource of anything. -/
def matchesResource (entries : List String) (a : Attributes) : Bool :=
  matchesAny entries a.combined
    || decide (a.subresource ≠ "" ∧ "*/" ++ a.subresource ∈ entries)

def PolicyRule.allows (p : PolicyRule) (a : Attributes) : Bool :=
  matchesAny p.verbs a.verb && matchesAny p.apiGroups a.apiGroup
    && matchesResource p.resources a

/-- Some rule allows the call. -/
def authorize (role : List PolicyRule) (a : Attributes) : Bool :=
  role.any fun p => p.allows a

/-- Every verb that the role gives. -/
def allVerbs : List String :=
  ["get", "list", "watch", "create", "update", "patch", "delete"]

/-- `multiplicador-operator`, rule by rule. -/
def multiplicadorOperator : List PolicyRule := [
  ⟨["apps"], ["deployments"], allVerbs⟩,
  ⟨[""], ["pods"], ["get", "list", "watch"]⟩,
  ⟨[""], ["services"], allVerbs⟩,
  ⟨["gz.com"], ["multiplicadores"], allVerbs⟩,
  ⟨["projectcontour.io"], ["httpproxies"], allVerbs⟩]

/-- The group and the resource of an object. -/
def resourceOf : Kind → String × String
  | .cr => ("gz.com", "multiplicadores")
  | .deployment => ("apps", "deployments")
  | .service => ("", "services")
  | .proxy => ("projectcontour.io", "httpproxies")

/-- The verb of a call and the subresource it is about. -/
def verbOf : Verb → String × String
  | .get => ("get", "")
  | .create => ("create", "")
  | .update => ("update", "")
  | .updateStatus => ("update", "status")
  | .delete => ("delete", "")

def attributesOf (op : Op) : Attributes where
  verb := (verbOf op.verb).1
  apiGroup := (resourceOf op.kind).1
  resource := (resourceOf op.kind).2
  subresource := (verbOf op.verb).2

/-- The role lets the call through. -/
def permitted (r : Req) : Bool :=
  authorize multiplicadorOperator (attributesOf (opOf r))

/-- **WHAT THE ROLE FORBIDS**: the status writes and nothing else. -/
theorem permitted_iff {r : Req} :
    permitted r = true ↔ (opOf r).verb ≠ .updateStatus := by
  rw [permitted, attributesOf]
  cases (opOf r).kind <;> cases (opOf r).verb <;> decide

/-- The server behind the role. -/
def guarded (c : Cluster) (r : Req) : Cluster × Resp r :=
  if permitted r then serve c r else (c, .error .failed)

theorem guarded_permitted {c : Cluster} {r : Req}
    (h : (opOf r).verb ≠ .updateStatus) : guarded c r = serve c r := by
  rw [guarded, if_pos (permitted_iff.mpr h)]

theorem guarded_status (c : Cluster) (k : Key) (u : Versioned Multiplicador) :
    guarded c (.updateStatusCR k u) = (c, .error .failed) := by
  rw [guarded, if_neg]
  rw [permitted_iff]
  exact fun h => h rfl

/-! ## No CR ever gets a status -/

/-- A call of a worker, under the role. -/
inductive CalledUnder (c : Cluster) (r : Req) : Cluster → Resp r → Prop where
  | permitted (c' : Cluster) (x : Resp r) (h : permitted r = true)
      (hc : Called c r c' x) : CalledUnder c r c' x
  | forbidden (e : ApiError) (h : permitted r = false) :
      CalledUnder c r c (.error e)

/-- What everybody else does.  A CR is created without a status: the server
    takes it out, as it takes it out of every edit. -/
inductive OthersUnder (c : Cluster) : Cluster → Prop where
  | create (k : Key) (u : Multiplicador) (h : Stored k u)
      (hs : u.status = none) : OthersUnder c (createCR c k u)
  | edit (k : Key) (f : Multiplicador → Multiplicador) :
      OthersUnder c (editCR c k f)
  | delete (k : Key) (now : String) : OthersUnder c (deleteCR c k now)
  | collect (k : Key) : OthersUnder c (collectProxy c k)

/-- No stored CR has a status. -/
def Statusless (c : Cluster) : Prop :=
  Holds (fun _ u => u.status = none) c.crs

theorem status_admitCR {w old new : Multiplicador}
    (h : admitCR w old = some new) : new.status = old.status := by
  rw [admitCR] at h
  split at h
  · exact absurd h (by simp)
  · rw [← Option.some.inj h]

/-- A call that is no status write leaves every status. -/
theorem Statusless.effect {c c' : Cluster} {r : Req} (h : Statusless c)
    (hr : (opOf r).verb ≠ .updateStatus) (he : Effect c r c') :
    Statusless c' := by
  cases he with
  | nothing => exact h
  | deployment k new => exact h
  | service k new => exact h
  | proxy k new hp => exact h
  | cr k w old new hu =>
      refine holds_write h ?_
      intro x hx
      rcases hu.req with ⟨-, hnew⟩ | ⟨rfl, -⟩
      · rw [status_admitCR (hnew.symm.trans hx)]
        exact h k old hu.stored
      · exact absurd rfl hr

theorem Statusless.others {c c' : Cluster} (h : Statusless c)
    (ho : OthersUnder c c') : Statusless c' := by
  cases ho with
  | create k u hu hs =>
      rw [createCR]
      cases hc : create c.crs c.rev k u with
      | error e => exact h
      | ok r =>
          obtain ⟨-, rfl⟩ := create_ok hc
          refine holds_write h ?_
          intro x hx
          rw [← Option.some.inj hx]
          exact hs
  | edit k f =>
      rw [editCR]
      split
      · rename_i v hv
        exact holds_write h fun x hx => (status_admitCR hx).trans (h k v hv)
      · exact h
  | delete k now =>
      rw [deleteCR]
      split
      · exact h
      · rename_i v hv
        split
        · exact holds_write h fun x hx => absurd hx (by simp)
        · refine holds_write h fun x hx => ?_
          rw [← Option.some.inj hx]
          exact h k v hv
  | collect k =>
      rw [Statusless, collectProxy_crs]
      exact h

theorem OthersUnder.others {c c' : Cluster} (h : OthersUnder c c') :
    Others c c' := by
  cases h with
  | create k u hu hs => exact .create k u hu
  | edit k f => exact .edit k f
  | delete k now => exact .delete k now
  | collect k => exact .collect k

/-- **NO STATUS, EVER**: whatever the workers reconcile, however their calls
    fare, and whatever everybody else does meanwhile, under the role no stored
    CR has a status in any state that the pool can reach. -/
theorem statusless_of_reaches {ι : Type} [DecidableEq ι]
    {P₀ P : Pool ι Req Resp Outcome Cluster} (hidle : Idle P₀)
    (hwf : WellFormed P₀.store) (h₀ : Statusless P₀.store)
    (h : Reaches (rules CalledUnder OthersUnder) P₀ P) :
    Statusless P.store := by
  have hI := invariant_of_reaches
    (I := fun c => WellFormed c ∧ Statusless c) (R := fun _ _ => True)
    (fun _ _ => trivial) ?_ ?_ hidle ⟨hwf, h₀⟩ h
  · exact hI.2
  · rintro c s r c' x ⟨hc, hs⟩ - - hcall
    refine ⟨?_, ?_, trivial, fun _ _ => trivial⟩
    · cases hcall with
      | permitted _ _ _ hcalled => exact hcalled.answers hc s
      | forbidden e _ => cases r <;> exact trivial
    · cases hcall with
      | permitted _ _ hr hcalled =>
          exact ⟨hcalled.effect.wellFormed hc,
            hs.effect (permitted_iff.mp hr) hcalled.effect⟩
      | forbidden e _ => exact ⟨hc, hs⟩
  · rintro c c' ⟨hc, hs⟩ ho
    exact ⟨⟨ho.others.wellFormed hc, hs.others ho⟩, fun _ _ => trivial⟩

theorem calledUnder_guarded (c : Cluster) (r : Req) :
    CalledUnder c r (guarded c r).1 (guarded c r).2 := by
  by_cases h : permitted r = true
  · rw [guarded, if_pos h]
    exact .permitted _ _ h .served
  · rw [guarded, if_neg h]
    exact .forbidden .failed (by simpa using h)

/-- A worker alone, among the CRs that share a host. -/
theorem statusless_firstReconcile :
    Statusless ((reconcileKey ("default", "web")).run guarded sharedHost).1 := by
  have hidle : Idle (⟨sharedHost, fun _ => .ret .nil⟩ :
      Pool Unit Req Resp Outcome Cluster) := fun _ => ⟨.nil, rfl⟩
  have hnone : Statusless sharedHost := by
    intro k v hv
    have hmem := mem_of_storeOf hv
    simp only [List.mem_cons, Prod.mk.injEq, List.not_mem_nil, or_false]
      at hmem
    rcases hmem with ⟨-, rfl⟩ | ⟨-, rfl⟩ | ⟨-, rfl⟩ <;> rfl
  have halone := reaches_run (R := rules CalledUnder OthersUnder)
    (i := ()) (fun c r => calledUnder_guarded c r) (fun _ => .ret .nil)
    (reconcileKey ("default", "web")) sharedHost
  exact statusless_of_reaches hidle peaceful_sharedHost.wellFormed hnone (.head
    (.start () .nil (reconcileKey ("default", "web")) rfl ⟨_, rfl⟩) halone)

/-! ## The parts of a reconcile under the role -/

section Parts

variable (c : Cluster)

/-- The calls that write no status. -/
def Modest (r : Req) : Prop := (opOf r).verb ≠ .updateStatus

/-- A program that writes no status does not notice the role. -/
theorem run_guarded {α : Type} {p : Api α} (hp : Asks Modest p) :
    p.run guarded c = p.run serve c := by
  have hsame : ∀ (c : Cluster) (r : Req), Modest r → guarded c r = serve c r :=
    fun c r hr => guarded_permitted hr
  exact run_congr_of_asks hsame hp c

theorem run_ensure_guarded (u : Versioned Multiplicador) :
    (ensureServiceAndProxy u).run guarded c = ensureState u c := by
  have hasks : Asks Ensuring (ensureServiceAndProxy u) :=
    (obeys_ensureServiceAndProxy u).mono fun _ _ _ => trivial
  rw [run_guarded c (hasks.mono fun r hr => hr.2)]
  exact run_ensureServiceAndProxy c u

theorem run_updateDeployment_guarded (u : Multiplicador)
    (d : Versioned Deployment)
    (h : c.deployments (nsOf u, deplNameOf u.name) = some d) :
    (updateDeployment u d).run guarded c
      = (setDeployment c (nsOf u, deplNameOf u.name)
          (some (repairDeployment u d.obj)), .nil) := by
  rw [run_guarded c ((asks_updateDeployment u d).mono fun r hr => ?_)]
  · exact run_updateDeployment c u d h
  · refine verb_of_kind (r := r) ?_
    rw [show (opOf r).kind = .deployment from hr]
    simp

/-- The fallback of a status write stores everything but the status. -/
theorem run_writeStatus_guarded (u : Versioned Multiplicador) :
    (writeStatus u).run guarded c
      = (writeCR c (nsOf u.obj, u.obj.name) u.version (admitCR u.obj), ()) := by
  have hupd : (guarded c (.updateCR (nsOf u.obj, u.obj.name) u)).1
      = writeCR c (nsOf u.obj, u.obj.name) u.version (admitCR u.obj) := by
    rw [guarded_permitted (by simp [opOf]), serve_updateCR]
  unfold writeStatus ask
  simp only [Prog.call_bind, Prog.ret_bind, Prog.run_call, guarded_status,
    Prog.run_ret, Prog.pure_eq, hupd]

/-- The invalid branch: the marks land, the status does not. -/
theorem run_reconcileInvalid_guarded (u : Versioned Multiplicador) :
    ((reconcileInvalid u).run guarded c).1
      = writeCR c (nsOf u.obj, u.obj.name) u.version
          (admitCR (invalidated u.obj)) := by
  have hupd : (guarded c (.updateCR (nsOf u.obj, u.obj.name)
      ⟨invalidated u.obj, u.version⟩)).1
      = writeCR c (nsOf u.obj, u.obj.name) u.version
          (admitCR (invalidated u.obj)) := by
    rw [guarded_permitted (by simp [opOf]), serve_updateCR]
  unfold reconcileInvalid ask
  simp only [Prog.call_bind, Prog.ret_bind, Prog.run_call, guarded_status]
  rw [← hupd]
  split <;> rfl

/-- The create branch on the cluster. -/
def createUnder (u : Versioned Multiplicador) (c : Cluster) :
    Cluster × Outcome :=
  let c₁ := setDeployment c (nsOf u.obj, deplNameOf u.obj.name)
    (some (newDeployment u.obj))
  let c₂ := writeCR c₁ (nsOf u.obj, u.obj.name) u.version
    (admitCR (withReady u.obj))
  let r := ensureState ⟨withReady u.obj, u.version⟩ c₂
  (r.1, wrapEnsure r.2.1)

theorem run_reconcileCreate_guarded (u : Versioned Multiplicador)
    (h : c.deployments (nsOf u.obj, deplNameOf u.obj.name) = none) :
    (reconcileCreate u).run guarded c = createUnder u c := by
  have hns : nsOf (withReady u.obj) = nsOf u.obj := rfl
  have hname : (withReady u.obj).name = u.obj.name := rfl
  have hnew : guarded c (.createDeployment
      (nsOf u.obj, deplNameOf u.obj.name) (newDeployment u.obj))
      = (setDeployment c (nsOf u.obj, deplNameOf u.obj.name)
          (some (newDeployment u.obj)), .ok ()) := by
    rw [guarded_permitted (by simp [opOf]), serve_createDeployment h]
  rw [reconcileCreate, createUnder, ask]
  simp [hnew, run_writeStatus_guarded, run_ensure_guarded, hns, hname]

/-- The repair branch on the cluster. -/
def repairUnder (u : Versioned Multiplicador) (d : Deployment) (c : Cluster) :
    Cluster × Outcome :=
  let c₁ := setDeployment c (nsOf u.obj, deplNameOf u.obj.name)
    (some (repairDeployment u.obj d))
  let r := ensureState u c₁
  match wrapEnsure r.2.1 with
  | .nil => (writeCR r.1 (nsOf r.2.2, r.2.2.name) u.version
      (admitCR (withReady r.2.2)), .nil)
  | o => (r.1, o)

theorem run_reconcileRepair_guarded (u : Versioned Multiplicador)
    (d : Versioned Deployment)
    (h : c.deployments (nsOf u.obj, deplNameOf u.obj.name) = some d) :
    (reconcileRepair u d).run guarded c = repairUnder u d.obj c := by
  have hns : ∀ v, nsOf (withReady v) = nsOf v := fun _ => rfl
  have hname : ∀ v, (withReady v).name = v.name := fun _ => rfl
  rw [reconcileRepair, repairUnder]
  simp only [Prog.run_bind, run_updateDeployment_guarded c u.obj d h,
    run_ensure_guarded]
  cases wrapEnsure (ensureState u (setDeployment c
      (nsOf u.obj, deplNameOf u.obj.name)
      (some (repairDeployment u.obj d.obj)))).2.1 with
  | nil => simp [run_writeStatus_guarded, hns, hname]
  | error e => simp
  | panic => simp

/-- The valid branch on the cluster. -/
def validUnder (u : Versioned Multiplicador) (c : Cluster) :
    Cluster × Outcome :=
  let c₁ := writeCR c (nsOf u.obj, u.obj.name) u.version
    (admitCR (annotated u.obj))
  match content c.deployments (nsOf u.obj, deplNameOf u.obj.name) with
  | none => createUnder ⟨annotated u.obj, u.version⟩ c₁
  | some d => repairUnder ⟨annotated u.obj, u.version⟩ d c₁

theorem run_reconcileValid_guarded (u : Versioned Multiplicador) :
    (reconcileValid u).run guarded c = validUnder u c := by
  have hupd : (guarded c (.updateCR (nsOf u.obj, u.obj.name)
      ⟨annotated u.obj, u.version⟩)).1
      = writeCR c (nsOf u.obj, u.obj.name) u.version
          (admitCR (annotated u.obj)) := by
    rw [guarded_permitted (by simp [opOf]), serve_updateCR]
  have hget : ∀ c' : Cluster, ∀ q,
      guarded c' (.getDeployment q) = (c', got (c'.deployments q)) :=
    fun c' q => guarded_permitted (by simp [opOf])
  unfold reconcileValid validUnder ask
  simp only [Prog.call_bind, Prog.ret_bind, Prog.run_call, hupd, hget,
    writeCR_deployments]
  cases h : c.deployments (nsOf u.obj, deplNameOf u.obj.name) with
  | none =>
      rw [content_of_none h]
      simp only [got]
      exact run_reconcileCreate_guarded (writeCR c _ _ _)
        ⟨annotated u.obj, u.version⟩ h
  | some d =>
      rw [content_of_some h]
      simp only [got]
      exact run_reconcileRepair_guarded (writeCR c _ _ _)
        ⟨annotated u.obj, u.version⟩ d h

end Parts

/-! ## The same children -/

/-- The Deployments, the Services and the HTTPProxies are the same. -/
structure ChildrenAgree (c c' : Cluster) : Prop where
  deployments : content c.deployments = content c'.deployments
  services : content c.services = content c'.services
  proxies : content c.proxies = content c'.proxies

namespace ChildrenAgree

variable {c c' : Cluster}

theorem refl (c : Cluster) : ChildrenAgree c c := ⟨rfl, rfl, rfl⟩

theorem trans {c'' : Cluster} (h : ChildrenAgree c c')
    (h' : ChildrenAgree c' c'') : ChildrenAgree c c'' :=
  ⟨h.deployments.trans h'.deployments, h.services.trans h'.services,
    h.proxies.trans h'.proxies⟩

/-- CR writes on either side. -/
theorem crs (h : ChildrenAgree c c') (k k' : Key) (n n' : Nat)
    (ad ad' : Multiplicador → Option Multiplicador) :
    ChildrenAgree (writeCR c k n ad) (writeCR c' k' n' ad') :=
  ⟨h.deployments, h.services, h.proxies⟩

theorem deployment (h : ChildrenAgree c c') (k : Key)
    (d : Option Deployment) :
    ChildrenAgree (setDeployment c k d) (setDeployment c' k d) := by
  refine ⟨?_, h.services, h.proxies⟩
  rw [setDeployment_deployments, setDeployment_deployments, h.deployments]

/-- The Service and the HTTPProxies. -/
theorem ensure (h : ChildrenAgree c c') (w : Versioned Multiplicador) :
    ChildrenAgree (ensureState w c).1 (ensureState w c').1
      ∧ (ensureState w c).2.1 = (ensureState w c').2.1 := by
  refine ⟨⟨?_, ?_, ?_⟩, ?_⟩
  · rw [ensureState_deployments, ensureState_deployments, h.deployments]
  · rw [services_ensureState, services_ensureState, h.services]
  · rw [ensureState_proxies, ensureState_proxies, h.proxies]
  · obtain ⟨w, n⟩ := w
    rw [ensureState_outcome, ensureState_outcome, h.proxies]

theorem create (h : ChildrenAgree c c') (u : Versioned Multiplicador) :
    ChildrenAgree (createState u c).1 (createUnder u c').1
      ∧ (createState u c).2 = (createUnder u c').2 := by
  obtain ⟨hensure, hout⟩ := ((h.deployment
    (nsOf u.obj, deplNameOf u.obj.name) (some (newDeployment u.obj))).crs
    (nsOf u.obj, u.obj.name) (nsOf u.obj, u.obj.name) u.version u.version
    (admitStatus (withReady u.obj)) (admitCR (withReady u.obj))).ensure
    ⟨withReady u.obj, u.version⟩
  exact ⟨hensure, congrArg wrapEnsure hout⟩

theorem repair (h : ChildrenAgree c c') (u : Versioned Multiplicador)
    (d : Deployment) :
    ChildrenAgree (repairState u d c).1 (repairUnder u d c').1
      ∧ (repairState u d c).2 = (repairUnder u d c').2 := by
  obtain ⟨hensure, hout⟩ := (h.deployment
    (nsOf u.obj, deplNameOf u.obj.name)
    (some (repairDeployment u.obj d))).ensure u
  unfold repairState repairUnder
  dsimp only
  rw [← hout]
  cases wrapEnsure (ensureState u (setDeployment c
      (nsOf u.obj, deplNameOf u.obj.name)
      (some (repairDeployment u.obj d)))).2.1 with
  | nil => exact ⟨hensure.crs _ _ _ _ _ _, rfl⟩
  | error e => exact ⟨hensure, rfl⟩
  | panic => exact ⟨hensure, rfl⟩

theorem valid (h : ChildrenAgree c c') (u : Versioned Multiplicador) :
    ChildrenAgree (validState u c).1 (validUnder u c').1
      ∧ (validState u c).2 = (validUnder u c').2 := by
  have hann := h.crs (nsOf u.obj, u.obj.name) (nsOf u.obj, u.obj.name)
    u.version u.version (admitCR (annotated u.obj)) (admitCR (annotated u.obj))
  unfold validState validUnder
  dsimp only
  rw [← h.deployments]
  cases content c.deployments (nsOf u.obj, deplNameOf u.obj.name) with
  | none => exact hann.create ⟨annotated u.obj, u.version⟩
  | some d => exact hann.repair ⟨annotated u.obj, u.version⟩ d

theorem inPlace (h : ChildrenAgree c c') {u : Multiplicador}
    (hp : InPlace u c) : InPlace u c' := by
  obtain ⟨hdep, hsvc, hleft, hmerged⟩ := hp
  rw [h.deployments] at hdep
  rw [h.services] at hsvc
  rw [h.proxies] at hleft hmerged
  exact ⟨hdep, hsvc, hleft, hmerged⟩

end ChildrenAgree

/-! ## A complete reconcile under the role -/

/-- Fetch the CR at `k` and reconcile it under the role, nobody else calling
    in between. -/
def reconcileUnder (c : Cluster) (k : Key) : Cluster :=
  ((reconcileKey k).run guarded c).1

section Reconcile

variable {c : Cluster} {k : Key} {u : Versioned Multiplicador}

theorem reconcileUnder_of_some (h : c.crs k = some u) :
    reconcileUnder c k = ((reconcileOne u).run guarded c).1 := by
  have hget : guarded c (.getCR k) = (c, .ok u) := by
    rw [guarded_permitted (by simp [opOf])]
    simp [serve, got, h]
  rw [reconcileUnder, reconcileKey, ask]
  simp [hget]

theorem reconcileUnder_valid (hk : c.crs k = some u)
    (hlive : u.obj.deletionTimestamp = none)
    (hpos : 0 < u.obj.multiplicador) :
    reconcileUnder c k = (validUnder u c).1 := by
  rw [reconcileUnder_of_some hk, reconcileOne_valid hlive hpos,
    run_reconcileValid_guarded]

theorem reconcileUnder_invalid (hk : c.crs k = some u)
    (hlive : u.obj.deletionTimestamp = none)
    (hle : u.obj.multiplicador ≤ 0) :
    reconcileUnder c k = writeCR c (nsOf u.obj, u.obj.name) u.version
      (admitCR (invalidated u.obj)) := by
  rw [reconcileUnder_of_some hk, reconcileOne_invalid hlive hle,
    run_reconcileInvalid_guarded]

theorem effect_guarded (c : Cluster) (r : Req) :
    Effect c r (guarded c r).1 := by
  rw [guarded]
  split
  · exact serve_effect c r
  · exact .nothing

theorem wellFormed_reconcileUnder (h : WellFormed c) :
    WellFormed (reconcileUnder c k) :=
  Prog.run_keeps guarded (fun s r hs => (effect_guarded s r).wellFormed hs) _
    c h

/-- It writes no CR but its own. -/
theorem reconcileUnder_crs_of_ne {k' : Key} (h : WellFormed c) (hk : k' ≠ k) :
    (reconcileUnder c k).crs k' = c.crs k' := by
  let G : Cluster → Knows → Prop := fun st s =>
    s.key = k ∧ WellFormed st ∧ st.crs k' = c.crs k'
  have hstep : ∀ st s r, G st s → conduct.allowed s r →
      conduct.answers s r (guarded st r).2
        ∧ G (guarded st r).1 (conduct.next s r (guarded st r).2) := by
    intro st s r hG hr
    obtain ⟨hkey, hwf, hcrs⟩ := hG
    have he := effect_guarded st r
    refine ⟨?_, ?_, he.wellFormed hwf, ?_⟩
    · rw [guarded]
      split
      · exact answers_serve hwf s r
      · cases r <;> exact trivial
    · exact (next_key s r _).trans hkey
    · rw [← hcrs]
      exact crs_of_allowed he hr (hkey ▸ hk)
  have hfresh : G c (Knows.fresh k false) := ⟨rfl, h, rfl⟩
  obtain ⟨s', hG, -⟩ := run_of_obeys hstep hfresh (obeys_reconcileKey k false)
  exact hG.2.2

end Reconcile

/-! ## The CR under the role -/

/-- What is stored of a live and valid CR: the annotations, or else the
    record. -/
def crUnder (u : Multiplicador) (P : Key → Option Fields) : Multiplicador :=
  if annotated u ≠ u then annotated u else recordWrite u P u

section CR

variable {u x : Multiplicador} {n : Nat} {c : Cluster}

/-- The main update stores no status. -/
theorem mainWrite_withReady (w x : Multiplicador) :
    mainWrite (withReady w) x = mainWrite w x := rfl

theorem recordWrite_withReady (P : Key → Option Fields) :
    recordWrite (withReady u) P x = recordWrite u P x := by
  have h := sameReads_withReady u
  have hsettled : ∀ o, mainWrite (settled (withReady u) o) x
      = mainWrite (settled u o) x := by
    intro o
    cases o with
    | none => rfl
    | some o =>
        show mainWrite (withFinalizer (recorded (withReady u))) x
          = mainWrite (withFinalizer (recorded u)) x
        rw [withFinalizer, withFinalizer]
        have hfin : (recorded (withReady u)).finalizers
          = (recorded u).finalizers := rfl
        rw [hfin]
        split <;> rfl
  rw [recordWrite, recordWrite, h.ruta, h.nsOf, h.proxyName,
    leaveProxies_congr h, h.mergeContent, hsettled]

/-- What the fallback at the end of a repair stores is the record again. -/
theorem mainWrite_ensureState (hp : panics u (content c.proxies) = false) :
    mainWrite (withReady (ensureState ⟨u, n⟩ c).2.2) u
      = recordWrite u (content c.proxies) u := by
  rw [mainWrite_withReady, recordWrite]
  by_cases hr : u.ruta = ""
  · rw [ensureState_of_no_ruta hr, if_pos hr]
    rfl
  · rw [ensureState_of_ruta hr, if_neg hr, ← leave_service_proxies]
    cases hm : mergeContent u (content (leaveState u (serviceState u c)).proxies
        (nsOf u, proxyNameOf u)) with
    | none =>
        rw [leave_service_proxies] at hm
        rw [panics, decide_eq_false_iff_not] at hp
        exact absurd ⟨hr, hm⟩ hp
    | some o => rw [installState_ok hm]

end CR

section Since

variable {u : Versioned Multiplicador} {c : Cluster}

/-- The create branch, on a CR that has not changed so far. -/
theorem since_createUnder (hlive : u.obj.deletionTimestamp = none)
    (hle : u.version ≤ c.rev)
    (h : Since u.obj u.version c.crs (nsOf u.obj, u.obj.name) u.obj) :
    Since u.obj u.version (createUnder u c).1.crs (nsOf u.obj, u.obj.name)
      (recordWrite u.obj (content c.proxies) u.obj) := by
  rw [createUnder]
  dsimp only
  set c₁ := setDeployment c (nsOf u.obj, deplNameOf u.obj.name)
    (some (newDeployment u.obj)) with hc₁
  have hle₁ : u.version ≤ c₁.rev := hle.trans (rev_le_setDeployment c _ _)
  have h₁ : Since u.obj u.version c₁.crs (nsOf u.obj, u.obj.name) u.obj := h
  have h₂ := Since.writeAt_unchanged h₁ hle₁
    (show admitCR (withReady u.obj) u.obj = some u.obj from admitCR_live hlive)
  have h₃ := since_ensureState (w := withReady u.obj) hlive
    (hle₁.trans (rev_le_writeCR c₁ _ _ _)) h₂
  rw [recordWrite_withReady] at h₃
  exact h₃

theorem since_createUnder_changed {y x : Multiplicador} {n : Nat}
    (h : Since x n c.crs (nsOf y, y.name) y) (hy : y ≠ x) :
    Since x n (createUnder ⟨y, n⟩ c).1.crs (nsOf y, y.name) y := by
  rw [createUnder]
  dsimp only
  have h₁ : Since x n (setDeployment c (nsOf y, deplNameOf y.name)
      (some (newDeployment y))).crs (nsOf y, y.name) y := h
  exact since_ensureState_changed (w := withReady y)
    (Since.writeAt_changed h₁ hy) hy

/-- The repair branch, on a CR that has not changed so far. -/
theorem since_repairUnder (d : Deployment)
    (hlive : u.obj.deletionTimestamp = none) (hle : u.version ≤ c.rev)
    (h : Since u.obj u.version c.crs (nsOf u.obj, u.obj.name) u.obj) :
    Since u.obj u.version (repairUnder u d c).1.crs (nsOf u.obj, u.obj.name)
      (recordWrite u.obj (content c.proxies) u.obj) := by
  unfold repairUnder
  dsimp only
  set c₁ := setDeployment c (nsOf u.obj, deplNameOf u.obj.name)
    (some (repairDeployment u.obj d)) with hc₁
  have hle₁ : u.version ≤ c₁.rev := hle.trans (rev_le_setDeployment c _ _)
  have h₂ : Since u.obj u.version (ensureState u c₁).1.crs
      (nsOf u.obj, u.obj.name)
      (recordWrite u.obj (content c.proxies) u.obj) :=
    since_ensureState (w := u.obj) (c := c₁) hlive hle₁ h
  have hout := ensureState_outcome (w := u.obj) (n := u.version) (c := c₁)
  obtain ⟨hns, hname, -⟩ :=
    ensureState_cr (w := u.obj) (n := u.version) (c := c₁)
  have hkey : (nsOf (ensureState u c₁).2.2, (ensureState u c₁).2.2.name)
      = (nsOf u.obj, u.obj.name) := by
    simp [nsOf, hns, hname]
  have hP : content c₁.proxies = content c.proxies := rfl
  rw [hP] at hout
  cases hp : panics u.obj (content c.proxies) with
  | true =>
      simp only [hp, if_true] at hout
      simp only [hout, wrapEnsure]
      exact h₂
  | false =>
      simp only [hp, Bool.false_eq_true, if_false] at hout
      simp only [hout, wrapEnsure]
      rw [hkey]
      by_cases hr : recordWrite u.obj (content c.proxies) u.obj = u.obj
      · -- the record is there, so the fallback stores what is stored
        rw [hr] at h₂ ⊢
        refine Since.writeAt_unchanged h₂ (hle₁.trans rev_le_ensureState) ?_
        rw [admitCR_live hlive]
        exact congrArg some
          ((mainWrite_ensureState (n := u.version) (c := c₁) hp).trans hr)
      · exact Since.writeAt_changed h₂ hr

theorem since_repairUnder_changed (d : Deployment) {y x : Multiplicador}
    {n : Nat} (h : Since x n c.crs (nsOf y, y.name) y) (hy : y ≠ x) :
    Since x n (repairUnder ⟨y, n⟩ d c).1.crs (nsOf y, y.name) y := by
  unfold repairUnder
  dsimp only
  set c₁ := setDeployment c (nsOf y, deplNameOf y.name)
    (some (repairDeployment y d)) with hc₁
  have h₂ : Since x n (ensureState ⟨y, n⟩ c₁).1.crs (nsOf y, y.name) y :=
    since_ensureState_changed (w := y) (c := c₁) h hy
  obtain ⟨hns, hname, -⟩ := ensureState_cr (w := y) (n := n) (c := c₁)
  have hkey : (nsOf (ensureState ⟨y, n⟩ c₁).2.2,
      (ensureState ⟨y, n⟩ c₁).2.2.name) = (nsOf y, y.name) := by
    simp [nsOf, hns, hname]
  split
  · rw [hkey]
    exact Since.writeAt_changed h₂ hy
  · exact h₂

/-- **THE CR UNDER THE ROLE**: its status is none of what a reconcile
    writes. -/
theorem since_reconcileUnder {k : Key} (h : WellFormed c)
    (hk : c.crs k = some u) (hlive : u.obj.deletionTimestamp = none)
    (hpos : 0 < u.obj.multiplicador) :
    Since u.obj u.version (reconcileUnder c k).crs k
      (crUnder u.obj (content c.proxies)) := by
  have hkey := (h.stored k u hk).key
  have hle : u.version ≤ c.rev := h.crs k u hk
  rw [reconcileUnder_valid hk hlive hpos, ← hkey]
  have h₀ : Since u.obj u.version c.crs (nsOf u.obj, u.obj.name) u.obj := by
    rw [hkey]
    exact Since.of_get hk
  have h₁ : Since u.obj u.version
      (writeCR c (nsOf u.obj, u.obj.name) u.version
        (admitCR (annotated u.obj))).crs
      (nsOf u.obj, u.obj.name) (annotated u.obj) :=
    Since.writeAt_unchanged h₀ hle (admitCR_live hlive)
  unfold crUnder validUnder
  dsimp only
  by_cases hann : annotated u.obj = u.obj
  · rw [if_neg (by simpa using hann)]
    rw [hann] at h₁ ⊢
    have hle₁ := hle.trans (rev_le_writeCR c (nsOf u.obj, u.obj.name)
      u.version (admitCR u.obj))
    cases content c.deployments (nsOf u.obj, deplNameOf u.obj.name) with
    | none => exact since_createUnder hlive hle₁ h₁
    | some d => exact since_repairUnder d hlive hle₁ h₁
  · rw [if_pos hann]
    cases content c.deployments (nsOf u.obj, deplNameOf u.obj.name) with
    | none => exact since_createUnder_changed h₁ hann
    | some d => exact since_repairUnder_changed d h₁ hann

end Since

theorem status_recordWrite (u : Multiplicador) (P : Key → Option Fields) :
    (recordWrite u P u).status = u.status := by
  rw [recordWrite]
  split
  · rfl
  · split <;> rfl

theorem continues_crUnder (u : Multiplicador) (P : Key → Option Fields) :
    Continues u (crUnder u P) ∧ annotated (crUnder u P) = crUnder u P
      ∧ (crUnder u P).status = u.status := by
  rw [crUnder]
  split
  · exact ⟨continues_annotated u, annotated_annotated u, rfl⟩
  · rename_i hann
    have ha : annotated u = u := by simpa using hann
    refine ⟨?_, ?_, status_recordWrite u P⟩
    · rcases recordWrite_cases u P with h | ⟨o, h⟩
      · rw [h]
        exact Continues.refl u
      · rw [h]
        exact continues_settled u o
    · rcases recordWrite_cases u P with h | ⟨o, h⟩
      · rw [h, ha]
      · rw [h]
        exact annotated_settled ha o

/-! ## Passes -/

/-- The cluster after `n` complete reconciles of the CR at `k` under the
    role. -/
def passesUnder (c : Cluster) (k : Key) : Nat → Cluster
  | 0 => c
  | n + 1 => reconcileUnder (passesUnder c k n) k

section Pass

variable {c : Cluster} {k : Key} {u : Versioned Multiplicador}

/-- The first pass leaves what it would leave without the role, but in the
    CR. -/
theorem tended_firstUnder (h : WellFormed c) (hk : c.crs k = some u)
    (hlive : u.obj.deletionTimestamp = none)
    (hpos : 0 < u.obj.multiplicador) (hmaps : HaveMaps c) :
    ∃ v, Tended u.obj k (reconcileUnder c k) v
      ∧ v.obj.status = u.obj.status := by
  obtain ⟨n, hv, -⟩ := (since_reconcileUnder h hk hlive hpos).stored
  obtain ⟨hcont, hann, hstatus⟩ :=
    continues_crUnder u.obj (content c.proxies)
  have hagree : ChildrenAgree (reconcileNow c k) (reconcileUnder c k) := by
    rw [reconcileNow_valid hk hlive hpos, reconcileUnder_valid hk hlive hpos]
    exact ((ChildrenAgree.refl c).valid u).1
  have hplace : InPlace u.obj (reconcileUnder c k) :=
    hagree.inPlace (inPlace_reconcileNow hk hlive hpos hmaps)
  exact ⟨_, ⟨wellFormed_reconcileUnder h, hv, hcont, hplace.continues hcont,
    hann⟩, hstatus⟩

/-- Over what is in place only CRs are written. -/
theorem validUnder_inPlace {w : Versioned Multiplicador}
    (h : InPlace w.obj c) : ∃ r, (validUnder w c).1 = c.putCRs r := by
  have ha := h.continues (continues_annotated w.obj)
  obtain ⟨d, hd, hfix⟩ := ha.deployment
  have hd' : content c.deployments (nsOf w.obj, deplNameOf w.obj.name)
      = some d := hd
  have ha₁ : InPlace (annotated w.obj) (writeCR c (nsOf w.obj, w.obj.name)
      w.version (admitCR (annotated w.obj))) :=
    ⟨ha.deployment, ha.service, ha.left, ha.merged⟩
  have hdep : setDeployment (writeCR c (nsOf w.obj, w.obj.name) w.version
      (admitCR (annotated w.obj))) (nsOf w.obj, deplNameOf w.obj.name)
      (some (repairDeployment (annotated w.obj) d))
      = writeCR c (nsOf w.obj, w.obj.name) w.version
        (admitCR (annotated w.obj)) := by
    refine setDeployment_eq_self _ _ ?_
    rw [hfix]
    exact hd'.symm
  obtain ⟨r, hr⟩ := ensureState_inPlace (n := w.version) ha₁
  unfold validUnder repairUnder
  dsimp only
  rw [hd']
  dsimp only
  rw [show nsOf (annotated w.obj) = nsOf w.obj from rfl,
    show (annotated w.obj).name = w.obj.name from rfl, hdep]
  split
  · rw [hr]
    exact ⟨_, rfl⟩
  · rw [hr]
    exact ⟨_, rfl⟩

/-- **ONE MORE PASS**: the CR takes its record, and nothing else moves. -/
theorem tended_passUnder {w : Multiplicador} {v : Versioned Multiplicador}
    (h : Tended w k c v) (hlive : w.deletionTimestamp = none)
    (hpos : 0 < w.multiplicador) :
    ∃ v', Tended w k (reconcileUnder c k) v' ∧ v'.obj = registered v.obj
      ∧ v'.obj.status = v.obj.status
      ∧ (∃ r, reconcileUnder c k = c.putCRs r)
      ∧ (v'.obj = v.obj → (reconcileUnder c k).crs = c.crs) := by
  have hlive' : v.obj.deletionTimestamp = none := by
    rw [deletionTimestamp_of_continues h.continues]
    exact hlive
  have hpos' : 0 < v.obj.multiplicador := by
    rw [multiplicador_of_continues h.continues]
    exact hpos
  obtain ⟨n, hv, hver⟩ :=
    (since_reconcileUnder h.wellFormed h.stored hlive' hpos').stored
  obtain ⟨hcont, hann, hstatus⟩ :=
    continues_crUnder v.obj (content c.proxies)
  have hreg : crUnder v.obj (content c.proxies) = registered v.obj := by
    rw [crUnder, if_neg (by simp [h.annotated])]
    refine (recordWrite_of_target fun hr => ?_).1
    obtain ⟨m, hm, hserves, hdrop⟩ := h.inPlace.merged hr
    exact ⟨m, m, hm, mergeProxy_of_serves hserves hdrop⟩
  obtain ⟨r, hr⟩ : ∃ r, reconcileUnder c k = c.putCRs r := by
    rw [reconcileUnder_valid h.stored hlive' hpos']
    exact validUnder_inPlace h.inPlace
  have hplace : InPlace v.obj (reconcileUnder c k) := by
    rw [hr]
    exact ⟨h.inPlace.deployment, h.inPlace.service, h.inPlace.left,
      h.inPlace.merged⟩
  refine ⟨⟨crUnder v.obj (content c.proxies), n⟩,
    ⟨wellFormed_reconcileUnder h.wellFormed, hv, h.continues.trans hcont,
      hplace.continues hcont, hann⟩, hreg, hstatus, ⟨r, hr⟩, ?_⟩
  intro hsame
  funext k'
  by_cases hk : k' = k
  · subst hk
    rw [hv, h.stored, hver.mpr hsame]
    exact congrArg (fun x => some (⟨x, v.version⟩ : Versioned Multiplicador))
      hsame
  · exact reconcileUnder_crs_of_ne h.wellFormed hk

end Pass

/-- The CR `v` carries what the spec of `u` asks for, but for the status,
    which is the one `u` had. -/
structure InForceUnder (u v : Multiplicador) : Prop where
  spec : v.spec = u.spec
  status : v.status = u.status
  valid : v.ann.lookup annValid = some "true"
  multiplicador : v.ann.lookup annMultiplicador
    = some (sprintD ((getIntField u "multiplicador").getD 2))
  record : u.ruta ≠ "" → v.ann.lookup annProxy = some (proxyNameOf u)
    ∧ v.ann.lookup annProxyRoute = some ("/" ++ u.ruta)
    ∧ finalizerName ∈ v.finalizers

theorem inForceUnder_of_rest {u v : Multiplicador} (hc : Continues u v)
    (ha : annotated v = v) (hreg : registered v = v)
    (hs : v.status = u.status) : InForceUnder u v := by
  obtain ⟨a, hann, hv, hm⟩ := annotated_eq_self_iff.mp ha
  have hva : v.ann = a := by rw [Multiplicador.ann, hann]; rfl
  have hrecord : Registered v := by
    rw [← hreg]
    exact registered_registered v
  obtain ⟨⟨a', f, s, rfl⟩, -⟩ := hc
  refine ⟨rfl, hs, ?_, ?_, ?_⟩
  · rw [hva]
    exact hv
  · rw [hva]
    exact hm
  · intro hr
    obtain ⟨b, hb, hp, hroute, hfin⟩ := hrecord hr
    have hab : b = a := Option.some.inj (hb.symm.trans hann)
    rw [hva, ← hab]
    exact ⟨hp, hroute, hfin⟩

section Run

variable {c : Cluster} {k : Key} {u : Versioned Multiplicador}

theorem tended_passesUnder (h : WellFormed c) (hk : c.crs k = some u)
    (hlive : u.obj.deletionTimestamp = none)
    (hpos : 0 < u.obj.multiplicador) (hmaps : HaveMaps c) (n : Nat) :
    ∃ v, Tended u.obj k (passesUnder c k (n + 1)) v
      ∧ v.obj.status = u.obj.status
      ∧ (1 ≤ n → registered v.obj = v.obj) := by
  induction n with
  | zero =>
      obtain ⟨v, hv, hs⟩ := tended_firstUnder h hk hlive hpos hmaps
      exact ⟨v, hv, hs, by omega⟩
  | succ n ih =>
      obtain ⟨v, hv, hs, -⟩ := ih
      obtain ⟨v', hv', hreg, hs', -, -⟩ := tended_passUnder hv hlive hpos
      refine ⟨v', hv', hs'.trans hs, fun _ => ?_⟩
      rw [hreg]
      exact registered_eq_self (registered_registered v.obj)

/-- **TWO PASSES UNDER THE ROLE**: the Deployments, the Services and the
    HTTPProxies are, from the first pass on, those of a reconcile without the
    role; the CRs stay as the second pass leaves them; and the CR then carries
    everything but a status of its own. -/
theorem rests_under_role (h : WellFormed c) (hk : c.crs k = some u)
    (hlive : u.obj.deletionTimestamp = none)
    (hpos : 0 < u.obj.multiplicador) (hmaps : HaveMaps c) :
    (∀ n, 1 ≤ n → ChildrenAgree (passes c k 1) (passesUnder c k n))
    ∧ ∀ n, 2 ≤ n → (passesUnder c k n).crs = (passesUnder c k 2).crs
        ∧ ∃ v, (passesUnder c k n).crs k = some v
          ∧ InForceUnder u.obj v.obj := by
  have htended := tended_passesUnder h hk hlive hpos hmaps
  constructor
  · intro n hn
    induction n, hn using Nat.le_induction with
    | base =>
        show ChildrenAgree (reconcileNow c k) (reconcileUnder c k)
        rw [reconcileNow_valid hk hlive hpos,
          reconcileUnder_valid hk hlive hpos]
        exact ((ChildrenAgree.refl c).valid u).1
    | succ n hn ih =>
        obtain ⟨m, rfl⟩ := Nat.exists_eq_add_of_le' hn
        obtain ⟨v, hv, -⟩ := htended m
        obtain ⟨v', -, -, -, ⟨r, hr⟩, -⟩ := tended_passUnder hv hlive hpos
        have hpass : passesUnder c k (m + 1 + 1)
            = (passesUnder c k (m + 1)).putCRs r := hr
        rw [hpass]
        exact ⟨ih.deployments, ih.services, ih.proxies⟩
  · intro n hn
    have hforce : ∀ m, 2 ≤ m → ∃ v, Tended u.obj k (passesUnder c k m) v
        ∧ v.obj.status = u.obj.status ∧ registered v.obj = v.obj := by
      intro m hm
      obtain ⟨m', rfl⟩ := Nat.exists_eq_add_of_le' (show 1 ≤ m by omega)
      obtain ⟨v, hv, hs, hreg⟩ := htended m'
      exact ⟨v, hv, hs, hreg (by omega)⟩
    constructor
    · induction n, hn using Nat.le_induction with
      | base => rfl
      | succ n hn ih =>
          obtain ⟨v, hv, -, hreg⟩ := hforce n hn
          obtain ⟨v', -, hstep, -, -, hsame⟩ := tended_passUnder hv hlive hpos
          exact (hsame (hstep.trans hreg)).trans ih
    · obtain ⟨v, hv, hs, hreg⟩ := hforce n hn
      exact ⟨v, hv.stored,
        inForceUnder_of_rest hv.continues hv.annotated hreg hs⟩

end Run

/-- One of the CRs that share a host. -/
theorem rests_under_role_sharedHost :
    (∀ n, 1 ≤ n → ChildrenAgree (passes sharedHost ("default", "web") 1)
        (passesUnder sharedHost ("default", "web") n))
      ∧ ∀ n, 2 ≤ n → (passesUnder sharedHost ("default", "web") n).crs
          = (passesUnder sharedHost ("default", "web") 2).crs
        ∧ ∃ v, (passesUnder sharedHost ("default", "web") n).crs
            ("default", "web") = some v
          ∧ InForceUnder (newCR "web" "a.com" "calc") v.obj :=
  rests_under_role (u := ⟨newCR "web" "a.com" "calc", 1⟩)
    peaceful_sharedHost.wellFormed rfl rfl (by decide) peaceful_sharedHost.maps

end ClusterRole
