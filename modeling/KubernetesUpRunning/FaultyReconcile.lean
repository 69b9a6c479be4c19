import KubernetesUpRunning.FaultyServer
import KubernetesUpRunning.ReconcileEffect

/-! # A reconcile whose calls may fail

    The parts of `reconcileOne` against an API server whose calls fail in any
    pattern.  Of each part two things are said: what it leaves of the object it
    is about, and when it comes back with nil; everything else it leaves alone
    (`SameBut`), the fates of the calls that are none of its own too. -/

namespace FaultyReconcile

open ApiServer CallProgram FaultyServer GoJson KubeObjects Reconcile
open ReconcileEffect ReconcileRun VersionedStore

inductive Verb where
  | get
  | create
  | update
  | updateStatus
  | delete
  deriving DecidableEq

inductive Kind where
  | cr
  | deployment
  | service
  | proxy
  deriving DecidableEq

/-- A kind of call: what is done to which object. -/
structure Op where
  verb : Verb
  kind : Kind
  key : Key
  deriving DecidableEq

def opOf : Req → Op
  | .getCR k => ⟨.get, .cr, k⟩
  | .updateCR k _ => ⟨.update, .cr, k⟩
  | .updateStatusCR k _ => ⟨.updateStatus, .cr, k⟩
  | .getDeployment k => ⟨.get, .deployment, k⟩
  | .createDeployment k _ => ⟨.create, .deployment, k⟩
  | .updateDeployment k _ => ⟨.update, .deployment, k⟩
  | .getService k => ⟨.get, .service, k⟩
  | .createService k _ => ⟨.create, .service, k⟩
  | .updateService k _ => ⟨.update, .service, k⟩
  | .getProxy k => ⟨.get, .proxy, k⟩
  | .createProxy k _ => ⟨.create, .proxy, k⟩
  | .updateProxy k _ => ⟨.update, .proxy, k⟩
  | .deleteProxy k => ⟨.delete, .proxy, k⟩

/-- How the calls fare: the n-th call of each kind. -/
abbrev Fates := Op → Nat → Fate Cluster ApiError

/-- The API server with the fates of the calls to come. -/
abbrev ApiSite := Site Req Op Cluster ApiError

/-- The API server whose calls may fail. -/
abbrev faultyApi (s : ApiSite) (r : Req) : ApiSite × Resp r :=
  faulty serve opOf s r

/-- No call fails. -/
def fair : Fates := fun _ _ => .served

theorem alone_fair : Alone fair := by
  intro op n f h
  exact absurd h (by simp [fair])

/-- One kind of call fails. -/
def failing (op : Op) : Fates := fun op' _ =>
  if op' = op then .failed .failed else .served

theorem alone_failing (op : Op) : Alone (failing op) := by
  intro op' n f h
  rw [failing] at h
  split at h <;> exact absurd h (by simp)

/-! ## What a call leaves alone -/

/-- Nothing is written but the object of kind `K` at `k`. -/
structure Elsewhere (K : Kind) (k : Key) (c c' : Cluster) : Prop where
  crs : ∀ k', ¬ (K = .cr ∧ k' = k) → c'.crs k' = c.crs k'
  deployments : ∀ k', ¬ (K = .deployment ∧ k' = k) →
    c'.deployments k' = c.deployments k'
  services : ∀ k', ¬ (K = .service ∧ k' = k) →
    c'.services k' = c.services k'
  proxies : ∀ k', ¬ (K = .proxy ∧ k' = k) → c'.proxies k' = c.proxies k'

theorem Elsewhere.refl (K : Kind) (k : Key) (c : Cluster) :
    Elsewhere K k c c :=
  ⟨fun _ _ => rfl, fun _ _ => rfl, fun _ _ => rfl, fun _ _ => rfl⟩

theorem elsewhere_wrote {α : Type} {K : Kind} {k : Key} {c : Cluster}
    {put : Store Key α × Nat → Cluster}
    {res : Except Refusal (Store Key α × Nat)}
    (h : ∀ s, res = .ok s → Elsewhere K k c (put s)) :
    Elsewhere K k c (wrote c put res).1 := by
  cases res with
  | error e => exact Elsewhere.refl K k c
  | ok s => exact h s rfl

theorem elsewhere_putCRs (c : Cluster) (k : Key) (n : Option Multiplicador) :
    Elsewhere .cr k c (c.putCRs (write c.crs c.rev k n)) :=
  ⟨fun _ h => write_of_ne fun e => h ⟨rfl, e⟩, fun _ _ => rfl,
    fun _ _ => rfl, fun _ _ => rfl⟩

theorem elsewhere_putDeployments (c : Cluster) (k : Key)
    (n : Option Deployment) : Elsewhere .deployment k c
      (c.putDeployments (write c.deployments c.rev k n)) :=
  ⟨fun _ _ => rfl, fun _ h => write_of_ne fun e => h ⟨rfl, e⟩,
    fun _ _ => rfl, fun _ _ => rfl⟩

theorem elsewhere_putServices (c : Cluster) (k : Key) (n : Option Service) :
    Elsewhere .service k c (c.putServices (write c.services c.rev k n)) :=
  ⟨fun _ _ => rfl, fun _ _ => rfl,
    fun _ h => write_of_ne fun e => h ⟨rfl, e⟩, fun _ _ => rfl⟩

theorem elsewhere_putProxies (c : Cluster) (k : Key) (n : Option Fields) :
    Elsewhere .proxy k c (c.putProxies (write c.proxies c.rev k n)) :=
  ⟨fun _ _ => rfl, fun _ _ => rfl, fun _ _ => rfl,
    fun _ h => write_of_ne fun e => h ⟨rfl, e⟩⟩

/-- A call writes at most the object it names. -/
theorem elsewhere_serve (c : Cluster) (r : Req) :
    Elsewhere (opOf r).kind (opOf r).key c (serve c r).1 := by
  cases r with
  | getCR k => exact Elsewhere.refl _ _ c
  | getDeployment k => exact Elsewhere.refl _ _ c
  | getService k => exact Elsewhere.refl _ _ c
  | getProxy k => exact Elsewhere.refl _ _ c
  | updateCR k w =>
      refine elsewhere_wrote fun s hs => ?_
      obtain ⟨old, -, -, rfl⟩ := update_ok hs
      exact elsewhere_putCRs c k _
  | updateStatusCR k w =>
      refine elsewhere_wrote fun s hs => ?_
      obtain ⟨old, -, -, rfl⟩ := update_ok hs
      exact elsewhere_putCRs c k _
  | createDeployment k d =>
      refine elsewhere_wrote fun s hs => ?_
      obtain ⟨-, rfl⟩ := create_ok hs
      exact elsewhere_putDeployments c k _
  | updateDeployment k d =>
      refine elsewhere_wrote fun s hs => ?_
      obtain ⟨old, -, -, rfl⟩ := update_ok hs
      exact elsewhere_putDeployments c k _
  | createService k x =>
      refine elsewhere_wrote fun s hs => ?_
      obtain ⟨-, rfl⟩ := create_ok hs
      exact elsewhere_putServices c k _
  | updateService k x =>
      refine elsewhere_wrote fun s hs => ?_
      obtain ⟨old, -, -, rfl⟩ := update_ok hs
      exact elsewhere_putServices c k _
  | createProxy k o =>
      refine elsewhere_wrote fun s hs => ?_
      obtain ⟨-, rfl⟩ := create_ok hs
      exact elsewhere_putProxies c k _
  | updateProxy k o =>
      refine elsewhere_wrote fun s hs => ?_
      obtain ⟨old, -, -, rfl⟩ := update_ok hs
      exact elsewhere_putProxies c k _
  | deleteProxy k =>
      refine elsewhere_wrote fun s hs => ?_
      obtain ⟨-, rfl⟩ := delete_ok hs
      exact elsewhere_putProxies c k _

/-- Nothing has moved but what `A` names: no object, no fate of a call to
    come, no record of a call. -/
structure SameBut (A : Kind → Key → Prop) (s s' : ApiSite) : Prop where
  alone : Alone s'.fates
  crs : ∀ k, ¬ A .cr k → s'.state.crs k = s.state.crs k
  deployments : ∀ k, ¬ A .deployment k →
    s'.state.deployments k = s.state.deployments k
  services : ∀ k, ¬ A .service k → s'.state.services k = s.state.services k
  proxies : ∀ k, ¬ A .proxy k → s'.state.proxies k = s.state.proxies k
  fates : ∀ op, ¬ A op.kind op.key → s'.fates op = s.fates op
  done : ∀ r, ¬ A (opOf r).kind (opOf r).key → (r ∈ s'.done ↔ r ∈ s.done)

theorem SameBut.refl {A : Kind → Key → Prop} {s : ApiSite}
    (h : Alone s.fates) : SameBut A s s :=
  ⟨h, fun _ _ => rfl, fun _ _ => rfl, fun _ _ => rfl, fun _ _ => rfl,
    fun _ _ => rfl, fun _ _ => Iff.rfl⟩

/-- One call of a client that is alone. -/
theorem SameBut.call {A : Kind → Key → Prop} {s₀ s : ApiSite} {r : Req}
    (h : SameBut A s₀ s) (hr : A (opOf r).kind (opOf r).key) :
    SameBut A s₀ (faultyApi s r).1 := by
  have he : Elsewhere (opOf r).kind (opOf r).key s.state
      (faultyApi s r).1.state := by
    show Elsewhere _ _ _ (meet serve s.state r _).1
    rw [meet_state (h.alone _ _)]
    split
    · exact elsewhere_serve s.state r
    · exact Elsewhere.refl _ _ _
  have hne : ∀ K k, ¬ A K k → ¬ ((opOf r).kind = K ∧ k = (opOf r).key) := by
    rintro K k hA ⟨rfl, rfl⟩
    exact hA hr
  refine ⟨h.alone.faulty r, ?_, ?_, ?_, ?_, ?_, ?_⟩
  · exact fun k hA => (he.crs k (hne _ k hA)).trans (h.crs k hA)
  · exact fun k hA => (he.deployments k (hne _ k hA)).trans (h.deployments k hA)
  · exact fun k hA => (he.services k (hne _ k hA)).trans (h.services k hA)
  · exact fun k hA => (he.proxies k (hne _ k hA)).trans (h.proxies k hA)
  · intro op hA
    refine (faulty_fates_of_ne ?_).trans (h.fates op hA)
    rintro rfl
    exact hA hr
  · intro x hA
    rw [← h.done x hA, mem_done_faulty]
    constructor
    · rintro (⟨rfl, -⟩ | hx)
      · exact absurd hr hA
      · exact hx
    · exact Or.inr

/-- The requests about what `A` names. -/
def About (A : Kind → Key → Prop) (r : Req) : Prop :=
  A (opOf r).kind (opOf r).key

/-- **FRAME**: a program that asks only about what `A` names moves nothing
    else. -/
theorem sameBut_run {α : Type} {A : Kind → Key → Prop} {p : Api α}
    (hp : Asks (About A) p) {s : ApiSite} (h : Alone s.fates) :
    SameBut A s (p.run faultyApi s).1 :=
  run_of_asks faultyApi (fun _ _ hr hs => SameBut.call hs hr) hp
    (SameBut.refl h)

/-! ## How a call comes out -/

section Call

variable {s : ApiSite} {r : Req}

/-- The server moves exactly when the call arrives. -/
theorem call_state (ha : Alone s.fates) :
    (faultyApi s r).1.state = if (s.fates (opOf r) 0).arrives
      then (serve s.state r).1 else s.state :=
  meet_state (ha _ _)

/-- A call succeeds exactly when the server accepts it and its answer comes
    back. -/
theorem call_isOk (ha : Alone s.fates) :
    (faultyApi s r).2.isOk
      = ((s.fates (opOf r) 0).answered && (serve s.state r).2.isOk) := by
  show (meet serve s.state r _).2.isOk = _
  cases hf : s.fates (opOf r) 0 with
  | served => rw [meet]; rfl
  | failed e => rfl
  | lost e => rfl
  | overtaken f => exact absurd hf (ha _ _ f)

/-- Then the answer is the server's. -/
theorem call_ok_iff (ha : Alone s.fates) {a : Payload r} :
    (faultyApi s r).2 = .ok a ↔ (s.fates (opOf r) 0).answered = true
      ∧ (serve s.state r).2 = .ok a :=
  meet_ok (ha _ _)

/-- A call that is not answered, or is refused, comes back with an error. -/
theorem call_error (ha : Alone s.fates)
    (h : (s.fates (opOf r) 0).answered = false
      ∨ ∃ e, (serve s.state r).2 = .error e) :
    ∃ e, (faultyApi s r).2 = .error e := by
  cases hx : (faultyApi s r).2 with
  | error e => exact ⟨e, rfl⟩
  | ok a =>
      obtain ⟨hans, hok⟩ := (call_ok_iff ha).mp hx
      rcases h with hno | ⟨e, he⟩
      · exact absurd (hno.symm.trans hans) (by simp)
      · exact absurd (he.symm.trans hok) (by simp)

end Call

/-! ## The Service -/

/-- Where the Service of a CR is. -/
def svcKey (u : Multiplicador) : Key := (nsOf u, svcNameOf u.name)

/-- The write of the Service, computed from a true read, gets to the
    server. -/
def ServiceWritten (u : Multiplicador) (F : Fates) (old : Option Service) :
    Prop :=
  match old with
  | none => (F ⟨.create, .service, svcKey u⟩ 0).arrives = true
  | some _ => (F ⟨.get, .service, svcKey u⟩ 0).answered = true
      ∧ (F ⟨.update, .service, svcKey u⟩ 0).arrives = true

/-- The Service part comes back with nil. -/
def ServiceSettled (u : Multiplicador) (F : Fates) (old : Option Service) :
    Prop :=
  match old with
  | none => (F ⟨.create, .service, svcKey u⟩ 0).answered = true
  | some s => (F ⟨.get, .service, svcKey u⟩ 0).answered = true
      ∧ (repairService u s = s
        ∨ (F ⟨.update, .service, svcKey u⟩ 0).answered = true)

instance (u : Multiplicador) (F : Fates) (old : Option Service) :
    Decidable (ServiceWritten u F old) :=
  match old with
  | none => inferInstanceAs (Decidable (_ = true))
  | some _ => inferInstanceAs (Decidable (_ = true ∧ _ = true))

instance (u : Multiplicador) (F : Fates) (old : Option Service) :
    Decidable (ServiceSettled u F old) :=
  match old with
  | none => inferInstanceAs (Decidable (_ = true))
  | some s => inferInstanceAs
      (Decidable (_ = true ∧ (repairService u s = s ∨ _ = true)))

/-- The calls of the Service part. -/
def OnService (u : Multiplicador) (K : Kind) (k : Key) : Prop :=
  K = .service ∧ k = svcKey u

theorem asks_ensureService (u : Multiplicador) :
    Asks (About (OnService u)) (ensureService u) := by
  rw [ensureService, ask]
  refine ⟨⟨rfl, rfl⟩, fun x _ => ?_⟩
  cases x with
  | error e =>
      refine ⟨⟨rfl, rfl⟩, fun y _ => ?_⟩
      cases y <;> trivial
  | ok v =>
      change Obeys _ (if repairService u v.obj = v.obj then _ else _) _ _
      split
      · trivial
      · refine ⟨⟨rfl, rfl⟩, fun y _ => ?_⟩
        cases y <;> trivial

/-- The fates of other kinds of calls are still to come. -/
theorem fates_of_op_ne {s : ApiSite} {r : Req} {op : Op} (h : op ≠ opOf r) :
    (faultyApi s r).1.fates op = s.fates op := faulty_fates_of_ne h

/-- Go back with the error of the last call, if it has one. -/
def orError {α : Type} (text : String) : Except ApiError α → Api Outcome
  | .error e => .ret (.error (.wrap text (.api e)))
  | .ok _ => .ret .nil

section Last

variable {s : ApiSite} {r : Req} (text : String)

theorem run_orError :
    ((Prog.call r (orError text)).run faultyApi s).1 = (faultyApi s r).1
      ∧ (((Prog.call r (orError text)).run faultyApi s).2 = .nil
        ↔ (faultyApi s r).2.isOk = true) := by
  rw [Prog.run_call]
  cases hx : (faultyApi s r).2 with
  | ok a => exact ⟨rfl, by simp [orError, Except.isOk, Except.toBool]⟩
  | error e => exact ⟨rfl, by simp [orError, Except.isOk, Except.toBool]⟩

/-- When the server accepts the last call. -/
theorem run_orError_accepted (ha : Alone s.fates) {c' : Cluster}
    {a : Payload r} (hs : serve s.state r = (c', .ok a))
    {x : Fate Cluster ApiError} (hx : s.fates (opOf r) 0 = x) :
    ((Prog.call r (orError text)).run faultyApi s).1.state
        = (if x.arrives then c' else s.state)
      ∧ (((Prog.call r (orError text)).run faultyApi s).2 = .nil
        ↔ x.answered = true) := by
  subst hx
  rw [(run_orError text).1, (run_orError text).2, call_state ha,
    call_isOk ha, hs]
  exact ⟨rfl, by simp [Except.isOk, Except.toBool]⟩

/-- When it refuses it. -/
theorem run_orError_refused (ha : Alone s.fates) {e : ApiError}
    (hs : serve s.state r = (s.state, .error e)) :
    ((Prog.call r (orError text)).run faultyApi s).1.state = s.state
      ∧ ((Prog.call r (orError text)).run faultyApi s).2 ≠ .nil := by
  rw [(run_orError text).1, Ne, (run_orError text).2, call_state ha,
    call_isOk ha, hs]
  exact ⟨ite_self _, by simp [Except.isOk, Except.toBool]⟩

end Last

theorem serve_create_taken {c : Cluster} {q : Key} {x : Service}
    {v : Versioned Service} (h : c.services q = some v) :
    serve c (.createService q x) = (c, .error (.refused .alreadyExists)) := by
  simp [serve, create, h, wrote]

theorem ensureService_eq (u : Multiplicador) :
    ensureService u = .call (.getService (svcKey u)) fun x =>
      match x with
      | .error _ => .call (.createService (svcKey u) (newService u))
          (orError "create service: ")
      | .ok svc => if repairService u svc.obj = svc.obj then .ret .nil
          else .call (.updateService (svcKey u)
            ⟨repairService u svc.obj, svc.version⟩)
            (orError "update service: ") := by
  refine congrArg (Prog.call _) (funext fun x => ?_)
  cases x with
  | error e =>
      refine congrArg (Prog.call _) (funext fun y => ?_)
      cases y <;> rfl
  | ok v =>
      refine if_congr Iff.rfl rfl (congrArg (Prog.call _) (funext fun y => ?_))
      cases y <;> rfl

/-- **THE SERVICE**, whatever its calls do. -/
theorem run_ensureService_faulty (u : Multiplicador) {s : ApiSite}
    (ha : Alone s.fates) {old : Option Service}
    (hold : content s.state.services (svcKey u) = old) :
    content ((ensureService u).run faultyApi s).1.state.services (svcKey u)
        = (if ServiceWritten u s.fates old then some (serviceAfter u old)
          else old)
      ∧ (((ensureService u).run faultyApi s).2 = .nil
        ↔ ServiceSettled u s.fates old) := by
  rw [ensureService_eq, Prog.run_call]
  set s₁ := (faultyApi s (.getService (svcKey u))).1 with hs₁
  have ha₁ : Alone s₁.fates := ha.faulty _
  have hstate : s₁.state = s.state :=
    (call_state ha).trans (ite_self _)
  have hfate : ∀ v, v ≠ Verb.get → s₁.fates ⟨v, .service, svcKey u⟩ 0
      = s.fates ⟨v, .service, svcKey u⟩ 0 := fun v hv =>
    congrFun (fates_of_op_ne (by simp [opOf, hv])) 0
  cases hst : s.state.services (svcKey u) with
  | none =>
      -- the Get errs, answered or not, and the branch creates
      obtain rfl := (content_of_none hst).symm.trans hold
      obtain ⟨e, he⟩ := call_error (r := .getService (svcKey u)) ha
        (Or.inr (by simp [serve, got, hst]))
      have hcreate := serve_createService (s := newService u)
        (show s₁.state.services (svcKey u) = none by rw [hstate, hst])
      obtain ⟨hmove, hnil⟩ :=
        run_orError_accepted _ ha₁ hcreate (hfate .create (by simp))
      rw [he]
      dsimp only
      rw [hmove, hnil]
      refine ⟨?_, Iff.rfl⟩
      by_cases hx : ServiceWritten u s.fates none
      · rw [if_pos hx, if_pos (show _ = true from hx)]
        simp [serviceAfter]
      · rw [if_neg hx, if_neg (show ¬ _ = true from hx), hstate]
        exact content_of_none hst
  | some v =>
      obtain rfl := (content_of_some hst).symm.trans hold
      cases hans : (s.fates ⟨.get, .service, svcKey u⟩ 0).answered with
      | false =>
          -- any error of the Get is taken for "not found", and the Create is
          -- refused
          obtain ⟨e, he⟩ := call_error (r := .getService (svcKey u)) ha
            (Or.inl hans)
          have htaken := serve_create_taken (x := newService u)
            (show s₁.state.services (svcKey u) = some v by rw [hstate, hst])
          obtain ⟨hstay, hno⟩ := run_orError_refused _ ha₁ htaken
          rw [he]
          dsimp only
          rw [hstay, hstate]
          refine ⟨?_, iff_of_false hno ?_⟩
          · rw [if_neg]
            · exact content_of_some hst
            · rintro ⟨h, -⟩
              exact absurd (hans.symm.trans h) (by simp)
          · rintro ⟨h, -⟩
            exact absurd (hans.symm.trans h) (by simp)
      | true =>
          have hx := (call_ok_iff (r := .getService (svcKey u)) (a := v) ha).mpr
            ⟨hans, by simp [serve, got, hst]⟩
          rw [hx]
          dsimp only
          by_cases hfix : repairService u v.obj = v.obj
          · rw [if_pos hfix, Prog.run_ret]
            refine ⟨?_, iff_of_true rfl ⟨hans, Or.inl hfix⟩⟩
            rw [hstate, content_of_some hst]
            split
            · rw [serviceAfter, hfix]
            · rfl
          · have hupd := serve_updateService (s := repairService u v.obj)
              (show s₁.state.services (svcKey u) = some v by rw [hstate, hst])
            obtain ⟨hmove, hnil⟩ :=
              run_orError_accepted _ ha₁ hupd (hfate .update (by simp))
            rw [if_neg hfix, hmove, hnil]
            have hw : ServiceWritten u s.fates (some v.obj)
                ↔ (s.fates ⟨.update, .service, svcKey u⟩ 0).arrives = true := by
              simp [ServiceWritten, hans]
            refine ⟨?_, by simp [ServiceSettled, hans, hfix]⟩
            by_cases hx : ServiceWritten u s.fates (some v.obj)
            · rw [if_pos hx, if_pos (hw.mp hx)]
              simp [serviceAfter]
            · rw [if_neg hx, if_neg fun h => hx (hw.mpr h), hstate]
              exact content_of_some hst

/-! ## The Deployment -/

/-- Where the Deployment of a CR is. -/
def deplKey (u : Multiplicador) : Key := (nsOf u, deplNameOf u.name)

theorem updateDeployment_eq (u : Multiplicador) (v : Versioned Deployment) :
    updateDeployment u v
      = if repairDeployment u v.obj = v.obj then .ret .nil
        else .call (.updateDeployment (deplKey u)
          ⟨repairDeployment u v.obj, v.version⟩)
          (orError "update deployment: ") := by
  refine if_congr Iff.rfl rfl (congrArg (Prog.call _) (funext fun y => ?_))
  cases y <;> rfl

/-- **THE DEPLOYMENT**: when its repair comes back with nil, it is repaired. -/
theorem run_updateDeployment_faulty (u : Multiplicador) {s : ApiSite}
    (ha : Alone s.fates) {v : Versioned Deployment}
    (hst : s.state.deployments (deplKey u) = some v)
    (hnil : ((updateDeployment u v).run faultyApi s).2 = .nil) :
    content ((updateDeployment u v).run faultyApi s).1.state.deployments
      (deplKey u) = some (repairDeployment u v.obj) := by
  rw [updateDeployment_eq] at hnil ⊢
  by_cases hfix : repairDeployment u v.obj = v.obj
  · rw [if_pos hfix, Prog.run_ret, hfix]
    exact content_of_some hst
  · rw [if_neg hfix] at hnil ⊢
    obtain ⟨hmove, hans⟩ := run_orError_accepted "update deployment: " ha
      (serve_updateDeployment (d := repairDeployment u v.obj) hst) rfl
    have harr := Fate.arrives_of_answered (hans.mp hnil)
    rw [hmove, if_pos harr]
    simp

/-! ## The HTTPProxies -/

/-- The write of the target, computed from a true read, gets to the server. -/
def ProxyWritten (u : Multiplicador) (F : Fates) (old : Option Fields) :
    Prop :=
  match old with
  | none => (F ⟨.create, .proxy, targetKey u⟩ 0).arrives = true
  | some o => (F ⟨.get, .proxy, targetKey u⟩ 0).answered = true
      ∧ (mergeProxy u o).isSome = true
      ∧ (F ⟨.update, .proxy, targetKey u⟩ 0).arrives = true

/-- The create or the merge comes back with nil. -/
def ProxySettled (u : Multiplicador) (F : Fates) (old : Option Fields) :
    Prop :=
  match old with
  | none => (F ⟨.create, .proxy, targetKey u⟩ 0).answered = true
  | some o => (F ⟨.get, .proxy, targetKey u⟩ 0).answered = true
      ∧ (mergeProxy u o).isSome = true
      ∧ (F ⟨.update, .proxy, targetKey u⟩ 0).answered = true

instance (u : Multiplicador) (F : Fates) (old : Option Fields) :
    Decidable (ProxyWritten u F old) :=
  match old with
  | none => inferInstanceAs (Decidable (_ = true))
  | some _ => inferInstanceAs (Decidable (_ = true ∧ _ = true ∧ _ = true))

instance (u : Multiplicador) (F : Fates) (old : Option Fields) :
    Decidable (ProxySettled u F old) :=
  match old with
  | none => inferInstanceAs (Decidable (_ = true))
  | some _ => inferInstanceAs (Decidable (_ = true ∧ _ = true ∧ _ = true))

theorem ProxySettled.written {u : Multiplicador} {F : Fates}
    {old : Option Fields} (h : ProxySettled u F old) :
    ProxyWritten u F old := by
  cases old with
  | none => exact Fate.arrives_of_answered h
  | some o => exact ⟨h.1, h.2.1, Fate.arrives_of_answered h.2.2⟩

/-- Go back with the error of the last write, or record what it wrote. -/
def orRecord {α : Type} (text : String) (u : Versioned Multiplicador)
    (w : Multiplicador) : Except ApiError α → Api (Outcome × Multiplicador)
  | .error e => .ret (.error (.wrap text (.api e)), u.obj)
  | .ok _ => .call (.updateCR (nsOf u.obj, u.obj.name) ⟨w, u.version⟩)
      fun _ => .ret (.nil, w)

theorem installRoute_eq (u : Versioned Multiplicador) :
    installRoute u = .call (.getProxy (targetKey u.obj)) fun x =>
      match x with
      | .error _ => .call (.createProxy (targetKey u.obj) (newProxy u.obj))
          (orRecord "create httpproxy: " u (recorded u.obj))
      | .ok old => match mergeProxy u.obj old.obj with
        | none => .ret (.panic, u.obj)
        | some m => .call (.updateProxy (targetKey u.obj) ⟨m, old.version⟩)
            (orRecord "update httpproxy: " u
              (withFinalizer (recorded u.obj))) := by
  rw [installRoute, ask]
  simp only [Prog.call_bind, Prog.ret_bind]
  refine congrArg (Prog.call _) (funext fun x => ?_)
  cases x with
  | error e =>
      refine congrArg (Prog.call _) (funext fun y => ?_)
      cases y <;> rfl
  | ok v =>
      dsimp only
      cases hm : mergeProxy u.obj v.obj with
      | none => rfl
      | some m =>
          refine congrArg (Prog.call _) (funext fun y => ?_)
          cases y <;> rfl

section Record

variable {s : ApiSite} {r : Req} (text : String) (u : Versioned Multiplicador)
  (w : Multiplicador)

/-- The record touches no HTTPProxy. -/
theorem run_orRecord (ha : Alone s.fates) :
    ((Prog.call r (orRecord text u w)).run faultyApi s).1.state.proxies
        = (faultyApi s r).1.state.proxies
      ∧ (((Prog.call r (orRecord text u w)).run faultyApi s).2.1 = .nil
        ↔ (faultyApi s r).2.isOk = true) := by
  rw [Prog.run_call]
  cases hx : (faultyApi s r).2 with
  | error e => exact ⟨rfl, by simp [orRecord, Except.isOk, Except.toBool]⟩
  | ok a =>
      refine ⟨?_, by simp [orRecord, Except.isOk, Except.toBool]⟩
      have hcr : Alone (faultyApi s r).1.fates := ha.faulty r
      funext q
      rw [orRecord, Prog.run_call, Prog.run_ret]
      exact (SameBut.call (A := fun K _ => K = .cr) (SameBut.refl hcr)
        rfl).proxies q (by simp)

/-- When the server accepts the write. -/
theorem run_orRecord_accepted (ha : Alone s.fates) {c' : Cluster}
    {a : Payload r} (hs : serve s.state r = (c', .ok a))
    {x : Fate Cluster ApiError} (hx : s.fates (opOf r) 0 = x) :
    ((Prog.call r (orRecord text u w)).run faultyApi s).1.state.proxies
        = (if x.arrives then c' else s.state).proxies
      ∧ (((Prog.call r (orRecord text u w)).run faultyApi s).2.1 = .nil
        ↔ x.answered = true) := by
  subst hx
  obtain ⟨hp, hnil⟩ := run_orRecord (r := r) text u w ha
  rw [hp, hnil, call_state ha, call_isOk ha, hs]
  exact ⟨rfl, by simp [Except.isOk, Except.toBool]⟩

/-- When it refuses it. -/
theorem run_orRecord_refused (ha : Alone s.fates) {e : ApiError}
    (hs : serve s.state r = (s.state, .error e)) :
    ((Prog.call r (orRecord text u w)).run faultyApi s).1.state.proxies
        = s.state.proxies
      ∧ ((Prog.call r (orRecord text u w)).run faultyApi s).2.1 ≠ .nil := by
  obtain ⟨hp, hnil⟩ := run_orRecord (r := r) text u w ha
  rw [hp, Ne, hnil, call_state ha, call_isOk ha, hs]
  exact ⟨congrArg Cluster.proxies (ite_self _),
    by simp [Except.isOk, Except.toBool]⟩

end Record

theorem serve_createProxy_taken {c : Cluster} {q : Key} {o : Fields}
    {v : Versioned Fields} (h : c.proxies q = some v) :
    serve c (.createProxy q o) = (c, .error (.refused .alreadyExists)) := by
  simp [serve, create, h, wrote]

/-- **THE TARGET**, whatever the calls of the create or the merge do. -/
theorem run_installRoute_faulty (u : Versioned Multiplicador) {s : ApiSite}
    (ha : Alone s.fates) {old : Option Fields}
    (hold : content s.state.proxies (targetKey u.obj) = old) :
    content ((installRoute u).run faultyApi s).1.state.proxies
          (targetKey u.obj)
        = (if ProxyWritten u.obj s.fates old then mergeContent u.obj old
          else old)
      ∧ (((installRoute u).run faultyApi s).2.1 = .nil
        ↔ ProxySettled u.obj s.fates old) := by
  rw [installRoute_eq, Prog.run_call]
  set s₁ := (faultyApi s (.getProxy (targetKey u.obj))).1 with hs₁
  have ha₁ : Alone s₁.fates := ha.faulty _
  have hstate : s₁.state = s.state :=
    (call_state ha).trans (ite_self _)
  have hfate : ∀ v, v ≠ Verb.get → s₁.fates ⟨v, .proxy, targetKey u.obj⟩ 0
      = s.fates ⟨v, .proxy, targetKey u.obj⟩ 0 := fun v hv =>
    congrFun (fates_of_op_ne (by simp [opOf, hv])) 0
  cases hst : s.state.proxies (targetKey u.obj) with
  | none =>
      -- the Get errs, answered or not, and the branch creates
      obtain rfl := (content_of_none hst).symm.trans hold
      obtain ⟨e, he⟩ := call_error (r := .getProxy (targetKey u.obj)) ha
        (Or.inr (by simp [serve, got, hst]))
      have hcreate := serve_createProxy (o := newProxy u.obj)
        (show s₁.state.proxies (targetKey u.obj) = none by rw [hstate, hst])
      obtain ⟨hmove, hnil⟩ := run_orRecord_accepted "create httpproxy: " u
        (recorded u.obj) ha₁ hcreate (hfate .create (by simp))
      rw [he]
      dsimp only
      rw [hmove, hnil]
      refine ⟨?_, Iff.rfl⟩
      by_cases hx : ProxyWritten u.obj s.fates none
      · rw [if_pos hx, if_pos (show _ = true from hx)]
        simp [mergeContent]
      · rw [if_neg hx, if_neg (show ¬ _ = true from hx), hstate]
        exact content_of_none hst
  | some v =>
      obtain rfl := (content_of_some hst).symm.trans hold
      have hst₁ : s₁.state.proxies (targetKey u.obj) = some v := by
        rw [hstate, hst]
      cases hans : (s.fates ⟨.get, .proxy, targetKey u.obj⟩ 0).answered with
      | false =>
          -- as with the Service, the Create is refused
          obtain ⟨e, he⟩ := call_error (r := .getProxy (targetKey u.obj)) ha
            (Or.inl hans)
          have htaken := serve_createProxy_taken (o := newProxy u.obj) hst₁
          have hnot : ¬ (s.fates ⟨.get, .proxy, targetKey u.obj⟩ 0).answered
              = true := by
            simp [hans]
          obtain ⟨hstay, hno⟩ := run_orRecord_refused "create httpproxy: " u
            (recorded u.obj) ha₁ htaken
          rw [he]
          dsimp only
          rw [hstay, hstate]
          refine ⟨?_, iff_of_false hno fun h => hnot h.1⟩
          rw [if_neg fun h => hnot h.1]
          exact content_of_some hst
      | true =>
          have hx := (call_ok_iff (r := .getProxy (targetKey u.obj)) (a := v)
            ha).mpr ⟨hans, by simp [serve, got, hst]⟩
          rw [hx]
          dsimp only
          cases hm : mergeProxy u.obj v.obj with
          | none =>
              -- the merge panics before it writes
              have hnot : ¬ ProxyWritten u.obj s.fates (some v.obj) := by
                simp [ProxyWritten, hm]
              rw [Prog.run_ret, hstate, if_neg hnot]
              exact ⟨content_of_some hst, by simp [ProxySettled, hm]⟩
          | some m =>
              have hupd := serve_updateProxy (o := m) hst₁
              have hw : ProxyWritten u.obj s.fates (some v.obj)
                  ↔ (s.fates ⟨.update, .proxy, targetKey u.obj⟩ 0).arrives
                    = true := by
                simp [ProxyWritten, hans, hm]
              obtain ⟨hmove, hnil⟩ := run_orRecord_accepted "update httpproxy: "
                u (withFinalizer (recorded u.obj)) ha₁ hupd
                (hfate .update (by simp))
              dsimp only
              rw [hmove, hnil]
              refine ⟨?_, by simp [ProxySettled, hans, hm]⟩
              by_cases hx : ProxyWritten u.obj s.fates (some v.obj)
              · rw [if_pos hx, if_pos (hw.mp hx), mergeContent, hm]
                simp
              · rw [if_neg hx, if_neg fun h => hx (hw.mpr h), hstate]
                exact content_of_some hst

/-! ## The Service, then the HTTPProxies -/

/-- The calls about one HTTPProxy. -/
def OnProxy (q : Key) (K : Kind) (k : Key) : Prop := K = .proxy ∧ k = q

/-- The calls about HTTPProxies or CRs that write no status. -/
def Recording (r : Req) : Prop :=
  ((opOf r).kind = .proxy ∨ (opOf r).kind = .cr)
    ∧ (opOf r).verb ≠ .updateStatus

theorem asks_leaveProxy (ns name uid route : String) :
    Asks (About (OnProxy (ns, name))) (leaveProxy ns name uid route) := by
  rw [leaveProxy, ask]
  refine ⟨⟨rfl, rfl⟩, fun x _ => ?_⟩
  cases x with
  | error e => trivial
  | ok v =>
      change Obeys _ (if deleteOld (stripProxy uid route v.obj) = true
        then _ else _) _ _
      split
      · exact ⟨⟨rfl, rfl⟩, fun _ _ => trivial⟩
      · exact ⟨⟨rfl, rfl⟩, fun _ _ => trivial⟩

/-- A CR that reads like `u` to the write of its status. -/
structure SameSpec (u w : Multiplicador) : Prop where
  ns : w.ns = u.ns
  name : w.name = u.name
  spec : w.spec = u.spec

theorem SameSpec.readyStatus {u w : Multiplicador} (h : SameSpec u w) :
    readyStatus w = readyStatus u := by
  simp [Reconcile.readyStatus, Multiplicador.replicas,
    Multiplicador.multiplicador, getIntField, h.spec]

theorem sameSpec_recorded (u : Multiplicador) : SameSpec u (recorded u) :=
  ⟨rfl, rfl, rfl⟩

theorem sameSpec_withFinalizer_recorded (u : Multiplicador) :
    SameSpec u (withFinalizer (recorded u)) := by
  rw [withFinalizer]
  split <;> exact ⟨rfl, rfl, rfl⟩

theorem obeys_orRecord {α : Type} (text : String)
    {u : Versioned Multiplicador} {w : Multiplicador} (h : SameSpec u.obj w)
    (x : Except ApiError α) :
    Obeys (asking Recording) (orRecord text u w x) ()
      fun _ a => SameSpec u.obj a.2 := by
  cases x with
  | error e => exact ⟨rfl, rfl, rfl⟩
  | ok a => exact ⟨⟨Or.inr rfl, by simp [opOf]⟩, fun _ _ => h⟩

theorem obeys_installRoute (u : Versioned Multiplicador) :
    Obeys (asking Recording) (installRoute u) ()
      fun _ a => SameSpec u.obj a.2 := by
  rw [installRoute_eq]
  refine ⟨⟨Or.inl rfl, by simp [opOf]⟩, fun x _ => ?_⟩
  cases x with
  | error e =>
      exact ⟨⟨Or.inl rfl, by simp [opOf]⟩,
        fun y _ => obeys_orRecord _ (sameSpec_recorded _) y⟩
  | ok v =>
      dsimp only
      split
      · exact ⟨rfl, rfl, rfl⟩
      · exact ⟨⟨Or.inl rfl, by simp [opOf]⟩,
          fun y _ => obeys_orRecord _ (sameSpec_withFinalizer_recorded _) y⟩

theorem asks_installRoute (u : Versioned Multiplicador) :
    Asks Recording (installRoute u) :=
  (obeys_installRoute u).mono fun _ _ _ => trivial

/-- The block that leaves the old proxy. -/
def leaveOld (u : Multiplicador) : Api Unit :=
  if movesAway u then leaveProxy (nsOf u) (prevProxy u) u.uid (prevRoute u)
  else .ret ()

theorem ensureServiceAndProxy_eq (u : Versioned Multiplicador) :
    ensureServiceAndProxy u = ensureService u.obj >>= fun o =>
      if o = .nil then
        if u.obj.ruta = "" then .ret (.nil, u.obj)
        else leaveOld u.obj >>= fun _ => installRoute u
      else .ret (o, u.obj) := by
  rw [ensureServiceAndProxy, leaveOld]
  refine congrArg (ensureService u.obj >>= ·) (funext fun o => ?_)
  cases o with
  | nil =>
      rw [if_pos rfl]
      refine if_congr Iff.rfl rfl ?_
      by_cases hm : movesAway u.obj = true
      · simp [hm]
      · simp [hm]
  | error e => rfl
  | panic => rfl

/-- The old proxy is never the target. -/
theorem asks_leaveOld (u : Multiplicador) :
    Asks (About fun K k => K = .proxy ∧ k ≠ targetKey u) (leaveOld u) := by
  rw [leaveOld]
  split
  · rename_i hm
    have hne : prevProxy u ≠ proxyNameOf u := by
      rw [movesAway, decide_eq_true_eq] at hm
      exact hm.2
    refine (asks_leaveProxy _ _ _ _).mono ?_
    rintro r ⟨hK, hk⟩
    refine ⟨hK, ?_⟩
    rw [hk]
    exact fun e => hne (congrArg Prod.snd e)
  · trivial

/-- The calls of `ensureServiceAndProxy`. -/
def Ensuring (r : Req) : Prop :=
  (opOf r).kind ≠ .deployment ∧ (opOf r).verb ≠ .updateStatus

theorem verb_of_kind {r : Req} (h : (opOf r).kind ≠ .cr) :
    (opOf r).verb ≠ .updateStatus := by
  cases r <;> simp_all [opOf]

theorem obeys_ensureServiceAndProxy (u : Versioned Multiplicador) :
    Obeys (asking Ensuring) (ensureServiceAndProxy u) ()
      fun _ a => SameSpec u.obj a.2 := by
  have hu : SameSpec u.obj u.obj := ⟨rfl, rfl, rfl⟩
  rw [ensureServiceAndProxy_eq]
  have hsvc : Asks Ensuring (ensureService u.obj) := by
    refine (asks_ensureService u.obj).mono ?_
    rintro r ⟨hK, -⟩
    exact ⟨by simp [hK], verb_of_kind (by simp [hK])⟩
  have hleave : Asks Ensuring (leaveOld u.obj) := by
    refine (asks_leaveOld u.obj).mono ?_
    rintro r ⟨hK, -⟩
    exact ⟨by simp [hK], verb_of_kind (by simp [hK])⟩
  refine Obeys.seq hsvc fun _ o _ => ?_
  split
  · split
    · exact hu
    · refine Obeys.seq hleave fun _ _ _ => (obeys_installRoute u).weaken ?_
      rintro r ⟨hK, hv⟩
      refine ⟨?_, hv⟩
      rcases hK with hK | hK <;> simp [hK]
  · exact hu

/-- **SERVICE AND PROXY**, whatever the calls do. -/
theorem run_ensure_faulty (u : Versioned Multiplicador) {s : ApiSite}
    (ha : Alone s.fates) {S : Option Service} {P : Option Fields}
    (hS : content s.state.services (svcKey u.obj) = S)
    (hP : content s.state.proxies (targetKey u.obj) = P) :
    let t := (ensureServiceAndProxy u).run faultyApi s
    content t.1.state.services (svcKey u.obj)
        = (if ServiceWritten u.obj s.fates S
          then some (serviceAfter u.obj S) else S)
      ∧ content t.1.state.proxies (targetKey u.obj)
        = (if u.obj.ruta ≠ "" ∧ ServiceSettled u.obj s.fates S
            ∧ ProxyWritten u.obj s.fates P
          then mergeContent u.obj P else P)
      ∧ (t.2.1 = .nil ↔ ServiceSettled u.obj s.fates S
        ∧ (u.obj.ruta = "" ∨ ProxySettled u.obj s.fates P)) := by
  intro t
  obtain ⟨hsvc, hnil⟩ := run_ensureService_faulty u.obj ha hS
  have hsame := sameBut_run (asks_ensureService u.obj) ha
  have ht : t = _ := (congrArg (fun p => Prog.run faultyApi p s)
    (ensureServiceAndProxy_eq u)).trans (Prog.run_bind _ _ _ s)
  set s₁ := ((ensureService u.obj).run faultyApi s).1 with hs₁
  have hP₁ : content s₁.state.proxies (targetKey u.obj) = P := by
    rw [← hP]
    exact congrArg (Option.map _) (hsame.proxies _ (by simp [OnService]))
  -- an error of the Service comes back before the proxies are looked at
  by_cases ho : ((ensureService u.obj).run faultyApi s).2 = .nil
  · have hset := hnil.mp ho
    rw [if_pos ho] at ht
    by_cases hr : u.obj.ruta = ""
    · rw [if_pos hr, Prog.run_ret] at ht
      rw [ht]
      refine ⟨hsvc, ?_, ?_⟩
      · rw [if_neg fun h => h.1 hr]
        exact hP₁
      · exact iff_of_true rfl ⟨hset, Or.inl hr⟩
    · rw [if_neg hr, Prog.run_bind] at ht
      -- leaving the old proxy does not touch the target, nor its calls
      have hleave := sameBut_run (asks_leaveOld u.obj) hsame.alone
      set s₂ := ((leaveOld u.obj).run faultyApi s₁).1 with hs₂
      have hP₂ : content s₂.state.proxies (targetKey u.obj) = P := by
        rw [← hP₁]
        exact congrArg (Option.map _) (hleave.proxies _ (by simp))
      have hF : ∀ v, s₂.fates ⟨v, .proxy, targetKey u.obj⟩
          = s.fates ⟨v, .proxy, targetKey u.obj⟩ := fun v =>
        (hleave.fates _ (by simp)).trans (hsame.fates _ (by simp [OnService]))
      obtain ⟨hprox, hpnil⟩ := run_installRoute_faulty u hleave.alone hP₂
      have hinst := run_of_asks faultyApi
        (I := fun x => Alone x.fates ∧ x.state.services (svcKey u.obj)
          = s₂.state.services (svcKey u.obj))
        (fun x r hr hx => ⟨hx.1.faulty r, ((SameBut.call
          (A := fun K _ => K = .proxy ∨ K = .cr) (SameBut.refl hx.1)
          hr.1).services _ (by simp)).trans hx.2⟩)
        (asks_installRoute u) ⟨hleave.alone, rfl⟩
      have hw : ProxyWritten u.obj s₂.fates P ↔ ProxyWritten u.obj s.fates P := by
        cases P <;> simp [ProxyWritten, hF]
      have hst : ProxySettled u.obj s₂.fates P ↔ ProxySettled u.obj s.fates P := by
        cases P <;> simp [ProxySettled, hF]
      rw [ht]
      refine ⟨?_, ?_, ?_⟩
      · rw [← hsvc]
        refine congrArg (Option.map _) (hinst.2.trans ?_)
        exact hleave.services _ (by simp)
      · rw [hprox]
        refine if_congr ?_ rfl rfl
        rw [hw]
        simp [hr, hset]
      · rw [hpnil, hst]
        simp [hr, hset]
  · have hset : ¬ ServiceSettled u.obj s.fates S := fun h => ho (hnil.mpr h)
    rw [if_neg ho, Prog.run_ret] at ht
    rw [ht]
    refine ⟨hsvc, ?_, iff_of_false ho fun h => hset h.1⟩
    rw [if_neg fun h => hset h.2.1]
    exact hP₁

end FaultyReconcile
