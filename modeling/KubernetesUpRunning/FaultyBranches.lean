import KubernetesUpRunning.FaultyReconcile

/-! # The branches of a reconcile whose calls may fail

    What the create branch, the repair branch and the whole valid branch leave
    of the children of a CR, whatever their calls do: all of it when the branch
    comes back with nil, and what is known when it has written the status. -/

namespace FaultyBranches

open ApiServer CallProgram FaultyReconcile FaultyServer GoJson KubeObjects
open Reconcile ReconcileEffect ReconcileRun VersionedStore

/-! ## Status writes -/

/-- No status has been written so far. -/
def NoStatus (s : ApiSite) : Prop :=
  ∀ r ∈ s.done, (opOf r).verb ≠ .updateStatus

/-- Every status that was written is that of `u`. -/
def StatusOf (u : Multiplicador) (s : ApiSite) : Prop :=
  ∀ k w, .updateStatusCR k w ∈ s.done → w.obj.status = some (readyStatus u)

/-- The calls that write no other status than that of `u`. -/
def Telling (u : Multiplicador) (r : Req) : Prop :=
  ∀ k w, r = .updateStatusCR k w → w.obj.status = some (readyStatus u)

theorem noStatus_call {s : ApiSite} (h : NoStatus s) {r : Req}
    (hr : (opOf r).verb ≠ .updateStatus) : NoStatus (faultyApi s r).1 := by
  intro x hx
  rcases mem_done_faulty.mp hx with ⟨rfl, -⟩ | hx
  · exact hr
  · exact h x hx

theorem statusOf_call {u : Multiplicador} {s : ApiSite} (h : StatusOf u s)
    {r : Req} (hr : Telling u r) : StatusOf u (faultyApi s r).1 := by
  intro k w hx
  rcases mem_done_faulty.mp hx with ⟨hx, -⟩ | hx
  · exact hr k w hx.symm
  · exact h k w hx

theorem telling_of_verb {u : Multiplicador} {r : Req}
    (h : (opOf r).verb ≠ .updateStatus) : Telling u r := by
  rintro k w rfl
  exact absurd rfl h

/-! ## The create branch -/

/-- The calls about CRs. -/
def OnCR (K : Kind) (_ : Key) : Prop := K = .cr

theorem asks_writeStatus (u : Versioned Multiplicador) :
    Asks (About OnCR) (writeStatus u) := by
  rw [writeStatus, ask]
  refine ⟨rfl, fun x _ => ?_⟩
  cases x with
  | ok a => trivial
  | error e => exact ⟨rfl, fun _ _ => trivial⟩

theorem reconcileCreate_eq (w : Versioned Multiplicador) :
    reconcileCreate w
      = .call (.createDeployment (deplKey w.obj) (newDeployment w.obj))
        fun x => match x with
          | .error e => .ret (.error (.wrap "create deployment: " (.api e)))
          | .ok _ => writeStatus ⟨withReady w.obj, w.version⟩ >>= fun _ =>
              ensureServiceAndProxy ⟨withReady w.obj, w.version⟩ >>= fun r =>
                .ret (wrapEnsure r.1) := by
  refine congrArg (Prog.call _) (funext fun x => ?_)
  cases x <;> rfl

theorem serve_createDeployment_taken {c : Cluster} {q : Key} {d : Deployment}
    {v : Versioned Deployment} (h : c.deployments q = some v) :
    serve c (.createDeployment q d)
      = (c, .error (.refused .alreadyExists)) := by
  simp [serve, create, h, wrote]

/-- A Deployment that is there is not created. -/
theorem run_create_taken (w : Versioned Multiplicador) {s : ApiSite}
    (ha : Alone s.fates) {v : Versioned Deployment}
    (hst : s.state.deployments (deplKey w.obj) = some v) :
    ((reconcileCreate w).run faultyApi s).2 ≠ .nil
      ∧ (NoStatus s → NoStatus ((reconcileCreate w).run faultyApi s).1) := by
  have htaken := serve_createDeployment_taken (d := newDeployment w.obj) hst
  obtain ⟨e, he⟩ := call_error (r := .createDeployment (deplKey w.obj)
    (newDeployment w.obj)) ha (Or.inr ⟨_, congrArg Prod.snd htaken⟩)
  rw [reconcileCreate_eq, Prog.run_call, he]
  exact ⟨by simp, fun h => noStatus_call h (by simp [opOf])⟩

/-- What the create branch leaves once it has created the Deployment. -/
structure Created (u : Multiplicador) (s t : ApiSite) : Prop where
  deployment : content t.state.deployments (deplKey u)
    = some (newDeployment u)
  service : content t.state.services (svcKey u)
    = if ServiceWritten u s.fates (content s.state.services (svcKey u))
      then some (serviceAfter u (content s.state.services (svcKey u)))
      else content s.state.services (svcKey u)
  proxy : content t.state.proxies (targetKey u)
    = if u.ruta ≠ ""
        ∧ ServiceSettled u s.fates (content s.state.services (svcKey u))
        ∧ ProxyWritten u s.fates (content s.state.proxies (targetKey u))
      then mergeContent u (content s.state.proxies (targetKey u))
      else content s.state.proxies (targetKey u)

section Congr

variable {u w : Multiplicador} (h : SameReads u w)
include h

theorem deplKey_congr : deplKey u = deplKey w := by
  rw [deplKey, deplKey, h.nsOf, h.name]

theorem svcKey_congr : svcKey u = svcKey w := by
  rw [svcKey, svcKey, h.nsOf, h.name]

theorem targetKey_congr : targetKey u = targetKey w := by
  rw [targetKey, targetKey, h.nsOf, h.proxyName]

theorem serviceWritten_congr (F : Fates) (S : Option Service) :
    ServiceWritten u F S ↔ ServiceWritten w F S := by
  cases S <;> simp [ServiceWritten, svcKey_congr h]

theorem serviceSettled_congr (F : Fates) (S : Option Service) :
    ServiceSettled u F S ↔ ServiceSettled w F S := by
  cases S with
  | none => simp [ServiceSettled, svcKey_congr h]
  | some x =>
      have hfix : repairService u x = repairService w x := h.serviceAfter (some x)
      simp [ServiceSettled, svcKey_congr h, hfix]

theorem proxyWritten_congr (F : Fates) (P : Option Fields) :
    ProxyWritten u F P ↔ ProxyWritten w F P := by
  cases P with
  | none => simp [ProxyWritten, targetKey_congr h]
  | some o =>
      have hm : mergeProxy u o = mergeProxy w o := h.mergeContent (some o)
      simp [ProxyWritten, targetKey_congr h, hm]

theorem Created.congr {s t : ApiSite} (hc : Created u s t) :
    Created w s t := by
  obtain ⟨hd, hs, hp⟩ := hc
  have hnew : newDeployment u = newDeployment w := h.deploymentAfter none
  refine ⟨?_, ?_, ?_⟩
  · rw [← deplKey_congr h, ← hnew]
    exact hd
  · rw [← svcKey_congr h, hs]
    exact if_congr (serviceWritten_congr h _ _)
      (congrArg some (h.serviceAfter _)) rfl
  · rw [← targetKey_congr h, hp]
    refine if_congr ?_ (h.mergeContent _) rfl
    rw [h.ruta, serviceSettled_congr h, proxyWritten_congr h, svcKey_congr h]

end Congr

/-- A site at which a CR's children are as at another one. -/
structure SameChildren (s s' : ApiSite) : Prop where
  alone : Alone s'.fates
  services : s'.state.services = s.state.services
  proxies : s'.state.proxies = s.state.proxies
  fates : ∀ op, op.kind = .service ∨ op.kind = .proxy →
    s'.fates op = s.fates op

theorem sameChildren_of_sameBut {A : Kind → Key → Prop} {s s' : ApiSite}
    (h : SameBut A s s') (hs : ∀ k, ¬ A .service k)
    (hp : ∀ k, ¬ A .proxy k) : SameChildren s s' := by
  refine ⟨h.alone, funext fun k => h.services k (hs k),
    funext fun k => h.proxies k (hp k), ?_⟩
  rintro op (hK | hK)
  · exact h.fates op (hK ▸ hs op.key)
  · exact h.fates op (hK ▸ hp op.key)

theorem SameChildren.trans {s s' s'' : ApiSite} (h : SameChildren s s')
    (h' : SameChildren s' s'') : SameChildren s s'' :=
  ⟨h'.alone, h'.services.trans h.services, h'.proxies.trans h.proxies,
    fun op hK => (h'.fates op hK).trans (h.fates op hK)⟩

theorem SameChildren.written {s s' : ApiSite} (h : SameChildren s s')
    (u : Multiplicador) (S : Option Service) (P : Option Fields) :
    (ServiceWritten u s'.fates S ↔ ServiceWritten u s.fates S)
      ∧ (ServiceSettled u s'.fates S ↔ ServiceSettled u s.fates S)
      ∧ (ProxyWritten u s'.fates P ↔ ProxyWritten u s.fates P)
      ∧ (ProxySettled u s'.fates P ↔ ProxySettled u s.fates P) := by
  have hsvc : ∀ v, s'.fates ⟨v, .service, svcKey u⟩
      = s.fates ⟨v, .service, svcKey u⟩ := fun v => h.fates _ (Or.inl rfl)
  have hprox : ∀ v, s'.fates ⟨v, .proxy, targetKey u⟩
      = s.fates ⟨v, .proxy, targetKey u⟩ := fun v => h.fates _ (Or.inr rfl)
  refine ⟨?_, ?_, ?_, ?_⟩
  · cases S <;> simp [ServiceWritten, hsvc]
  · cases S <;> simp [ServiceSettled, hsvc]
  · cases P <;> simp [ProxyWritten, hprox]
  · cases P <;> simp [ProxySettled, hprox]

theorem Created.of_children {u : Multiplicador} {s s' t : ApiSite}
    (h : SameChildren s s') (hc : Created u s' t) : Created u s t := by
  obtain ⟨hd, hs, hp⟩ := hc
  obtain ⟨hw, hset, hpw, -⟩ := h.written u
    (content s.state.services (svcKey u)) (content s.state.proxies (targetKey u))
  rw [h.services] at hs hp
  rw [h.proxies] at hp
  refine ⟨hd, hs.trans (if_congr hw rfl rfl), hp.trans (if_congr ?_ rfl rfl)⟩
  rw [hset, hpw]

/-- `ensureServiceAndProxy` writes no Deployment and no status. -/
theorem run_ensure_frame (u : Versioned Multiplicador) {s : ApiSite}
    (ha : Alone s.fates) :
    Alone ((ensureServiceAndProxy u).run faultyApi s).1.fates
      ∧ ((ensureServiceAndProxy u).run faultyApi s).1.state.deployments
        = s.state.deployments
      ∧ (NoStatus s →
        NoStatus ((ensureServiceAndProxy u).run faultyApi s).1) := by
  obtain ⟨⟨halone, hd, hno⟩, -⟩ := run_of_asking faultyApi
    (I := fun x => Alone x.fates
      ∧ x.state.deployments = s.state.deployments
      ∧ (NoStatus s → NoStatus x))
    (fun x r hr hx => by
      obtain ⟨halone, hd, hno⟩ := hx
      have hcall := SameBut.call (A := fun K _ => K ≠ .deployment)
        (SameBut.refl halone) hr.1
      refine ⟨halone.faulty r, ?_, fun h => noStatus_call (hno h) hr.2⟩
      rw [← hd]
      exact funext fun k => hcall.deployments k (by simp))
    (obeys_ensureServiceAndProxy u) ⟨ha, rfl, id⟩
  exact ⟨halone, hd, hno⟩

/-- A Deployment that was created. -/
theorem createDeployment_ok {u : Multiplicador} {s : ApiSite}
    (ha : Alone s.fates) {a : Unit}
    (hx : (faultyApi s (.createDeployment (deplKey u) (newDeployment u))).2
      = .ok a) :
    content (faultyApi s (.createDeployment (deplKey u)
        (newDeployment u))).1.state.deployments (deplKey u)
      = some (newDeployment u) := by
  obtain ⟨hans, hserve⟩ := (call_ok_iff ha).mp hx
  cases hst : s.state.deployments (deplKey u) with
  | some v =>
      rw [serve_createDeployment_taken hst] at hserve
      exact absurd hserve (by simp)
  | none =>
      have hnew := serve_createDeployment (d := newDeployment u) hst
      rw [call_state ha, if_pos (Fate.arrives_of_answered hans), hnew]
      simp

/-- **THE CREATE BRANCH**: if it has written a status, it has created the
    Deployment first. -/
theorem run_create_status (w : Versioned Multiplicador) {s : ApiSite}
    (ha : Alone s.fates) (hno : NoStatus s)
    (hst : ¬ NoStatus ((reconcileCreate w).run faultyApi s).1) :
    Created w.obj s ((reconcileCreate w).run faultyApi s).1 := by
  rw [reconcileCreate_eq, Prog.run_call] at hst ⊢
  set r : Req := .createDeployment (deplKey w.obj) (newDeployment w.obj)
    with hr
  cases hx : (faultyApi s r).2 with
  | error e =>
      rw [hx] at hst
      exact absurd (noStatus_call hno (by simp [opOf])) hst
  | ok a =>
      dsimp only
      rw [Prog.run_bind, Prog.run_bind, Prog.run_ret]
      dsimp only
      have hcall : SameBut (fun K _ => K = .deployment) s (faultyApi s r).1 :=
        SameBut.call (SameBut.refl ha) rfl
      set s₁ := (faultyApi s r).1 with hs₁
      have hwrite := sameBut_run
        (asks_writeStatus ⟨withReady w.obj, w.version⟩) hcall.alone
      set s₂ := ((writeStatus ⟨withReady w.obj, w.version⟩).run
        faultyApi s₁).1 with hs₂
      have hsame : SameChildren s s₂ :=
        (sameChildren_of_sameBut hcall (by simp) (by simp)).trans
          (sameChildren_of_sameBut hwrite (by simp [OnCR]) (by simp [OnCR]))
      obtain ⟨hsvc, hprox, -⟩ := run_ensure_faulty
        ⟨withReady w.obj, w.version⟩ hsame.alone rfl rfl
      obtain ⟨-, hd, -⟩ := run_ensure_frame ⟨withReady w.obj, w.version⟩
        hsame.alone
      have hdepl : content s₁.state.deployments (deplKey w.obj)
          = some (newDeployment w.obj) := createDeployment_ok ha hx
      have hd₂ : s₂.state.deployments (deplKey w.obj)
          = s₁.state.deployments (deplKey w.obj) :=
        hwrite.deployments _ (by simp [OnCR])
      refine Created.of_children hsame
        (Created.congr (sameReads_withReady w.obj) ⟨?_, hsvc, hprox⟩)
      rw [hd]
      refine Eq.trans (congrArg (Option.map Versioned.obj) hd₂) (hdepl.trans ?_)
      exact congrArg some
        ((sameReads_withReady w.obj).deploymentAfter none).symm

/-! ## The repair branch -/

/-- What the repair branch leaves when it comes back with nil: all of it. -/
structure Repaired (u : Multiplicador) (d : Deployment) (s t : ApiSite) :
    Prop where
  deployment : content t.state.deployments (deplKey u)
    = some (repairDeployment u d)
  service : content t.state.services (svcKey u)
    = some (serviceAfter u (content s.state.services (svcKey u)))
  proxy : u.ruta ≠ "" →
    ∃ m, mergeContent u (content s.state.proxies (targetKey u)) = some m
      ∧ content t.state.proxies (targetKey u) = some m

theorem Repaired.of_children {u : Multiplicador} {d : Deployment}
    {s s' t : ApiSite} (h : SameChildren s s') (hr : Repaired u d s' t) :
    Repaired u d s t := by
  obtain ⟨hd, hs, hp⟩ := hr
  rw [h.services] at hs
  rw [h.proxies] at hp
  exact ⟨hd, hs, hp⟩

theorem Repaired.congr {u w : Multiplicador} {d : Deployment}
    {s t : ApiSite} (h : SameReads u w) (hr : Repaired u d s t) :
    Repaired w d s t := by
  obtain ⟨hd, hs, hp⟩ := hr
  have hrep : repairDeployment u d = repairDeployment w d :=
    h.deploymentAfter (some d)
  refine ⟨?_, ?_, ?_⟩
  · rw [← deplKey_congr h, ← hrep]
    exact hd
  · rw [← svcKey_congr h, ← h.serviceAfter]
    exact hs
  · rw [← targetKey_congr h, ← h.ruta, ← h.mergeContent]
    exact hp

/-- The Service part that comes back with nil leaves the Service repaired. -/
theorem service_of_settled {u : Multiplicador} {F : Fates}
    {S : Option Service} (h : ServiceSettled u F S) :
    (if ServiceWritten u F S then some (serviceAfter u S) else S)
      = some (serviceAfter u S) := by
  by_cases hw : ServiceWritten u F S
  · rw [if_pos hw]
  · rw [if_neg hw]
    cases S with
    | none => exact absurd (Fate.arrives_of_answered h) hw
    | some x =>
        obtain ⟨hget, hfix | hupd⟩ := h
        · rw [serviceAfter, hfix]
        · exact absurd ⟨hget, Fate.arrives_of_answered hupd⟩ hw

/-- What the create or the merge writes. -/
theorem mergeContent_of_written {u : Multiplicador} {F : Fates}
    {P : Option Fields} (h : ProxyWritten u F P) :
    ∃ m, mergeContent u P = some m := by
  cases P with
  | none => exact ⟨newProxy u, rfl⟩
  | some o => exact Option.isSome_iff_exists.mp h.2.1

/-- The calls of the repair of a Deployment. -/
def OnDeployment (K : Kind) (_ : Key) : Prop := K = .deployment

theorem asks_updateDeployment (u : Multiplicador)
    (v : Versioned Deployment) :
    Asks (About OnDeployment) (updateDeployment u v) := by
  rw [updateDeployment_eq]
  split
  · trivial
  · refine ⟨rfl, fun x _ => ?_⟩
    cases x <;> trivial

/-- What is left of the repair branch after the Deployment. -/
def repairRest (u : Versioned Multiplicador) : Api Outcome :=
  ensureServiceAndProxy u >>= fun r =>
    if r.1 = .nil then
      writeStatus ⟨withReady r.2, u.version⟩ >>= fun _ => .ret .nil
    else .ret (wrapEnsure r.1)

theorem reconcileRepair_eq (u : Versioned Multiplicador)
    (v : Versioned Deployment) :
    reconcileRepair u v = updateDeployment u.obj v >>= fun o =>
      if o = .nil then repairRest u else .ret o := by
  rw [reconcileRepair, repairRest]
  refine congrArg (updateDeployment u.obj v >>= ·) (funext fun o => ?_)
  cases o with
  | nil =>
      rw [if_pos rfl]
      refine congrArg (ensureServiceAndProxy u >>= ·) (funext fun r => ?_)
      obtain ⟨o, w⟩ := r
      cases o <;> rfl
  | error e => rfl
  | panic => rfl

/-- The rest comes back with nil exactly when the children are settled, and
    only then it writes a status. -/
theorem run_repairRest (u : Versioned Multiplicador) {s : ApiSite}
    (ha : Alone s.fates) :
    let t := (repairRest u).run faultyApi s
    (t.2 = .nil →
        t.1.state.deployments = s.state.deployments
        ∧ content t.1.state.services (svcKey u.obj) = some (serviceAfter u.obj
          (content s.state.services (svcKey u.obj)))
        ∧ (u.obj.ruta ≠ "" → ∃ m, mergeContent u.obj
            (content s.state.proxies (targetKey u.obj)) = some m
          ∧ content t.1.state.proxies (targetKey u.obj) = some m))
      ∧ (t.2 ≠ .nil → NoStatus s → NoStatus t.1) := by
  intro t
  have ht : t = _ := Prog.run_bind faultyApi _ _ s
  obtain ⟨hsvc, hprox, hnil⟩ := run_ensure_faulty u ha rfl rfl
  obtain ⟨halone, hd, hno⟩ := run_ensure_frame u ha
  set s₁ := ((ensureServiceAndProxy u).run faultyApi s).1 with hs₁
  by_cases ho : ((ensureServiceAndProxy u).run faultyApi s).2.1 = .nil
  · rw [if_pos ho, Prog.run_bind, Prog.run_ret] at ht
    have hwrite := sameBut_run (asks_writeStatus
      ⟨withReady ((ensureServiceAndProxy u).run faultyApi s).2.2, u.version⟩)
      halone
    obtain ⟨hset, hp⟩ := hnil.mp ho
    rw [ht]
    refine ⟨fun _ => ⟨?_, ?_, ?_⟩, fun h => absurd rfl h⟩
    · rw [← hd]
      exact funext fun k => hwrite.deployments k (by simp [OnCR])
    · rw [← service_of_settled hset, ← hsvc]
      exact congrArg (Option.map _) (hwrite.services _ (by simp [OnCR]))
    · intro hr
      have hps := hp.resolve_left hr
      obtain ⟨m, hm⟩ := mergeContent_of_written hps.written
      refine ⟨m, hm, ?_⟩
      rw [if_pos ⟨hr, hset, hps.written⟩, hm] at hprox
      rw [← hprox]
      exact congrArg (Option.map _) (hwrite.proxies _ (by simp [OnCR]))
  · rw [if_neg ho, Prog.run_ret] at ht
    rw [ht]
    refine ⟨fun h => absurd h ?_, fun _ => hno⟩
    dsimp only
    cases hout : ((ensureServiceAndProxy u).run faultyApi s).2.1 with
    | nil => exact absurd hout ho
    | error e => simp [wrapEnsure]
    | panic => simp [wrapEnsure]

/-- **THE REPAIR BRANCH**: with nil everything is repaired, and only then a
    status is written. -/
theorem run_repair (u : Versioned Multiplicador) {s : ApiSite}
    (ha : Alone s.fates) {v : Versioned Deployment}
    (hst : s.state.deployments (deplKey u.obj) = some v) :
    let t := (reconcileRepair u v).run faultyApi s
    (t.2 = .nil → Repaired u.obj v.obj s t.1)
      ∧ (t.2 ≠ .nil → NoStatus s → NoStatus t.1) := by
  intro t
  have ht : t = _ := (congrArg (fun p => Prog.run faultyApi p s)
    (reconcileRepair_eq u v)).trans (Prog.run_bind _ _ _ s)
  have hupd := sameBut_run (asks_updateDeployment u.obj v) ha
  have hsame := sameChildren_of_sameBut hupd (by simp [OnDeployment])
    (by simp [OnDeployment])
  have hno : NoStatus s →
      NoStatus ((updateDeployment u.obj v).run faultyApi s).1 := by
    intro h r hr hv
    refine h r ((hupd.done r ?_).mp hr) hv
    intro hK
    exact verb_of_kind (r := r) (by rw [hK]; simp) hv
  have hdepl := run_updateDeployment_faulty u.obj ha hst
  set s₁ := ((updateDeployment u.obj v).run faultyApi s).1 with hs₁
  by_cases ho : ((updateDeployment u.obj v).run faultyApi s).2 = .nil
  · rw [if_pos ho] at ht
    obtain ⟨hnil, hrest⟩ := run_repairRest u hsame.alone
    rw [ht]
    refine ⟨fun h => Repaired.of_children hsame ?_,
      fun h hs => hrest h (hno hs)⟩
    obtain ⟨hd, hsvc, hprox⟩ := hnil h
    refine ⟨?_, hsvc, hprox⟩
    rw [hd]
    exact hdepl ho
  · rw [if_neg ho, Prog.run_ret] at ht
    rw [ht]
    exact ⟨fun h => absurd h ho, fun _ => hno⟩

/-! ## The valid branch -/

/-- The calls about CRs and the look at the Deployment. -/
def Opening (K : Kind) (_ : Key) : Prop := K = .cr ∨ K = .deployment

theorem getDeployment_ok {s : ApiSite} (ha : Alone s.fates) {k : Key}
    {v : Versioned Deployment}
    (hx : (faultyApi s (.getDeployment k)).2 = .ok v) :
    s.state.deployments k = some v := by
  have h : got (s.state.deployments k) = .ok v :=
    ((call_ok_iff ha).mp hx).2
  cases hst : s.state.deployments k with
  | none =>
      rw [hst] at h
      exact absurd h (by simp [got])
  | some w =>
      rw [hst] at h
      rw [Except.ok.inj h]

/-- **THE VALID BRANCH** goes on as the repair branch with the stored
    Deployment, or as the create branch. -/
theorem run_valid_cases (u : Versioned Multiplicador) {s : ApiSite}
    (ha : Alone s.fates) :
    ∃ s', SameChildren s s'
      ∧ s'.state.deployments = s.state.deployments
      ∧ (NoStatus s → NoStatus s')
      ∧ ((∃ v, s.state.deployments (deplKey u.obj) = some v
          ∧ (reconcileValid u).run faultyApi s
            = (reconcileRepair ⟨annotated u.obj, u.version⟩ v).run
              faultyApi s')
        ∨ (reconcileValid u).run faultyApi s
            = (reconcileCreate ⟨annotated u.obj, u.version⟩).run
              faultyApi s') := by
  unfold reconcileValid ask
  simp only [Prog.call_bind, Prog.ret_bind, Prog.run_call]
  set r : Req := .updateCR (nsOf u.obj, u.obj.name)
    ⟨annotated u.obj, u.version⟩ with hr
  set g : Req := .getDeployment (deplKey u.obj) with hg
  have hcr : SameBut OnCR s (faultyApi s r).1 :=
    SameBut.call (SameBut.refl ha) rfl
  have hopen : SameBut Opening s (faultyApi (faultyApi s r).1 g).1 :=
    ((SameBut.refl ha).call (Or.inl rfl)).call (Or.inr rfl)
  have hread : (faultyApi (faultyApi s r).1 g).1.state
      = (faultyApi s r).1.state :=
    (call_state hcr.alone).trans (ite_self _)
  have hdepl : (faultyApi s r).1.state.deployments = s.state.deployments :=
    funext fun k => hcr.deployments k (by simp [OnCR])
  refine ⟨(faultyApi (faultyApi s r).1 g).1,
    sameChildren_of_sameBut hopen (by simp [Opening]) (by simp [Opening]),
    ?_, ?_, ?_⟩
  · rw [hread, hdepl]
  · exact fun h => noStatus_call (noStatus_call h (by simp [hr, opOf]))
      (by simp [hg, opOf])
  · cases hx : (faultyApi (faultyApi s r).1 g).2 with
    | error e =>
        refine Or.inr ?_
        have hx' : (faultyApi (faultyApi s r).1 (.getDeployment
            (nsOf u.obj, deplNameOf u.obj.name))).2 = .error e := hx
        rw [hx']
        rfl
    | ok v =>
        refine Or.inl ⟨v, ?_, ?_⟩
        · rw [← hdepl]
          exact getDeployment_ok hcr.alone hx
        · have hx' : (faultyApi (faultyApi s r).1 (.getDeployment
              (nsOf u.obj, deplNameOf u.obj.name))).2 = .ok v := hx
          rw [hx']
          rfl

/-- **NIL MEANS REPAIRED**: a reconcile of a valid CR whose Deployment is there
    comes back with nil only when it has repaired everything. -/
theorem repaired_of_nil (u : Versioned Multiplicador) {s : ApiSite}
    (ha : Alone s.fates) {d : Deployment}
    (hd : content s.state.deployments (deplKey u.obj) = some d)
    (hnil : ((reconcileValid u).run faultyApi s).2 = .nil) :
    Repaired u.obj d s ((reconcileValid u).run faultyApi s).1 := by
  obtain ⟨v, hv, rfl⟩ := Option.map_eq_some_iff.mp hd
  obtain ⟨s', hsame, hdepl, -, hrun⟩ := run_valid_cases u ha
  have hv' : s'.state.deployments (deplKey u.obj) = some v := by
    rw [hdepl, hv]
  rcases hrun with ⟨w, hw, hrun⟩ | hrun
  · obtain rfl := Option.some.inj (hv.symm.trans hw)
    rw [hrun] at hnil ⊢
    exact Repaired.of_children hsame (Repaired.congr
      (sameReads_annotated u.obj) ((run_repair ⟨annotated u.obj, u.version⟩
        hsame.alone hv').1 hnil))
  · rw [hrun] at hnil
    exact absurd hnil (run_create_taken ⟨annotated u.obj, u.version⟩
      hsame.alone hv').1

/-- **WHAT A STATUS MEANS**: a reconcile of a valid CR that has written a
    status has repaired everything, if the Deployment was there, and has
    created the Deployment, if it was not. -/
theorem children_of_status (u : Versioned Multiplicador) {s : ApiSite}
    (ha : Alone s.fates) (hno : NoStatus s)
    (hst : ¬ NoStatus ((reconcileValid u).run faultyApi s).1) :
    (∀ d, content s.state.deployments (deplKey u.obj) = some d →
        Repaired u.obj d s ((reconcileValid u).run faultyApi s).1)
      ∧ (content s.state.deployments (deplKey u.obj) = none →
        Created u.obj s ((reconcileValid u).run faultyApi s).1) := by
  obtain ⟨s', hsame, hdepl, hno', hrun⟩ := run_valid_cases u ha
  constructor
  · intro d hd
    refine repaired_of_nil u ha hd ?_
    obtain ⟨v, hv, rfl⟩ := Option.map_eq_some_iff.mp hd
    have hv' : s'.state.deployments (deplKey u.obj) = some v := by
      rw [hdepl, hv]
    rcases hrun with ⟨w, hw, hrun⟩ | hrun
    · obtain rfl := Option.some.inj (hv.symm.trans hw)
      rw [hrun] at hst ⊢
      by_contra hne
      exact hst ((run_repair ⟨annotated u.obj, u.version⟩ hsame.alone hv').2
        hne (hno' hno))
    · rw [hrun] at hst
      exact absurd ((run_create_taken ⟨annotated u.obj, u.version⟩
        hsame.alone hv').2 (hno' hno)) hst
  · intro hd
    rcases hrun with ⟨w, hw, -⟩ | hrun
    · rw [content_of_some hw] at hd
      exact absurd hd (by simp)
    · rw [hrun] at hst ⊢
      exact Created.of_children hsame (Created.congr
        (sameReads_annotated u.obj) (run_create_status _ hsame.alone
          (hno' hno) hst))

/-! ## The status that is written -/

theorem asks_writeStatus_telling {u w : Multiplicador} {n : Nat}
    (h : SameSpec u w) : Asks (Telling u) (writeStatus ⟨withReady w, n⟩) := by
  rw [writeStatus, ask]
  refine ⟨?_, fun x _ => ?_⟩
  · intro k x hx
    rw [← (Req.updateStatusCR.inj hx).2]
    exact congrArg some h.readyStatus
  · cases x with
    | ok a => trivial
    | error e => exact ⟨telling_of_verb (by simp [opOf]), fun _ _ => trivial⟩

theorem asks_ensure_telling (u : Multiplicador)
    (w : Versioned Multiplicador) :
    Obeys (asking (Telling u)) (ensureServiceAndProxy w) ()
      fun _ a => SameSpec w.obj a.2 :=
  (obeys_ensureServiceAndProxy w).weaken fun _ hr => telling_of_verb hr.2

theorem asks_reconcileCreate_telling {u : Multiplicador}
    {w : Versioned Multiplicador} (h : SameSpec u w.obj) :
    Asks (Telling u) (reconcileCreate w) := by
  rw [reconcileCreate_eq]
  refine ⟨telling_of_verb (by simp [opOf]), fun x _ => ?_⟩
  cases x with
  | error e => trivial
  | ok a =>
      refine Asks.bind (asks_writeStatus_telling h) fun _ => ?_
      exact Obeys.seq (asks_ensure_telling u _) fun _ _ _ => trivial

theorem asks_reconcileRepair_telling {u : Multiplicador}
    {w : Versioned Multiplicador} (h : SameSpec u w.obj)
    (v : Versioned Deployment) :
    Asks (Telling u) (reconcileRepair w v) := by
  rw [reconcileRepair_eq]
  refine Asks.bind ((asks_updateDeployment w.obj v).mono ?_) fun o => ?_
  · intro r hr
    exact telling_of_verb (verb_of_kind (by
      rw [show (opOf r).kind = .deployment from hr]
      simp))
  · split
    · refine Obeys.seq (asks_ensure_telling u w) fun _ r hr => ?_
      split
      · have hr' : SameSpec u r.2 :=
          ⟨hr.ns.trans h.ns, hr.name.trans h.name, hr.spec.trans h.spec⟩
        exact Asks.bind (asks_writeStatus_telling hr') fun _ => trivial
      · trivial
    · trivial

/-- **WHAT A STATUS SAYS**: every status that a reconcile of a valid CR writes
    is that of its spec. -/
theorem statusOf_valid (u : Versioned Multiplicador) {s : ApiSite}
    (hs : StatusOf u.obj s) :
    StatusOf u.obj ((reconcileValid u).run faultyApi s).1 := by
  have hu : SameSpec u.obj (annotated u.obj) := ⟨rfl, rfl, rfl⟩
  have hasks : Asks (Telling u.obj) (reconcileValid u) := by
    rw [reconcileValid, ask]
    refine ⟨telling_of_verb (by simp [opOf]), fun _ _ =>
      ⟨telling_of_verb (by simp [opOf]), fun x _ => ?_⟩⟩
    cases x with
    | error e => exact asks_reconcileCreate_telling hu
    | ok v => exact asks_reconcileRepair_telling hu v
  exact run_of_asks faultyApi (I := StatusOf u.obj)
    (fun _ _ hr h => statusOf_call h hr) hasks hs

end FaultyBranches
