import KubernetesUpRunning.ClusterRuns
import KubernetesUpRunning.FaultyReconcile

/-! # The finalizer and the clean-up

    The reconcile of a CR that is being deleted takes the CR out of its
    recorded proxy and then takes its finalizer.  Calls may fail, and others
    may write the proxy in between.  This file says exactly when the finalizer
    outlives a clean-up that has failed. -/

namespace FinalizerCleanup

open ApiServer CallProgram ClusterRuns FaultyReconcile FaultyServer GoJson
open KubeObjects ProxyShape ProxyView Reconcile ReconcileEffect ReconcileRun
open ServerSteps VersionedStore

/-- Where the CR is. -/
def crKey (u : Multiplicador) : Key := (nsOf u, u.name)

/-- A proxy without an owner entry of the CR and without a route to its
    service under the recorded prefix. -/
structure CleanProxy (u : Multiplicador) (o : Fields) : Prop where
  owners : ∀ e ∈ ownersOf o, ownedBy u.uid e = false
  routes : prevRoute u ≠ "" → ∀ r ∈ routesOf o,
    firstPrefix r = some (prevRoute u) → pointsTo (svcNameOf u.name) r = false

/-- The recorded proxy is gone or clean. -/
def Clean (u : Multiplicador) (c : Cluster) : Prop :=
  prevProxy u ≠ "" →
    ∀ o, content c.proxies (oldKey u) = some o → CleanProxy u o

/-- Somebody else, who leaves the CR alone and puts nothing of it back. -/
structure Bystander (u : Multiplicador) (f : Cluster → Cluster) : Prop where
  cr : ∀ c, (f c).crs (crKey u) = c.crs (crKey u)
  clean : ∀ c, Clean u c → Clean u (f c)

/-- Nobody but bystanders writes in between. -/
def Bystanders (u : Multiplicador) (F : Fates) : Prop :=
  ∀ op n f, F op n = .overtaken f → Bystander u f

/-- What the call is to bring about: when the finalizer is gone the proxy is
    clean, and while it is there the error reaches the worker, which tries
    again. -/
structure Outlives (u : Multiplicador) (t : ApiSite × Outcome) : Prop where
  cleaned : (∀ v, t.1.state.crs (crKey u) = some v →
    finalizerName ∉ v.obj.finalizers) → Clean u t.1.state
  retried : ∀ v, t.1.state.crs (crKey u) = some v →
    finalizerName ∈ v.obj.finalizers → t.2 ≠ .nil

/-- The read of the recorded proxy. -/
def readOp (u : Multiplicador) : Op := ⟨.get, .proxy, oldKey u⟩

/-- The write that takes the finalizer. -/
def finalizerOp (u : Multiplicador) : Op := ⟨.update, .cr, crKey u⟩

/-- The write of the cleaned proxy. -/
def leaveReq (u : Multiplicador) (v : Versioned Fields) : Req :=
  if deleteOld (stripProxy u.uid (prevRoute u) v.obj) then
    .deleteProxy (oldKey u)
  else .updateProxy (oldKey u)
    ⟨stripProxy u.uid (prevRoute u) v.obj, v.version⟩

/-- What the others leave before the read. -/
def atRead (u : Multiplicador) (s : ApiSite) : Cluster :=
  (s.fates (readOp u) 0).others s.state

/-- The recorded proxy as the read answers it, if it does. -/
def readProxy (u : Multiplicador) (s : ApiSite) : Option (Versioned Fields) :=
  if (s.fates (readOp u) 0).answered then (atRead u s).proxies (oldKey u)
  else none

/-- What the others leave before the write of the proxy. -/
def atLeave (u : Multiplicador) (s : ApiSite) (v : Versioned Fields) :
    Cluster :=
  (s.fates (opOf (leaveReq u v)) 0).others (atRead u s)

/-- The write of the cleaned proxy gets to the server, which finds the version
    that was read, or has only to delete it. -/
def Lands (u : Multiplicador) (s : ApiSite) : Prop :=
  prevProxy u ≠ "" ∧ ∃ v, readProxy u s = some v
    ∧ (s.fates (opOf (leaveReq u v)) 0).arrives = true
    ∧ ∃ w, (atLeave u s v).proxies (oldKey u) = some w
      ∧ (deleteOld (stripProxy u.uid (prevRoute u) v.obj) = true
        ∨ w.version = v.version)

/-- What the others alone leave during the clean-up. -/
def othersCleanup (u : Multiplicador) (s : ApiSite) : Cluster :=
  match readProxy u s with
  | none => atRead u s
  | some v => atLeave u s v

/-- What the others alone leave during the whole call. -/
def othersLeave (u : Multiplicador) (s : ApiSite) : Cluster :=
  if finalizerName ∈ u.finalizers then
    (s.fates (finalizerOp u) 0).others (othersCleanup u s)
  else othersCleanup u s

/-- The condition for the proxy: its write lands, or the others leave it clean
    anyway. -/
def ComesClean (u : Multiplicador) (s : ApiSite) : Prop :=
  Lands u s ∨ Clean u (othersLeave u s)

/-- The condition for the finalizer: it is not there, or the write that takes
    it gets to the server. -/
def FinalizerGoes (u : Multiplicador) (F : Fates) : Prop :=
  finalizerName ∈ u.finalizers → (F (finalizerOp u) 0).arrives = true

section Bystanders

variable {u : Multiplicador} {F : Fates} (hF : Bystanders u F)
include hF

theorem Bystanders.cr (op : Op) (n : Nat) (c : Cluster) :
    ((F op n).others c).crs (crKey u) = c.crs (crKey u) := by
  cases hx : F op n with
  | overtaken f => exact (hF op n f hx).cr c
  | served => rfl
  | failed e => rfl
  | lost e => rfl

theorem Bystanders.clean (op : Op) (n : Nat) (c : Cluster) (h : Clean u c) :
    Clean u ((F op n).others c) := by
  cases hx : F op n with
  | overtaken f => exact (hF op n f hx).clean c h
  | served => exact h
  | failed e => exact h
  | lost e => exact h

end Bystanders

/-! ## The clean-up of the proxy -/

theorem hasPrefix_eq_true {p : String} {r : Json} :
    hasPrefix p r = true ↔ firstPrefix r = some p := by
  simp [hasPrefix]

/-- The stripped proxy is clean. -/
theorem cleanProxy_stripProxy (u : Multiplicador) (o : Fields) :
    CleanProxy u (stripProxy u.uid (prevRoute u) o) := by
  constructor
  · intro e he
    rw [ownersOf_stripProxy] at he
    simpa using (List.mem_filter.mp he).2
  · intro hroute r hr hp
    rw [routesOf_stripProxy, keptRoutes, if_neg hroute] at hr
    have hnot := (List.mem_filter.mp hr).2
    rw [hasPrefix_eq_true.mpr hp] at hnot
    exact absurd hnot (by simp)

/-- A call whose answer is dropped. -/
def discard (r : Req) : Api Unit := .call r fun _ => .ret ()

theorem leaveProxy_eq (u : Multiplicador) :
    leaveProxy (nsOf u) (prevProxy u) u.uid (prevRoute u)
      = .call (.getProxy (oldKey u)) fun x => match x with
        | .error _ => .ret ()
        | .ok v => discard (leaveReq u v) := by
  refine congrArg (Prog.call _) (funext fun x => ?_)
  cases x with
  | error e => rfl
  | ok v => exact (apply_ite discard _ _ _).symm

/-- The read moves nothing, and answers what `readProxy` says. -/
theorem call_read (u : Multiplicador) (s : ApiSite) :
    (faultyApi s (.getProxy (oldKey u))).1.state = atRead u s
      ∧ ∀ v, (faultyApi s (.getProxy (oldKey u))).2 = .ok v
        ↔ readProxy u s = some v := by
  constructor
  · exact meet_state_others.trans (ite_self _)
  · intro v
    show (meet serve s.state (.getProxy (oldKey u)) _).2 = .ok v ↔ _
    rw [meet_ok_others]
    show (s.fates (readOp u) 0).answered = true
      ∧ got ((atRead u s).proxies (oldKey u)) = .ok v ↔ _
    rw [readProxy]
    cases (s.fates (readOp u) 0).answered with
    | false => simp
    | true =>
        cases (atRead u s).proxies (oldKey u) <;> simp [got]

/-- The write of the cleaned proxy, from what the others leave. -/
theorem serve_leaveReq {u : Multiplicador} {v : Versioned Fields}
    {c : Cluster} :
    (∀ w, c.proxies (oldKey u) = some w →
        deleteOld (stripProxy u.uid (prevRoute u) v.obj) = true
          ∨ w.version = v.version →
        Clean u (serve c (leaveReq u v)).1)
      ∧ ((∀ w, c.proxies (oldKey u) = some w →
          ¬ (deleteOld (stripProxy u.uid (prevRoute u) v.obj) = true
            ∨ w.version = v.version)) →
        (serve c (leaveReq u v)).1 = c) := by
  rw [leaveReq]
  by_cases hd : deleteOld (stripProxy u.uid (prevRoute u) v.obj) = true
  · rw [if_pos hd]
    constructor
    · intro w hw _ _ o ho
      rw [serve_deleteProxy hw] at ho
      exact absurd ho (by simp)
    · intro h
      cases hw : c.proxies (oldKey u) with
      | none => simp [serve, delete, hw, wrote]
      | some w => exact absurd (Or.inl hd) (h w hw)
  · rw [if_neg hd]
    constructor
    · rintro w hw (h | hver) _ o ho
      · exact absurd h hd
      · rw [← hver, serve_updateProxy hw] at ho
        obtain rfl : stripProxy u.uid (prevRoute u) v.obj = o := by
          simpa using ho
        exact cleanProxy_stripProxy u v.obj
    · intro h
      cases hw : c.proxies (oldKey u) with
      | none => simp [serve, update, hw, wrote]
      | some w =>
          have hver : w.version ≠ v.version := fun e => h w hw (Or.inr e)
          simp [serve, update, hw, hver, wrote]

/-- **THE CLEAN-UP**: when its write lands the proxy is clean, and when it
    does not the call has moved nothing.  It leaves the CR alone. -/
theorem run_cleanup {u : Multiplicador} {s : ApiSite}
    (hF : Bystanders u s.fates) (hprev : prevProxy u ≠ "") :
    let t := ((cleanupProxyForCR u).run faultyApi s).1
    (Lands u s → Clean u t.state)
      ∧ (¬ Lands u s → t.state = othersCleanup u s)
      ∧ t.state.crs (crKey u) = s.state.crs (crKey u)
      ∧ t.fates (finalizerOp u) = s.fates (finalizerOp u) := by
  intro t
  have ht : t = _ := congrArg (fun p => (Prog.run faultyApi p s).1)
    ((if_neg hprev).trans (leaveProxy_eq u))
  rw [Prog.run_call] at ht
  obtain ⟨hstate, hread⟩ := call_read u s
  have hfin : (faultyApi s (.getProxy (oldKey u))).1.fates (finalizerOp u)
      = s.fates (finalizerOp u) :=
    fates_of_op_ne (by simp [finalizerOp, opOf])
  cases hx : (faultyApi s (.getProxy (oldKey u))).2 with
  | error e =>
      have hnone : readProxy u s = none := by
        cases hr : readProxy u s with
        | none => rfl
        | some v => exact absurd (hx.symm.trans ((hread v).mpr hr)) (by simp)
      rw [hx, Prog.run_ret] at ht
      rw [ht, othersCleanup, hnone, hstate]
      refine ⟨?_, fun _ => rfl, hF.cr _ _ _, hfin⟩
      rintro ⟨-, v, hv, -⟩
      rw [hnone] at hv
      exact absurd hv (by simp)
  | ok v =>
      have hv : readProxy u s = some v := (hread v).mp hx
      set s₁ := (faultyApi s (.getProxy (oldKey u))).1 with hs₁
      have hfate : s₁.fates (opOf (leaveReq u v)) 0
          = s.fates (opOf (leaveReq u v)) 0 := by
        refine congrFun (fates_of_op_ne ?_) 0
        rw [leaveReq]
        split <;> simp [opOf]
      have hmeet : (faultyApi s₁ (leaveReq u v)).1.state
          = if (s.fates (opOf (leaveReq u v)) 0).arrives
            then (serve (atLeave u s v) (leaveReq u v)).1
            else atLeave u s v := by
        refine meet_state_others.trans ?_
        rw [hfate, hstate]
        rfl
      obtain ⟨hland, hstay⟩ :=
        serve_leaveReq (u := u) (v := v) (c := atLeave u s v)
      rw [hx] at ht
      change t = (faultyApi s₁ (leaveReq u v)).1 at ht
      rw [ht, othersCleanup, hv]
      refine ⟨?_, ?_, ?_, ?_⟩
      · rintro ⟨-, v', hv', harr, w, hw, hver⟩
        obtain rfl := Option.some.inj (hv.symm.trans hv')
        rw [hmeet, if_pos harr]
        exact hland w hw hver
      · intro hno
        rw [hmeet]
        split
        · rename_i harr
          exact hstay fun w hw hver => hno ⟨hprev, v, hv, harr, w, hw, hver⟩
        · rfl
      · have hcrs : (atLeave u s v).crs (crKey u) = s.state.crs (crKey u) :=
          (hF.cr _ _ _).trans (hF.cr _ _ _)
        rw [hmeet]
        split
        · refine ((elsewhere_serve _ _).crs _ ?_).trans hcrs
          rw [leaveReq]
          split <;> simp [opOf]
        · exact hcrs
      · refine (fates_of_op_ne ?_).trans hfin
        rw [leaveReq]
        split <;> simp [opOf, finalizerOp]

/-! ## Who the bystanders are -/

/-- Taking owners and routes out keeps a proxy clean. -/
theorem CleanProxy.sub {u : Multiplicador} {o o' : Fields}
    (h : CleanProxy u o) (hown : ∀ e ∈ ownersOf o', e ∈ ownersOf o)
    (hrt : ∀ r ∈ routesOf o', r ∈ routesOf o) : CleanProxy u o' :=
  ⟨fun e he => h.owners e (hown e he),
    fun hp r hr => h.routes hp r (hrt r hr)⟩

/-- A write of one proxy that only takes out of it. -/
theorem clean_setProxy {u : Multiplicador} {c : Cluster} {q : Key}
    {new : Option Fields} (h : Clean u c)
    (hnew : ∀ o', new = some o' → ∃ o, content c.proxies q = some o
      ∧ (∀ e ∈ ownersOf o', e ∈ ownersOf o)
      ∧ ∀ r ∈ routesOf o', r ∈ routesOf o) : Clean u (setProxy c q new) := by
  intro hprev o' ho'
  rw [setProxy_proxies] at ho'
  by_cases hq : oldKey u = q
  · subst hq
    rw [Function.update_self] at ho'
    obtain ⟨o, ho, hown, hrt⟩ := hnew o' ho'
    exact (h hprev o ho).sub hown hrt
  · rw [Function.update_of_ne hq] at ho'
    exact h hprev o' ho'

/-- Another CR that leaves a proxy. -/
def leavesToo (uid route : String) (q : Key) (c : Cluster) : Cluster :=
  setProxy c q (leaveContent uid route (content c.proxies q))

theorem bystander_leavesToo (u : Multiplicador) (uid route : String)
    (q : Key) : Bystander u (leavesToo uid route q) := by
  refine ⟨fun c => rfl, fun c h => clean_setProxy h fun o' ho' => ?_⟩
  obtain ⟨o, ho, hleft⟩ := Option.bind_eq_some_iff.mp ho'
  split at hleft
  · exact absurd hleft (by simp)
  · rw [← Option.some.inj hleft]
    refine ⟨o, ho, ?_, ?_⟩
    · intro e he
      rw [ownersOf_stripProxy] at he
      exact (List.mem_filter.mp he).1
    · intro r hr
      rw [routesOf_stripProxy] at hr
      exact (keptRoutes_sublist _ _).subset hr

/-- The garbage collector. -/
theorem bystander_collectProxy (u : Multiplicador) (q : Key) :
    Bystander u fun c => collectProxy c q := by
  refine ⟨fun c => congrFun (collectProxy_crs c q) _, fun c h => ?_⟩
  show Clean u (match c.proxies q with | none => c | some v => _)
  cases hq : c.proxies q with
  | none => exact h
  | some v =>
      dsimp only
      split
      · exact h
      · split
        · exact clean_setProxy h fun o' ho' => absurd ho' (by simp)
        · refine clean_setProxy h fun o' ho' => ?_
          rw [← Option.some.inj ho']
          exact ⟨v.obj, content_of_some hq, dropDangling_sub c q.1 v.obj⟩

/-! ## The write of the finalizer -/

/-- The write that takes the finalizer. -/
def finalizerReq (u : Versioned Multiplicador) : Req :=
  .updateCR (crKey u.obj) ⟨withoutFinalizer u.obj, u.version⟩

theorem reconcileDeleted_eq (u : Versioned Multiplicador) :
    reconcileDeleted u = cleanupProxyForCR u.obj >>= fun _ =>
      if finalizerName ∈ u.obj.finalizers then
        .call (finalizerReq u) fun _ => .ret .nil
      else .ret .nil := by
  refine congrArg (cleanupProxyForCR u.obj >>= ·) (funext fun _ => ?_)
  by_cases hfin : finalizerName ∈ u.obj.finalizers
  · have hlen := mt (length_withoutFinalizer u.obj).mp (not_not_intro hfin)
    rw [if_pos hfin, if_pos hlen]
    rfl
  · have hlen := (length_withoutFinalizer u.obj).mpr hfin
    rw [if_neg hfin, if_neg (not_not_intro hlen)]
    rfl

theorem not_mem_withoutFinalizer (u : Multiplicador) :
    finalizerName ∉ (withoutFinalizer u).finalizers := by
  intro h
  simpa using (List.mem_filter.mp h).2

/-- The finalizer goes exactly when its write arrives; the proxies are as the
    others leave them. -/
theorem call_finalizer {u : Versioned Multiplicador} {s : ApiSite}
    (hk : ((s.fates (finalizerOp u.obj) 0).others s.state).crs (crKey u.obj)
      = some u)
    (hfin : finalizerName ∈ u.obj.finalizers) :
    let t := (faultyApi s (finalizerReq u)).1.state
    t.proxies = ((s.fates (finalizerOp u.obj) 0).others s.state).proxies
      ∧ ((∃ v, t.crs (crKey u.obj) = some v
          ∧ finalizerName ∈ v.obj.finalizers)
        ↔ ¬ (s.fates (finalizerOp u.obj) 0).arrives = true) := by
  intro t
  have ht : t = if (s.fates (finalizerOp u.obj) 0).arrives
      then (serve ((s.fates (finalizerOp u.obj) 0).others s.state)
        (finalizerReq u)).1
      else (s.fates (finalizerOp u.obj) 0).others s.state := meet_state_others
  by_cases harr : (s.fates (finalizerOp u.obj) 0).arrives = true
  · rw [if_pos harr, finalizerReq, serve_updateCR] at ht
    rw [ht]
    refine ⟨rfl, iff_of_false ?_ (not_not_intro harr)⟩
    rintro ⟨v, hv, hmem⟩
    have hcr := (content_of_some hv).symm.trans
      (content_writeCR (u := u) hk)
    rw [admitCR] at hcr
    split at hcr
    · exact absurd hcr (by simp)
    · rw [Option.some.inj hcr] at hmem
      exact not_mem_withoutFinalizer u.obj hmem
  · rw [if_neg harr] at ht
    rw [ht]
    exact ⟨rfl, iff_of_true ⟨u, hk, hfin⟩ harr⟩

/-! ## The call -/

section Call

variable {u : Versioned Multiplicador} {s : ApiSite}

theorem cleanup_of_noProxy (h : prevProxy u.obj = "") :
    ((cleanupProxyForCR u.obj).run faultyApi s).1 = s := by
  rw [cleanupProxyForCR, if_pos h]
  rfl

/-- The clean-up leaves the CR and the fate of the write of its finalizer. -/
theorem frame_cleanup (hF : Bystanders u.obj s.fates) :
    let t := ((cleanupProxyForCR u.obj).run faultyApi s).1
    t.state.crs (crKey u.obj) = s.state.crs (crKey u.obj)
      ∧ t.fates (finalizerOp u.obj) = s.fates (finalizerOp u.obj) := by
  by_cases hprev : prevProxy u.obj = ""
  · rw [cleanup_of_noProxy hprev]
    exact ⟨rfl, rfl⟩
  · obtain ⟨-, -, hcrs, hfates⟩ := run_cleanup hF hprev
    exact ⟨hcrs, hfates⟩

theorem clean_of_proxies {w : Multiplicador} {c c' : Cluster}
    (h : c.proxies = c'.proxies) : Clean w c ↔ Clean w c' := by
  rw [Clean, Clean, h]

/-- The proxy comes clean under the condition, whatever `g` the others do
    after the clean-up. -/
theorem clean_cleanup (hF : Bystanders u.obj s.fates)
    (g : Cluster → Cluster) (hg : ∀ c, Clean u.obj c → Clean u.obj (g c))
    (hlast : othersLeave u.obj s = g (othersCleanup u.obj s)) :
    Clean u.obj (g ((cleanupProxyForCR u.obj).run faultyApi s).1.state)
      ↔ ComesClean u.obj s := by
  by_cases hprev : prevProxy u.obj = ""
  · exact iff_of_true (fun h => absurd hprev h)
      (Or.inr fun h => absurd hprev h)
  · obtain ⟨hland, hstay, -⟩ := run_cleanup hF hprev
    by_cases hl : Lands u.obj s
    · exact iff_of_true (hg _ (hland hl)) (Or.inl hl)
    · rw [hstay hl, ← hlast]
      exact (or_iff_right hl).symm

/-- **THE DELETION BRANCH**, whatever its calls do: it always comes back with
    nil; the finalizer goes when its write arrives; the proxy comes clean under
    the condition. -/
theorem run_deleted_faulty (hk : s.state.crs (crKey u.obj) = some u)
    (hF : Bystanders u.obj s.fates) :
    let t := (reconcileDeleted u).run faultyApi s
    t.2 = .nil
      ∧ ((∃ v, t.1.state.crs (crKey u.obj) = some v
          ∧ finalizerName ∈ v.obj.finalizers)
        ↔ ¬ FinalizerGoes u.obj s.fates)
      ∧ (Clean u.obj t.1.state ↔ ComesClean u.obj s) := by
  intro t
  have ht : t = _ := (congrArg (fun p => Prog.run faultyApi p s)
    (reconcileDeleted_eq u)).trans (Prog.run_bind _ _ _ s)
  obtain ⟨hcrs, hfates⟩ := frame_cleanup hF
  have hclean := clean_cleanup hF
  set s₁ := ((cleanupProxyForCR u.obj).run faultyApi s).1 with hs₁
  by_cases hfin : finalizerName ∈ u.obj.finalizers
  · rw [if_pos hfin, Prog.run_call, Prog.run_ret] at ht
    have hk₁ : ((s₁.fates (finalizerOp u.obj) 0).others s₁.state).crs
        (crKey u.obj) = some u := by
      rw [hfates, hF.cr, hcrs, hk]
    obtain ⟨hproxies, hgoes⟩ := call_finalizer hk₁ hfin
    rw [ht]
    refine ⟨rfl, hgoes.trans ?_, (clean_of_proxies hproxies).trans ?_⟩
    · rw [hfates, FinalizerGoes]
      simp [hfin]
    · rw [hfates]
      refine hclean _ (hF.clean _ _) ?_
      rw [othersLeave, if_pos hfin]
  · rw [if_neg hfin, Prog.run_ret] at ht
    rw [ht]
    refine ⟨rfl, iff_of_false ?_ fun h => h fun hmem => absurd hmem hfin, ?_⟩
    · rintro ⟨v, hv, hmem⟩
      obtain rfl := Option.some.inj ((hcrs.trans hk).symm.trans hv)
      exact hfin hmem
    · refine hclean id (fun _ h => h) ?_
      rw [othersLeave, if_neg hfin]
      rfl

/-- **THE FINALIZER**: the finalizer of a CR that is being deleted outlives a
    failed clean-up, which is tried again, exactly when nothing has failed: the
    proxy comes clean and the finalizer goes. -/
theorem outlives_iff_nothingFails
    (hdel : u.obj.deletionTimestamp.isSome = true)
    (hk : s.state.crs (crKey u.obj) = some u)
    (hF : Bystanders u.obj s.fates) :
    Outlives u.obj ((reconcileOne u).run faultyApi s)
      ↔ ComesClean u.obj s ∧ FinalizerGoes u.obj s.fates := by
  rw [reconcileOne_deleted hdel]
  obtain ⟨hnil, hgoes, hclean⟩ := run_deleted_faulty hk hF
  set t := (reconcileDeleted u).run faultyApi s with ht
  constructor
  · rintro ⟨hcleaned, hretried⟩
    have hfin : FinalizerGoes u.obj s.fates := by
      by_contra hno
      obtain ⟨v, hv, hmem⟩ := hgoes.mpr hno
      exact hretried v hv hmem hnil
    refine ⟨hclean.mp (hcleaned fun v hv hmem => ?_), hfin⟩
    exact hgoes.mp ⟨v, hv, hmem⟩ hfin
  · rintro ⟨hcomes, hfin⟩
    refine ⟨fun _ => hclean.mpr hcomes, fun v hv hmem => ?_⟩
    exact absurd hfin (hgoes.mp ⟨v, hv, hmem⟩)

end Call

/-! ## Two CRs that leave one proxy at the same time -/

/-- A CR of the host a.com that is being deleted, with its record. -/
def leaving (name ruta : String) : Versioned Multiplicador :=
  ⟨{ withFinalizer (recorded (newCR name "a.com" ruta)) with
    deletionTimestamp := some "now" }, 1⟩

/-- The proxy that serves the CRs web and shop. -/
def sharedProxy : Fields :=
  (mergeProxy (leaving "shop" "suma").obj
    (newProxy (leaving "web" "calc").obj)).getD []

/-- The CR web and that proxy. -/
def siteLeaving (F : Fates) : ApiSite where
  state := clusterOf [(("default", "web"), leaving "web" "calc")] []
    [(("default", "vhost-a-com"), ⟨sharedProxy, 1⟩)] 1
  fates := F
  done := []

/-- Right before the update of the proxy shop leaves it. -/
def shopFirst : Fates := fun op _ =>
  if op = ⟨.update, .proxy, ("default", "vhost-a-com")⟩ then
    .overtaken (leavesToo "uid-shop" "/suma" ("default", "vhost-a-com"))
  else .served

theorem bystanders_shopFirst :
    Bystanders (leaving "web" "calc").obj shopFirst := by
  intro op n f hf
  rw [shopFirst] at hf
  split at hf
  · rw [← Fate.overtaken.inj hf]
    exact bystander_leavesToo _ _ _ _
  · exact absurd hf (by simp)

/-- Right before the read of the proxy the garbage collector drops the owner
    entry of shop, which is gone. -/
def collectedFirst : Fates := fun op _ =>
  if op = ⟨.get, .proxy, ("default", "vhost-a-com")⟩ then
    .overtaken fun c => collectProxy c ("default", "vhost-a-com")
  else .served

theorem bystanders_collectedFirst :
    Bystanders (leaving "web" "calc").obj collectedFirst := by
  intro op n f hf
  rw [collectedFirst] at hf
  split at hf
  · rw [← Fate.overtaken.inj hf]
    exact bystander_collectProxy _ _
  · exact absurd hf (by simp)

/-- The clean-up reads what the collector has left: the proxy comes clean, and
    the CR goes with its finalizer. -/
theorem outlives_collectedFirst :
    let t := (reconcileOne (leaving "web" "calc")).run faultyApi
      (siteLeaving collectedFirst)
    (readProxy (leaving "web" "calc").obj (siteLeaving collectedFirst)).map
        (fun v => (ownersOf v.obj).length) = some 1
      ∧ Outlives (leaving "web" "calc").obj t
      ∧ t.1.state.crs ("default", "web") = none := by
  refine ⟨by decide, (outlives_iff_nothingFails (by decide) (by decide)
    bystanders_collectedFirst).mpr ⟨Or.inl ?_, fun _ => rfl⟩, by decide⟩
  exact ⟨by decide, _, rfl, by decide, _, rfl, by decide⟩

/-- The refused update is dropped, and the finalizer goes. -/
theorem not_outlives_shopFirst :
    ¬ ∀ (u : Versioned Multiplicador) (s : ApiSite),
      u.obj.deletionTimestamp.isSome = true →
      s.state.crs (crKey u.obj) = some u → Bystanders u.obj s.fates →
      Outlives u.obj ((reconcileOne u).run faultyApi s) := by
  intro h
  obtain ⟨hcleaned, -⟩ := h (leaving "web" "calc") (siteLeaving shopFirst)
    (by decide) (by decide) bystanders_shopFirst
  have hgone : ((reconcileOne (leaving "web" "calc")).run faultyApi
      (siteLeaving shopFirst)).1.state.crs ("default", "web") = none := by
    decide
  have hclean := hcleaned fun v hv => absurd (hgone.symm.trans hv) (by simp)
  have howned : (content ((reconcileOne (leaving "web" "calc")).run faultyApi
      (siteLeaving shopFirst)).1.state.proxies ("default", "vhost-a-com")).map
      (fun o => (ownersOf o).any (ownedBy "uid-web")) = some true := by
    decide
  obtain ⟨o, ho, hany⟩ := Option.map_eq_some_iff.mp howned
  obtain ⟨e, he, hmine⟩ := List.any_eq_true.mp hany
  have hnot : ownedBy "uid-web" e = false :=
    (hclean (by decide) o ho).owners e he
  exact absurd (hmine.symm.trans hnot) (by simp)

end FinalizerCleanup
