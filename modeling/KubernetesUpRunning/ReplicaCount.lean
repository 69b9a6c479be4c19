import KubernetesUpRunning.ClusterRuns
import KubernetesUpRunning.FaultyBranches

/-! # The number of replicas

    The spec of a CR gives its replicas as an `int64`, a Deployment holds an
    `int32`, and the status reports what the Deployment was given.  This file
    follows the number through a reconcile: every Deployment that is written
    and every status that is stored has the narrowed one, so nothing is
    altered exactly when the number fits. -/

namespace ReplicaCount

open ApiServer CallProgram ClusterRuns FaultyBranches FaultyReconcile
open FaultyServer GoJson KubeObjects Reconcile ReconcileEffect ReconcileRun
open VersionedStore

/-- `math.MaxInt32`. -/
def maxInt32 : Int := 2147483647

/-- What the status of a CR says of its replicas. -/
def statusReplicas (u : Multiplicador) : Option Json :=
  (asMap u.status).bind (List.lookup "replicas")

/-- The status of a CR says ready=true. -/
def SaysReady (u : Multiplicador) : Prop :=
  (asMap u.status).bind (List.lookup "ready") = some (.bool true)

/-- The call creates or updates a Deployment, or stores a ready status. -/
def Writes : Req → Prop
  | .createDeployment _ _ => True
  | .updateDeployment _ _ => True
  | .updateStatusCR _ w => SaysReady w.obj
  | _ => False

/-- The Deployment at `k` asks for `x` replicas. -/
def ReplicasAt (k : Key) (x : Int) (c : Cluster) : Prop :=
  (content c.deployments k).bind Deployment.replicas = some x

/-- The Deployment of the CR has the replicas `r`, and so has every status that
    was stored and speaks of them. -/
structure Exact (u : Multiplicador) (r : Int) (t : ApiSite) : Prop where
  deployment : ReplicasAt (deplKey u) r t.state
  status : ∀ k w, .updateStatusCR k w ∈ t.done →
    ∀ j, statusReplicas w.obj = some j → j = .int r

/-- The replicas `r` have not been altered silently: they are what was written,
    or nothing was. -/
def Unaltered (u : Multiplicador) (r : Int) (t : ApiSite) : Prop :=
  Exact u r t ∨ ∀ q ∈ t.done, ¬ Writes q

/-! ## Narrowing -/

/-- A number of replicas survives the narrowing exactly when it fits. -/
theorem int32OfInt64_eq_self_iff {r : Int} (h : 0 ≤ r) :
    int32OfInt64 r = r ↔ r ≤ maxInt32 := by
  have hdef : int32OfInt64 r = if r % 4294967296 < 2147483648
      then r % 4294967296 else r % 4294967296 - 4294967296 := rfl
  rw [hdef, maxInt32]
  split <;> omega

/-! ## What a reconcile knows of the replicas -/

/-- The calls of a reconcile that gives a Deployment at `k` the replicas `x`
    and reports the status `j`.  It stores the status only when it knows that
    the Deployment has them, from a read or from a write. -/
def counting (k : Key) (x : Int) (j : Json) : Contract Req Resp Bool where
  allowed b r :=
    match r with
    | .createDeployment k' d => k' = k ∧ d.replicas = some x
    | .updateDeployment k' d => k' = k ∧ d.obj.replicas = some x
    | .updateStatusCR _ w => b = true ∧ w.obj.status = some j
    | _ => True
  answers _ _ _ := True
  next b r a :=
    match r, a with
    | .getDeployment k', .ok d =>
        b || decide (k' = k ∧ d.obj.replicas = some x)
    | .createDeployment _ _, .ok _ => true
    | .updateDeployment _ _, .ok _ => true
    | _, _ => b

/-- The knowledge is true; what has been written has the replicas, and every
    stored status is the one to be reported. -/
structure Known (k : Key) (x : Int) (j : Json) (s : ApiSite) (b : Bool) :
    Prop where
  alone : Alone s.fates
  known : b = true → ReplicasAt k x s.state
  written : (∃ q ∈ s.done, Writes q) → ReplicasAt k x s.state
  status : ∀ k' w, .updateStatusCR k' w ∈ s.done → w.obj.status = some j

/-- The write of a Deployment at `k` with `x` replicas. -/
def Gives (k : Key) (x : Int) (r : Req) : Prop :=
  (∃ d, r = .createDeployment k d ∧ d.replicas = some x)
    ∨ ∃ d, r = .updateDeployment k d ∧ d.obj.replicas = some x

/-- Such a write is refused or leaves these replicas. -/
theorem serve_gives {k : Key} {x : Int} {r : Req} (h : Gives k x r)
    (c : Cluster) :
    ((serve c r).1 = c ∧ (serve c r).2.isOk = false)
      ∨ ReplicasAt k x (serve c r).1 := by
  rcases h with ⟨d, rfl, hd⟩ | ⟨d, rfl, hd⟩
  · cases hst : c.deployments k with
    | none =>
        refine .inr ?_
        rw [serve_createDeployment hst, ReplicasAt]
        simpa using hd
    | some v =>
        rw [serve_createDeployment_taken hst]
        exact .inl ⟨rfl, rfl⟩
  · cases hst : c.deployments k with
    | none =>
        refine .inl ?_
        simp [serve, update, hst, wrote, Except.isOk, Except.toBool]
    | some v =>
        obtain ⟨d, n⟩ := d
        by_cases hv : v.version = n
        · refine .inr ?_
          rw [← hv, serve_updateDeployment hst, ReplicasAt]
          simpa using hd
        · refine .inl ?_
          simp [serve, update, hst, hv, wrote, Except.isOk, Except.toBool]

/-- A call that is carried out arrives and is accepted. -/
theorem carriesOut_iff {s : ApiSite} (ha : Alone s.fates) {r : Req} :
    carriesOut serve s.state r (s.fates (opOf r) 0) = true
      ↔ (s.fates (opOf r) 0).arrives = true
        ∧ (serve s.state r).2.isOk = true := by
  rw [carriesOut, others_of_alone (ha _ _), Bool.and_eq_true]

section Step

variable {k : Key} {x : Int} {j : Json} {s : ApiSite} {b : Bool}

/-- The write of a Deployment. -/
theorem Known.gives (h : Known k x j s b) {r : Req} (hr : Gives k x r) :
    Known k x j (faultyApi s r).1 ((counting k x j).next b r
      (faultyApi s r).2) := by
  have hkeep : ReplicasAt k x s.state →
      ReplicasAt k x (faultyApi s r).1.state := by
    intro hs
    rw [call_state h.alone]
    split
    · rcases serve_gives hr s.state with ⟨hc, -⟩ | hc
      · rw [hc]
        exact hs
      · exact hc
    · exact hs
  have hdone : carriesOut serve s.state r (s.fates (opOf r) 0) = true →
      ReplicasAt k x (faultyApi s r).1.state := by
    intro hc
    obtain ⟨harr, hok⟩ := (carriesOut_iff h.alone).mp hc
    rw [call_state h.alone, if_pos harr]
    exact (serve_gives hr s.state).resolve_left
      fun hno => absurd (hno.2.symm.trans hok) (by simp)
  have hok : ∀ a, (faultyApi s r).2 = .ok a →
      ReplicasAt k x (faultyApi s r).1.state := by
    intro a ha
    obtain ⟨hans, hserve⟩ := (call_ok_iff h.alone).mp ha
    refine hdone ((carriesOut_iff h.alone).mpr
      ⟨Fate.arrives_of_answered hans, ?_⟩)
    rw [hserve]
    rfl
  refine ⟨h.alone.faulty r, ?_, ?_, ?_⟩
  · intro hb
    cases ha : (faultyApi s r).2 with
    | ok a => exact hok a ha
    | error e =>
        rw [ha] at hb
        rcases hr with ⟨d, rfl, -⟩ | ⟨d, rfl, -⟩
        · exact hkeep (h.known hb)
        · exact hkeep (h.known hb)
  · rintro ⟨q, hq, hw⟩
    rcases mem_done_faulty.mp hq with ⟨rfl, hc⟩ | hq
    · exact hdone hc
    · exact hkeep (h.written ⟨q, hq, hw⟩)
  · intro k' w hq
    rcases mem_done_faulty.mp hq with ⟨rfl, -⟩ | hq
    · rcases hr with ⟨d, he, -⟩ | ⟨d, he, -⟩
      · exact absurd he (by simp)
      · exact absurd he (by simp)
    · exact h.status k' w hq

/-- A call that writes no Deployment. -/
theorem Known.other (h : Known k x j s b) {r : Req} {b' : Bool}
    (hsame : (faultyApi s r).1.state.deployments = s.state.deployments)
    (hb : b' = true → ReplicasAt k x s.state)
    (hw : Writes r → b = true)
    (hst : ∀ k' w, r = .updateStatusCR k' w → w.obj.status = some j) :
    Known k x j (faultyApi s r).1 b' := by
  have hkeep : ReplicasAt k x s.state →
      ReplicasAt k x (faultyApi s r).1.state := by
    intro hs
    rw [ReplicasAt, hsame]
    exact hs
  refine ⟨h.alone.faulty r, fun hb' => hkeep (hb hb'), ?_, ?_⟩
  · rintro ⟨q, hq, hwq⟩
    rcases mem_done_faulty.mp hq with ⟨rfl, -⟩ | hq
    · exact hkeep (h.known (hw hwq))
    · exact hkeep (h.written ⟨q, hq, hwq⟩)
  · intro k' w hq
    rcases mem_done_faulty.mp hq with ⟨he, -⟩ | hq
    · exact hst k' w he.symm
    · exact h.status k' w hq

/-- Calls about other objects leave the Deployments. -/
theorem deployments_of_kind (ha : Alone s.fates) {r : Req}
    (hr : (opOf r).kind ≠ .deployment) :
    (faultyApi s r).1.state.deployments = s.state.deployments := by
  have hcall := SameBut.call (A := fun K _ => K ≠ .deployment)
    (SameBut.refl ha) hr
  exact funext fun k => hcall.deployments k (by simp)

/-- **ONE CALL** keeps the knowledge true. -/
theorem Known.step (h : Known k x j s b) {r : Req}
    (hr : (counting k x j).allowed b r) :
    Known k x j (faultyApi s r).1
      ((counting k x j).next b r (faultyApi s r).2) := by
  cases r with
  | createDeployment k' d =>
      obtain ⟨rfl, hd⟩ := hr
      exact h.gives (.inl ⟨d, rfl, hd⟩)
  | updateDeployment k' d =>
      obtain ⟨rfl, hd⟩ := hr
      exact h.gives (.inr ⟨d, rfl, hd⟩)
  | updateStatusCR k' w =>
      obtain ⟨hb, hw⟩ := hr
      refine h.other (deployments_of_kind h.alone (by simp [opOf]))
        (fun _ => h.known hb) (fun _ => hb) ?_
      rintro k'' w' he
      obtain ⟨-, rfl⟩ := Req.updateStatusCR.inj he
      exact hw
  | getDeployment k' =>
      have hsame : (faultyApi s (.getDeployment k')).1.state = s.state := by
        rw [call_state h.alone]
        exact ite_self _
      refine h.other (congrArg Cluster.deployments hsame) ?_
        (fun hw => hw.elim) (fun _ _ he => absurd he (by simp))
      intro hb
      cases ha : (faultyApi s (.getDeployment k')).2 with
      | error e =>
          rw [ha] at hb
          exact h.known hb
      | ok v =>
          rw [ha] at hb
          rcases Bool.or_eq_true _ _ |>.mp hb with hb | hb
          · exact h.known hb
          · obtain ⟨rfl, hx⟩ := of_decide_eq_true hb
            rw [ReplicasAt, content_of_some (getDeployment_ok h.alone ha)]
            exact hx
  | getCR k' | updateCR k' w | getService k' | createService k' d
  | updateService k' d | getProxy k' | createProxy k' o | updateProxy k' o
  | deleteProxy k' =>
      exact h.other (deployments_of_kind h.alone (by simp [opOf]))
        h.known (fun hw => hw.elim) (fun _ _ he => absurd he (by simp))

end Step

/-! ## The program -/

section Program

variable {k : Key} {x : Int} {j : Json}

/-- A part that writes no Deployment and no status keeps what is known. -/
theorem obeys_of_ensuring {α : Type} {Q : α → Prop} {p : Api α}
    (h : Obeys (asking Ensuring) p () fun _ a => Q a) (b : Bool) :
    Obeys (counting k x j) p b fun b' a => b' = b ∧ Q a := by
  induction p with
  | ret a => exact ⟨rfl, h⟩
  | call r f ih =>
      obtain ⟨⟨hkind, hverb⟩, hk⟩ := h
      refine ⟨?_, fun a _ => ?_⟩
      · cases r <;> trivial
      · have hb : (counting k x j).next b r a = b := by
          cases r <;> first
            | rfl
            | exact absurd rfl hkind
        rw [hb]
        exact ih a (hk a trivial)

/-- The status of the CR is written when the replicas are known. -/
theorem obeys_writeStatus {u : Versioned Multiplicador}
    (hj : u.obj.status = some j) :
    Obeys (counting k x j) (writeStatus u) true fun _ _ => True := by
  rw [writeStatus, ask]
  refine ⟨⟨rfl, hj⟩, fun a _ => ?_⟩
  cases a with
  | ok a => trivial
  | error e => exact ⟨trivial, fun _ _ => trivial⟩

/-- The create branch. -/
theorem obeys_create {w : Versioned Multiplicador} (hk : deplKey w.obj = k)
    (hx : w.obj.replicas = x) (hj : readyStatus w.obj = j) (b : Bool) :
    Obeys (counting k x j) (reconcileCreate w) b fun _ _ => True := by
  rw [reconcileCreate_eq]
  refine ⟨⟨hk, congrArg some hx⟩, fun a _ => ?_⟩
  cases a with
  | error e => trivial
  | ok a =>
      -- what follows knows that the Deployment has been created
      refine Obeys.seq (M := fun _ _ => True)
        (obeys_writeStatus (congrArg some hj)) fun b' _ _ => ?_
      refine Obeys.seq (obeys_of_ensuring
        (obeys_ensureServiceAndProxy ⟨withReady w.obj, w.version⟩) b') ?_
      exact fun _ _ _ => trivial

/-- The repair branch, from a true read. -/
theorem obeys_repair {u : Versioned Multiplicador} {v : Versioned Deployment}
    (hk : deplKey u.obj = k) (hx : u.obj.replicas = x)
    (hj : readyStatus u.obj = j) {b : Bool}
    (hb : v.obj.replicas = some x → b = true) :
    Obeys (counting k x j) (reconcileRepair u v) b fun _ _ => True := by
  rw [reconcileRepair_eq]
  have hrest : Obeys (counting k x j) (repairRest u) true
      fun _ _ => True := by
    refine Obeys.seq (obeys_of_ensuring (obeys_ensureServiceAndProxy u) true) ?_
    rintro b' r ⟨rfl, hr⟩
    split
    · refine Obeys.seq (M := fun _ _ => True) (obeys_writeStatus ?_)
        fun _ _ _ => trivial
      rw [← hj]
      exact congrArg some hr.readyStatus
    · trivial
  rw [updateDeployment_eq]
  split
  · rename_i hfix
    have hv : v.obj.replicas = some x := by
      rw [← hfix, ← hx]
      rfl
    rw [hb hv, Prog.ret_bind, if_pos rfl]
    exact hrest
  · refine ⟨⟨hk, congrArg some hx⟩, fun a _ => ?_⟩
    cases a with
    | error e => trivial
    | ok a => exact hrest

/-- The valid branch. -/
theorem obeys_valid (u : Versioned Multiplicador) (b : Bool) :
    Obeys (counting (deplKey u.obj) u.obj.replicas (readyStatus u.obj))
      (reconcileValid u) b fun _ _ => True := by
  have hreads := sameReads_annotated u.obj
  have hk := deplKey_congr hreads
  have hx := hreads.replicas
  have hj : readyStatus (annotated u.obj) = readyStatus u.obj := by
    rw [readyStatus, readyStatus, hreads.replicas, hreads.multiplicador]
  refine ⟨trivial, fun _ _ => ⟨trivial, fun a _ => ?_⟩⟩
  cases a with
  | error e =>
      exact obeys_create (w := ⟨annotated u.obj, u.version⟩) hk hx hj _
  | ok v =>
      refine obeys_repair (u := ⟨annotated u.obj, u.version⟩) hk hx hj ?_
      intro hv
      refine (Bool.or_eq_true _ _).mpr (.inr (decide_eq_true ⟨?_, hv⟩))
      exact hk

end Program

/-- **WHATEVER THE CALLS DO**, a reconcile that has written anything has left
    the Deployment with the replicas in force, and stored no other status than
    one with them. -/
theorem known_reconcileOne {u : Versioned Multiplicador} {s : ApiSite}
    (hlive : u.obj.deletionTimestamp = none)
    (hpos : 0 < u.obj.multiplicador) (ha : Alone s.fates)
    (hdone : s.done = []) :
    ∃ b, Known (deplKey u.obj) u.obj.replicas (readyStatus u.obj)
      ((reconcileOne u).run faultyApi s).1 b := by
  rw [reconcileOne_valid hlive hpos]
  have hstart : Known (deplKey u.obj) u.obj.replicas (readyStatus u.obj) s
      false := by
    refine ⟨ha, fun h => absurd h (by simp), ?_, ?_⟩
    · rintro ⟨q, hq, -⟩
      rw [hdone] at hq
      exact absurd hq (by simp)
    · intro k w hq
      rw [hdone] at hq
      exact absurd hq (by simp)
  obtain ⟨b, hb, -⟩ := run_of_obeys
    (fun _ _ _ h hr => ⟨trivial, h.step hr⟩) hstart (obeys_valid u false)
  exact ⟨b, hb⟩

/-- **THE REPLICAS** are unaltered exactly when narrowing keeps them or nothing
    has been written, whatever the calls do. -/
theorem unaltered_iff_written {u : Versioned Multiplicador} {s : ApiSite}
    (hlive : u.obj.deletionTimestamp = none)
    (hpos : 0 < u.obj.multiplicador) (ha : Alone s.fates)
    (hdone : s.done = []) (r : Int) :
    Unaltered u.obj r ((reconcileOne u).run faultyApi s).1
      ↔ u.obj.replicas = r
        ∨ ∀ q ∈ ((reconcileOne u).run faultyApi s).1.done, ¬ Writes q := by
  obtain ⟨b, hb⟩ := known_reconcileOne hlive hpos ha hdone
  have hj : ∀ k w,
      .updateStatusCR k w ∈ ((reconcileOne u).run faultyApi s).1.done →
      statusReplicas w.obj = some (.int u.obj.replicas) := by
    intro k w hq
    rw [statusReplicas, hb.status k w hq]
    rfl
  by_cases hw : ∃ q ∈ ((reconcileOne u).run faultyApi s).1.done, Writes q
  · have hat := hb.written hw
    obtain ⟨q, hq, hwq⟩ := hw
    constructor
    · rintro (he | hno)
      · exact .inl (Option.some.inj (hat.symm.trans he.deployment))
      · exact absurd hwq (hno q hq)
    · rintro (rfl | hno)
      · refine .inl ⟨hat, fun k w hm j hjw => ?_⟩
        exact Option.some.inj (hjw.symm.trans (hj k w hm))
      · exact absurd hwq (hno q hq)
  · have hno : ∀ q ∈ ((reconcileOne u).run faultyApi s).1.done, ¬ Writes q :=
      fun q hq hwq => hw ⟨q, hq, hwq⟩
    exact ⟨fun _ => .inr hno, fun _ => .inr hno⟩

/-! ## Reconciles in which every call is accepted -/

/-- Every call of the run that writes is answered with nil. -/
def accepted {α : Type} : Api α → ApiSite → Bool
  | .ret _, _ => true
  | .call r f, s =>
      (decide ((opOf r).verb = .get) || (faultyApi s r).2.isOk)
        && accepted (f (faultyApi s r).2) (faultyApi s r).1

/-- The reconcile is a valid CR's with a mended Deployment and panics in the
    merge: it writes neither the Deployment nor the status. -/
def Stuck (u : Multiplicador) (c : Cluster) : Prop :=
  (∃ d, content c.deployments (deplKey u) = some d
      ∧ repairDeployment u d = d)
    ∧ panics u (content c.proxies) = true

section Accepted

variable {α β : Type}

theorem accepted_bind (p : Api α) (f : α → Api β) :
    ∀ s, accepted (p >>= f) s
      = (accepted p s
        && accepted (f (p.run faultyApi s).2) (p.run faultyApi s).1) := by
  induction p with
  | ret a => exact fun _ => rfl
  | call r g ih =>
      intro s
      show (_ && accepted (g _ >>= f) _) = ((_ && _) && _)
      rw [ih, Bool.and_assoc]
      rfl

/-- A call without a fault is answered as the server answers it. -/
theorem call_fair {s : ApiSite} (h : s.fates = fair) (r : Req) :
    (faultyApi s r).1.state = (serve s.state r).1
      ∧ (faultyApi s r).2 = (serve s.state r).2
      ∧ (faultyApi s r).1.fates = fair := by
  obtain ⟨c, F, dn⟩ := s
  obtain rfl : F = fair := h
  exact ⟨rfl, rfl, Function.update_eq_self _ _⟩

/-- A run without faults is the run against the server. -/
theorem run_fair (p : Api α) : ∀ {s : ApiSite}, s.fates = fair →
    (p.run faultyApi s).1.state = (p.run serve s.state).1
      ∧ (p.run faultyApi s).2 = (p.run serve s.state).2
      ∧ (p.run faultyApi s).1.fates = fair := by
  induction p with
  | ret a => exact fun h => ⟨rfl, rfl, h⟩
  | call r f ih =>
      intro s h
      obtain ⟨h₁, h₂, h₃⟩ := call_fair h r
      rw [Prog.run_call, Prog.run_call, ← h₁, ← h₂]
      exact ih _ h₃

/-- What was carried out stays on record. -/
theorem mem_done_run (p : Api α) {s : ApiSite} {q : Req} (h : q ∈ s.done) :
    q ∈ (p.run faultyApi s).1.done :=
  Prog.run_keeps faultyApi (I := fun s => q ∈ s.done)
    (fun _ _ hq => mem_done_faulty.mpr (.inr hq)) p s h

/-- An accepted write is on record when the run is over. -/
theorem mem_done_of_accepted {r : Req} {f : Resp r → Api α} {s : ApiSite}
    (hf : s.fates = fair) (hr : (opOf r).verb ≠ .get)
    (h : accepted (.call r f) s = true) :
    r ∈ ((Prog.call r f).run faultyApi s).1.done := by
  have ha : Alone s.fates := hf ▸ alone_fair
  have hok : (faultyApi s r).2.isOk = true := by
    simp only [accepted, Bool.and_eq_true, Bool.or_eq_true,
      decide_eq_true_eq] at h
    exact h.1.resolve_left hr
  rw [call_isOk ha, Bool.and_eq_true] at hok
  rw [Prog.run_call]
  exact mem_done_run _ (mem_done_faulty.mpr (.inl ⟨rfl,
    (carriesOut_iff ha).mpr ⟨Fate.arrives_of_answered hok.1, hok.2⟩⟩))

end Accepted

/-- No Deployment and no ready status has been written. -/
def Nothing (s : ApiSite) : Prop := ∀ q ∈ s.done, ¬ Writes q

/-- `ensureServiceAndProxy` writes neither. -/
theorem nothing_ensure (u : Versioned Multiplicador) {s : ApiSite}
    (h : Nothing s) : Nothing ((ensureServiceAndProxy u).run faultyApi s).1 :=
  (run_of_asking faultyApi (I := Nothing) (fun x r hr hx q hq => by
      rcases mem_done_faulty.mp hq with ⟨rfl, -⟩ | hq
      · obtain ⟨hkind, hverb⟩ := hr
        cases q <;> first
          | exact fun hw => hw.elim
          | exact absurd rfl hkind
          | exact absurd rfl hverb
      · exact hx q hq) (obeys_ensureServiceAndProxy u) h).1

section Branches

variable {u : Versioned Multiplicador} {s : ApiSite}

/-- The create branch, accepted, writes. -/
theorem written_create (hf : s.fates = fair)
    (h : accepted (reconcileCreate u) s = true) :
    ∃ q ∈ ((reconcileCreate u).run faultyApi s).1.done, Writes q := by
  rw [reconcileCreate_eq] at h ⊢
  exact ⟨_, mem_done_of_accepted hf (by simp [opOf]) h, trivial⟩

/-- What `ensureServiceAndProxy` comes back with when no call fails. -/
theorem ensure_outcome (hf : s.fates = fair) :
    ((ensureServiceAndProxy u).run faultyApi s).2.1
      = if panics u.obj (content s.state.proxies) then .panic else .nil := by
  rw [(run_fair (ensureServiceAndProxy u) hf).2.1, run_ensureServiceAndProxy]
  exact ensureState_outcome

/-- The repair branch, accepted, writes unless it is stuck. -/
theorem nothing_repair_iff (hf : s.fates = fair) (hno : Nothing s)
    {v : Versioned Deployment} (h : accepted (reconcileRepair u v) s = true) :
    Nothing ((reconcileRepair u v).run faultyApi s).1
      ↔ repairDeployment u.obj v.obj = v.obj
        ∧ panics u.obj (content s.state.proxies) = true := by
  rw [reconcileRepair_eq, updateDeployment_eq] at h ⊢
  by_cases hfix : repairDeployment u.obj v.obj = v.obj
  · rw [if_pos hfix, Prog.ret_bind, if_pos rfl, repairRest] at h ⊢
    rw [accepted_bind, Bool.and_eq_true] at h
    rw [Prog.run_bind]
    have hout := ensure_outcome (u := u) hf
    have hfair := (run_fair (ensureServiceAndProxy u) hf).2.2
    have hkeep := nothing_ensure u hno
    replace h := h.2
    by_cases hp : panics u.obj (content s.state.proxies) = true
    · rw [if_pos hp] at hout
      rw [hout, if_neg (by simp)]
      exact ⟨fun _ => ⟨hfix, hp⟩, fun _ => hkeep⟩
    · rw [if_neg hp] at hout
      rw [hout, if_pos rfl] at h ⊢
      -- the status that comes last is accepted
      refine ⟨fun hnot => absurd ?_ (hnot _
        (mem_done_of_accepted hfair (by simp [opOf]) h)), fun hs =>
        absurd hs.2 hp⟩
      rfl
  · rw [if_neg hfix] at h ⊢
    refine ⟨fun hnot => absurd trivial (hnot _
      (mem_done_of_accepted hf (by simp [opOf]) h)), fun hs =>
      absurd hs.1 hfix⟩

end Branches

/-- What a valid reconcile does after it has read the Deployment. -/
def afterRead (u : Versioned Multiplicador) :
    Option (Versioned Deployment) → Api Outcome
  | none => reconcileCreate u
  | some v => reconcileRepair u v

theorem reconcileValid_eq (u : Versioned Multiplicador) :
    reconcileValid u
      = .call (.updateCR (nsOf u.obj, u.obj.name)
          ⟨annotated u.obj, u.version⟩) fun _ =>
        .call (.getDeployment (deplKey u.obj)) fun x =>
          afterRead ⟨annotated u.obj, u.version⟩ x.toOption := by
  refine congrArg (Prog.call _) (funext fun _ =>
    congrArg (Prog.call _) (funext fun x => ?_))
  cases x <;> rfl

theorem toOption_got {α : Type} (o : Option (Versioned α)) :
    (got o).toOption = o := by
  cases o <;> rfl

/-- The annotations and the read of the Deployment, when no call fails: the
    reconcile goes on where they leave the site. -/
theorem valid_goesOn (u : Versioned Multiplicador) {s : ApiSite}
    (hf : s.fates = fair) (hno : Nothing s) :
    ∃ s', s'.fates = fair ∧ Nothing s'
      ∧ s'.state.proxies = s.state.proxies
      ∧ (reconcileValid u).run faultyApi s
        = (afterRead ⟨annotated u.obj, u.version⟩
          (s.state.deployments (deplKey u.obj))).run faultyApi s'
      ∧ (accepted (reconcileValid u) s = true →
        accepted (afterRead ⟨annotated u.obj, u.version⟩
          (s.state.deployments (deplKey u.obj))) s' = true) := by
  set r : Req := .updateCR (nsOf u.obj, u.obj.name)
    ⟨annotated u.obj, u.version⟩ with hr
  set g : Req := .getDeployment (deplKey u.obj) with hg
  set s₁ := (faultyApi s r).1 with hs₁
  set s₂ := (faultyApi s₁ g).1 with hs₂
  have ha : Alone s.fates := hf ▸ alone_fair
  have hf₁ : s₁.fates = fair := (call_fair hf r).2.2
  have hsame : SameBut Opening s s₂ :=
    ((SameBut.refl ha).call (Or.inl rfl)).call (Or.inr rfl)
  have hdepl : s₁.state.deployments = s.state.deployments :=
    deployments_of_kind ha (by simp [hr, opOf])
  have hans : (faultyApi s₁ g).2
      = got (s.state.deployments (deplKey u.obj)) := by
    rw [(call_fair hf₁ g).2.1, ← hdepl]
    rfl
  refine ⟨s₂, (call_fair hf₁ g).2.2, ?_,
    funext fun k => hsame.proxies k (by simp [Opening]), ?_, fun h => ?_⟩
  · intro q hq
    rcases mem_done_faulty.mp hq with ⟨rfl, -⟩ | hq
    · exact fun hw => hw.elim
    rcases mem_done_faulty.mp hq with ⟨rfl, -⟩ | hq
    · exact fun hw => hw.elim
    · exact hno q hq
  · rw [← toOption_got (s.state.deployments (deplKey u.obj)), ← hans,
      reconcileValid_eq]
    rfl
  · rw [← toOption_got (s.state.deployments (deplKey u.obj)), ← hans]
    rw [reconcileValid_eq] at h
    exact (Bool.and_eq_true _ _ |>.mp (Bool.and_eq_true _ _ |>.mp h).2).2

/-- **NOTHING IS WRITTEN** by an accepted reconcile of a valid CR exactly when
    it is stuck. -/
theorem nothing_iff_stuck {u : Versioned Multiplicador} {s : ApiSite}
    (hlive : u.obj.deletionTimestamp = none)
    (hpos : 0 < u.obj.multiplicador) (hf : s.fates = fair)
    (hdone : s.done = []) (h : accepted (reconcileOne u) s = true) :
    Nothing ((reconcileOne u).run faultyApi s).1 ↔ Stuck u.obj s.state := by
  have hreads := sameReads_annotated u.obj
  have hno : Nothing s := by
    intro q hq
    rw [hdone] at hq
    exact absurd hq (by simp)
  rw [reconcileOne_valid hlive hpos] at h ⊢
  obtain ⟨s', hf', hno', hprox, hrun, hacc⟩ := valid_goesOn u hf hno
  replace hacc := hacc h
  rw [hrun]
  cases hst : s.state.deployments (deplKey u.obj) with
  | none =>
      rw [hst] at hacc
      obtain ⟨q, hq, hw⟩ := written_create hf' hacc
      refine iff_of_false (fun hnot => hnot q hq hw) ?_
      rintro ⟨⟨d, hd, -⟩, -⟩
      rw [content_of_none hst] at hd
      exact absurd hd (by simp)
  | some v =>
      rw [hst] at hacc
      have hrep : repairDeployment (annotated u.obj) v.obj
          = repairDeployment u.obj v.obj := hreads.deploymentAfter (some v.obj)
      refine (nothing_repair_iff hf' hno' hacc).trans ?_
      rw [hprox, panics_congr hreads, hrep, Stuck, content_of_some hst]
      constructor
      · exact fun hs => ⟨⟨v.obj, rfl, hs.1⟩, hs.2⟩
      · rintro ⟨⟨d, hd, hfix⟩, hp⟩
        rw [Option.some.inj hd]
        exact ⟨hfix, hp⟩

/-- **THE REPLICA COUNT**: an accepted reconcile of a live, valid CR leaves
    the replicas of the spec unaltered exactly when they fit into 32 bits, or
    it is stuck and writes nothing. -/
theorem unaltered_iff_fits {u : Versioned Multiplicador} {s : ApiSite}
    {spec : Fields} {r : Int}
    (hlive : u.obj.deletionTimestamp = none)
    (hpos : 0 < u.obj.multiplicador) (hspec : u.obj.spec = some (.obj spec))
    (hr : spec.lookup "replicas" = some (.int r)) (h0 : 0 ≤ r)
    (_ : r ≤ maxInt64) (hf : s.fates = fair) (hdone : s.done = [])
    (h : accepted (reconcileOne u) s = true) :
    Unaltered u.obj r ((reconcileOne u).run faultyApi s).1
      ↔ r ≤ maxInt32 ∨ Stuck u.obj s.state := by
  have hget : getIntField u.obj "replicas" = some r := by
    rw [getIntField, hspec, asMap_obj, Option.bind_some, hr]
  have hx : u.obj.replicas = int32OfInt64 r := by
    rw [Multiplicador.replicas, hget]
  rw [unaltered_iff_written hlive hpos (hf ▸ alone_fair) hdone r, hx,
    int32OfInt64_eq_self_iff h0]
  exact or_congr Iff.rfl (nothing_iff_stuck hlive hpos hf hdone h)

/-! ## A number that does not fit -/

/-- A live CR that carries its annotations and asks for `r` replicas. -/
def crAsking (r : Int) : Versioned Multiplicador :=
  ⟨annotated { newCR "web" "" "" with
    spec := some (.obj [("replicas", .int r), ("multiplicador", .int 3)]) }, 1⟩

/-- That CR without a Deployment, and no call fails. -/
def siteAsking (r : Int) : ApiSite where
  state := clusterOf [(("default", "web"), crAsking r)] [] [] 1
  fates := fair
  done := []

/-- 2^32 + 1 replicas become one, and the status confirms it. -/
theorem not_unaltered_4294967297 :
    ¬ ∀ (u : Versioned Multiplicador) (s : ApiSite) (spec : Fields) (r : Int),
      u.obj.deletionTimestamp = none → 0 < u.obj.multiplicador →
      u.obj.spec = some (.obj spec) →
      spec.lookup "replicas" = some (.int r) → 0 ≤ r → r ≤ maxInt64 →
      s.fates = fair → s.done = [] → accepted (reconcileOne u) s = true →
      Unaltered u.obj r ((reconcileOne u).run faultyApi s).1 := by
  intro h
  have hall := h (crAsking 4294967297) (siteAsking 4294967297) _ 4294967297 rfl
    (by decide) rfl rfl (by decide) (by decide) rfl rfl (by decide)
  have hone : (content ((reconcileOne (crAsking 4294967297)).run faultyApi
      (siteAsking 4294967297)).1.state.deployments
      (deplKey (crAsking 4294967297).obj)).bind Deployment.replicas
      = some 1 := by decide
  rcases hall with he | hno
  · exact absurd (hone.symm.trans he.deployment) (by decide)
  · refine hno (.updateStatusCR ("default", "web")
      ⟨withReady (crAsking 4294967297).obj, 1⟩) ?_ rfl
    exact .tail _ (.head _)

theorem unaltered_3 :
    Unaltered (crAsking 3).obj 3
      ((reconcileOne (crAsking 3)).run faultyApi (siteAsking 3)).1 :=
  (unaltered_iff_fits rfl (by decide) rfl rfl (by decide) (by decide) rfl rfl
    (by decide)).mpr (.inl (by decide))

end ReplicaCount
