import KubernetesUpRunning.ReconcileEffect
import KubernetesUpRunning.ServerSteps

/-! # What a reconcile may ask the server

    One contract says all a worker does with a key, call by call: it reads the
    CR once, every CR write carries the version of that read and keeps the part
    of the CR that belongs to its users, and every HTTPProxy write is computed
    from the HTTPProxy it has just read.  `obeys_reconcileKey` walks through
    the program once; what holds of runs, alone or in a pool, is derived from
    the contract and never from the program again. -/

namespace Conduct

open AssocMap ApiServer CallProgram GoJson KubeObjects Reconcile ReconcileRun
open ReconcileEffect ServerSteps VersionedStore

/-! ## The users' part of a CR -/

/-- What users write into a CR: the spec, the foreign annotations and the
    foreign finalizers. -/
structure UserPart where
  spec : Option Json
  annotations : Annotations
  finalizers : List String
  deriving DecidableEq

/-- The users' part of a CR. -/
def userPart (u : Multiplicador) : UserPart where
  spec := u.spec
  annotations := u.ann.filter fun e => decide (e.1 ∉ operatorKeys)
  finalizers := u.finalizers.filter fun f => decide (f ≠ finalizerName)

/-- Writing an operator's annotation keeps the foreign ones. -/
theorem filter_setKey {k : String} (hk : k ∈ operatorKeys) (v : String) :
    ∀ m : Annotations,
      (setKey k v m).filter (fun e => decide (e.1 ∉ operatorKeys))
        = m.filter fun e => decide (e.1 ∉ operatorKeys)
  | [] => by simp [setKey, hk]
  | (k', v') :: rest => by
      have ih := filter_setKey hk v rest
      by_cases hkk : k' = k
      · simp [setKey, hkk, hk]
      · simp only [setKey, if_neg hkk, List.filter_cons, ih]

/-- Annotations that differ in operator keys only. -/
theorem userPart_setAnnotations {u : Multiplicador} {k k' v v' : String}
    (hk : k ∈ operatorKeys) (hk' : k' ∈ operatorKeys) :
    userPart (u.setAnnotations (setKey k v (setKey k' v' u.ann)))
      = userPart u := by
  have h : (setKey k v (setKey k' v' u.ann)).filter
      (fun e => decide (e.1 ∉ operatorKeys))
        = u.ann.filter fun e => decide (e.1 ∉ operatorKeys) := by
    rw [filter_setKey hk, filter_setKey hk']
  simp only [userPart, Multiplicador.setAnnotations, Multiplicador.ann,
    Option.getD_some] at h ⊢
  rw [h]

theorem userPart_annotated (u : Multiplicador) :
    userPart (annotated u) = userPart u :=
  userPart_setAnnotations (by decide) (by decide)

theorem userPart_recorded (u : Multiplicador) :
    userPart (recorded u) = userPart u :=
  userPart_setAnnotations (by decide) (by decide)

theorem userPart_invalidated (u : Multiplicador) :
    userPart (invalidated u) = userPart u :=
  userPart_setAnnotations (u := u) (by decide) (by decide)

theorem userPart_withReady (u : Multiplicador) :
    userPart (withReady u) = userPart u := rfl

theorem userPart_withFinalizer (u : Multiplicador) :
    userPart (withFinalizer u) = userPart u := by
  rw [withFinalizer]
  split
  · rfl
  · simp [userPart, Multiplicador.ann]

theorem userPart_withoutFinalizer (u : Multiplicador) :
    userPart (withoutFinalizer u) = userPart u := by
  simp [userPart, withoutFinalizer, Multiplicador.ann]

theorem userPart_settled (u : Multiplicador) (o : Option Fields) :
    userPart (settled u o) = userPart u := by
  cases o with
  | none => exact userPart_recorded u
  | some o =>
      exact (userPart_withFinalizer (recorded u)).trans (userPart_recorded u)

/-! ## The contract -/

/-- How far a reconcile has come with the HTTPProxies. -/
inductive Stage where
  | start
  | leaving (v : Versioned Fields)
  | away
  | joining (v : Option (Versioned Fields))
  | joined
  | refused

/-- What a worker knows: its key, the CR it has read, how far it has come, and
    whether it has already left the old proxy, maybe in an earlier try. -/
structure Knows where
  key : Key
  cr : Option (Versioned Multiplicador)
  stage : Stage
  left : Bool

/-- What a worker knows when it takes a key. -/
def Knows.fresh (k : Key) (left : Bool) : Knows := ⟨k, none, .start, left⟩

/-- The next read of an HTTPProxy is the one of the old proxy. -/
def leavesNext (s : Knows) : Bool :=
  match s.stage, s.cr with
  | .start, some u => departs u.obj
  | _, _ => false

/-- A CR write that carries the version that was read and keeps the users'
    part of what was read, and until the target proxy is written all that a
    reconcile goes by. -/
def crWrite (s : Knows) (k : Key) (w : Versioned Multiplicador) : Prop :=
  ∃ u, s.cr = some u ∧ k = s.key ∧ w.version = u.version
    ∧ userPart w.obj = userPart u.obj
    ∧ (s.stage = .joined ∨ SameReads w.obj u.obj)

/-- What a reconcile may ask. -/
def allowed (s : Knows) : Req → Prop
  | .getCR k => k = s.key ∧ s.stage = .start ∧ s.cr = none
  | .updateCR k w => crWrite s k w
  | .updateStatusCR k w => crWrite s k w
  | .getProxy q => ∃ u, s.cr = some u ∧
      if leavesNext s then q = oldKey u.obj
      else joins u.obj = true ∧ q = targetKey u.obj
        ∧ (s.stage = .away ∨ s.stage = .start)
  | .updateProxy q o => ∃ u v, s.cr = some u ∧ o.version = v.version ∧
      ((s.stage = .leaving v ∧ departs u.obj = true ∧ q = oldKey u.obj
          ∧ leaveContent u.obj.uid (prevRoute u.obj) (some v.obj)
            = some o.obj) ∨
        (s.stage = .joining (some v) ∧ joins u.obj = true
          ∧ q = targetKey u.obj
          ∧ mergeContent u.obj (some v.obj) = some o.obj))
  | .createProxy q o => ∃ u, s.cr = some u ∧ s.stage = .joining none
      ∧ joins u.obj = true ∧ q = targetKey u.obj
      ∧ mergeContent u.obj none = some o
  | .deleteProxy q => ∃ u v, s.cr = some u ∧ s.stage = .leaving v
      ∧ departs u.obj = true ∧ q = oldKey u.obj
      ∧ leaveContent u.obj.uid (prevRoute u.obj) (some v.obj) = none
  | _ => True

/-- What it may be answered: a CR carries the name it is stored under. -/
def answers (_ : Knows) : (r : Req) → Resp r → Prop
  | .getCR k, .ok u => (nsOf u.obj, u.obj.name) = k
  | _, _ => True

/-- What it knows afterwards. -/
def next (s : Knows) : (r : Req) → Resp r → Knows
  | .getCR _, .ok u => { s with cr := some u }
  | .getProxy _, .ok v =>
      if leavesNext s then { s with stage := .leaving v }
      else { s with stage := .joining (some v) }
  | .getProxy _, .error _ =>
      if leavesNext s then { s with stage := .away, left := true }
      else { s with stage := .joining none }
  | .updateProxy _ _, x =>
      match s.stage, x with
      | .leaving _, _ => { s with stage := .away, left := true }
      | _, .ok _ => { s with stage := .joined }
      | _, .error _ => { s with stage := .refused }
  | .createProxy _ _, .ok _ => { s with stage := .joined }
  | .createProxy _ _, .error _ => { s with stage := .refused }
  | .deleteProxy _, _ => { s with stage := .away, left := true }
  | _, _ => s

/-- The contract of a worker with a key in hand. -/
def conduct : Contract Req Resp Knows := ⟨allowed, answers, next⟩

/-- How a reconcile may end: with nil when it has made every move it is to
    make, with an error, of a live CR, before the first one or when the last is
    refused. -/
def Ends (s : Knows) : Outcome → Prop
  | .nil => s.cr = none ∨ ∃ u, s.cr = some u ∧
      (departs u.obj = true → s.left = true) ∧
      (joins u.obj = true → s.stage = .joined) ∧
      (joins u.obj = false → s.stage = .start ∨ s.stage = .away)
  | .error _ => (s.stage = .start ∨ s.stage = .refused)
      ∧ ∃ u, s.cr = some u ∧ u.obj.deletionTimestamp = none
  | .panic => True

/-! ## Walking through the program -/

/-- Ask, then go on. -/
theorem obeys_ask {β : Type} {r : Req} {f : Resp r → Api β} {s : Knows}
    {Q : Knows → β → Prop} (hr : allowed s r)
    (hk : ∀ x, answers s r x → Obeys conduct (f x) (next s r x) Q) :
    Obeys conduct (ask r >>= f) s Q := ⟨hr, hk⟩

/-- An in-memory copy of the CR that was read: what is written from it keeps
    the users' part. -/
structure Copy (s : Knows) (u : Versioned Multiplicador)
    (w : Multiplicador) : Prop where
  cr : s.cr = some u
  key : (nsOf w, w.name) = s.key
  user : userPart w = userPart u.obj

section Walk

variable {s : Knows} {u : Versioned Multiplicador} {w : Multiplicador}

theorem Copy.write {w' : Multiplicador} (h : Copy s u w)
    (hu : userPart w' = userPart w)
    (hr : s.stage = .joined ∨ SameReads w' u.obj) :
    crWrite s (nsOf w, w.name) ⟨w', u.version⟩ :=
  ⟨u, h.cr, h.key, rfl, hu.trans h.user, hr⟩

theorem Copy.of_eq {w' : Multiplicador} (h : Copy s u w) (hns : w'.ns = w.ns)
    (hname : w'.name = w.name) (hu : userPart w' = userPart w) :
    Copy s u w' := by
  refine ⟨h.cr, ?_, hu.trans h.user⟩
  rw [← h.key]
  simp [nsOf, hns, hname]

/-- The old proxy is read, then written or deleted. -/
theorem obeys_leaveProxy (hcr : s.cr = some u) (hst : s.stage = .start)
    (hd : departs u.obj = true) :
    Obeys conduct (leaveProxy (nsOf u.obj) (prevProxy u.obj) u.obj.uid
        (prevRoute u.obj)) s
      (fun s' _ => s' = { s with stage := .away, left := true }) := by
  have hl : leavesNext s = true := by simp [leavesNext, hst, hcr, hd]
  refine obeys_ask ⟨u, hcr, by rw [if_pos hl]; rfl⟩ ?_
  intro x _
  cases x with
  | error e =>
      refine Obeys.ret ?_
      simp [next, hl]
  | ok old =>
      have hn : next s (.getProxy (nsOf u.obj, prevProxy u.obj)) (.ok old)
          = { s with stage := .leaving old } := by simp [next, hl]
      rw [hn]
      dsimp only
      split
      · rename_i hdel
        refine obeys_ask ⟨u, old, hcr, rfl, hd, rfl, ?_⟩ ?_
        · simp [leaveContent, hdel]
        · intro x _
          exact Obeys.ret rfl
      · rename_i hdel
        refine obeys_ask
          ⟨u, old, hcr, rfl, Or.inl ⟨rfl, hd, rfl, ?_⟩⟩ ?_
        · simp [leaveContent, hdel]
        · intro x _
          exact Obeys.ret rfl

/-- What is known when the create-or-merge part has come back. -/
def Installed (s : Knows) (u : Versioned Multiplicador) (s' : Knows)
    (r : Outcome × Multiplicador) : Prop :=
  match r.1 with
  | .nil => s' = { s with stage := .joined } ∧ Copy s u r.2
  | .error _ => s' = { s with stage := .refused }
  | .panic => True

/-- The target proxy is read, then created or merged into, then recorded. -/
theorem obeys_installRoute (h : Copy s u w) (hs : SameReads w u.obj)
    (hj : joins u.obj = true) (hl : leavesNext s = false)
    (hst : s.stage = .away ∨ s.stage = .start) :
    Obeys conduct (installRoute ⟨w, u.version⟩) s (Installed s u) := by
  have hq : (nsOf w, proxyNameOf w) = targetKey u.obj := by
    simp [targetKey, hs.nsOf, hs.proxyName]
  refine obeys_ask ⟨u, h.cr, ?_⟩ ?_
  · rw [hl]
    exact ⟨hj, hq, hst⟩
  intro x _
  have h' : Copy { s with stage := .joined } u w := ⟨h.cr, h.key, h.user⟩
  cases x with
  | error e =>
      have hn : next s (.getProxy (nsOf w, proxyNameOf w)) (.error e)
          = { s with stage := .joining none } := by simp [next, hl]
      rw [hn]
      refine obeys_ask ⟨u, h.cr, rfl, hj, hq, ?_⟩ ?_
      · rw [← hs.mergeContent]
        rfl
      intro x _
      cases x with
      | error e => exact Obeys.ret rfl
      | ok y =>
          have hw := userPart_recorded w
          refine obeys_ask (h'.write hw (Or.inl rfl)) ?_
          intro x _
          refine Obeys.ret ⟨rfl, h.of_eq rfl rfl hw⟩
  | ok existing =>
      have hn : next s (.getProxy (nsOf w, proxyNameOf w)) (.ok existing)
          = { s with stage := .joining (some existing) } := by simp [next, hl]
      rw [hn]
      dsimp only
      cases hm : mergeProxy w existing.obj with
      | none => exact Obeys.ret trivial
      | some merged =>
          refine obeys_ask ⟨u, existing, h.cr, rfl,
            Or.inr ⟨rfl, hj, hq, ?_⟩⟩ ?_
          · rw [← hs.mergeContent]
            exact hm
          intro x _
          cases x with
          | error e => exact Obeys.ret rfl
          | ok y =>
              have hw := userPart_settled w (some existing.obj)
              refine obeys_ask (h'.write hw (Or.inl rfl)) ?_
              intro x _
              refine Obeys.ret ⟨rfl, h.of_eq ?_ ?_ hw⟩
              · rw [withFinalizer]
                split <;> rfl
              · rw [withFinalizer]
                split <;> rfl

/-- The Service is none of the contract's business. -/
theorem obeys_ensureService (w : Multiplicador) :
    Obeys conduct (ensureService w) s (fun s' _ => s' = s) := by
  refine obeys_ask trivial ?_
  intro x _
  cases x with
  | error e =>
      refine obeys_ask trivial ?_
      intro x _
      cases x <;> exact Obeys.ret rfl
  | ok svc =>
      dsimp only
      split
      · exact Obeys.ret rfl
      · refine obeys_ask trivial ?_
        intro x _
        cases x <;> exact Obeys.ret rfl

/-- What is known when `ensureServiceAndProxy` has come back. -/
def Ensured (u : Versioned Multiplicador) (s' : Knows)
    (r : Outcome × Multiplicador) : Prop :=
  Ends s' r.1 ∧ (r.1 = .nil → Copy s' u r.2
    ∧ (s'.stage = .joined ∨ SameReads r.2 u.obj))

theorem obeys_ensureServiceAndProxy (h : Copy s u w)
    (hs : SameReads w u.obj) (hst : s.stage = .start)
    (hlive : u.obj.deletionTimestamp = none)
    (hpos : 0 < u.obj.multiplicador) :
    Obeys conduct (ensureServiceAndProxy ⟨w, u.version⟩) s (Ensured u) := by
  have hdep : departs u.obj = (joins u.obj && movesAway u.obj) := by
    simp [departs, hlive]
  refine (obeys_ensureService w).seq ?_
  rintro s' o rfl
  cases o with
  | error e =>
      exact Obeys.ret ⟨⟨Or.inl hst, u, h.cr, hlive⟩,
        fun e => absurd e (by simp)⟩
  | panic => exact Obeys.ret ⟨trivial, fun e => absurd e (by simp)⟩
  | nil =>
      dsimp only
      by_cases hr : w.ruta = ""
      · rw [if_pos hr]
        have hj : joins u.obj = false := by simp [joins, ← hs.ruta, hr]
        have hd : departs u.obj = false := by simp [hdep, hj]
        refine Obeys.ret ⟨Or.inr ⟨u, h.cr, ?_, ?_, fun _ => Or.inl hst⟩,
          fun _ => ⟨h, Or.inr hs⟩⟩
        · intro e
          exact absurd (hd.symm.trans e) (by simp)
        · intro e
          exact absurd (hj.symm.trans e) (by simp)
      · rw [if_neg hr]
        have hj : joins u.obj = true := by
          simp [joins, hlive, hpos, ← hs.ruta, hr]
        -- both ways of coming to the target end alike
        have hdone : ∀ s₁ : Knows, Copy s₁ u w → leavesNext s₁ = false →
            (s₁.stage = .away ∨ s₁.stage = .start) →
            (departs u.obj = true → s₁.left = true) →
            Obeys conduct (installRoute ⟨w, u.version⟩) s₁ (Ensured u) := by
          intro s₁ h₁ hl₁ hst₁ hleft
          refine (obeys_installRoute h₁ hs hj hl₁ hst₁).mono ?_
          intro s₂ r hi
          rw [Installed] at hi
          cases hr₂ : r.1 with
          | nil =>
              rw [hr₂] at hi
              obtain ⟨rfl, hc⟩ := hi
              refine ⟨?_, fun _ => ⟨⟨h₁.cr, hc.key, hc.user⟩, Or.inl rfl⟩⟩
              rw [hr₂]
              refine Or.inr ⟨u, h₁.cr, hleft, fun _ => rfl, ?_⟩
              intro e
              exact absurd (hj.symm.trans e) (by simp)
          | error e =>
              rw [hr₂] at hi
              subst hi
              refine ⟨?_, fun e => absurd (hr₂.symm.trans e) (by simp)⟩
              rw [hr₂]
              exact ⟨Or.inr rfl, u, h₁.cr, hlive⟩
          | panic =>
              refine ⟨?_, fun e => absurd (hr₂.symm.trans e) (by simp)⟩
              rw [hr₂]
              exact trivial
        by_cases hm : movesAway w = true
        · rw [if_pos hm]
          have hd : departs u.obj = true := by
            simp [hdep, hj, ← hs.movesAway, hm]
          rw [hs.nsOf, hs.prevProxy, hs.prevRoute, hs.uid]
          refine (obeys_leaveProxy h.cr hst hd).seq ?_
          rintro s₁ a rfl
          exact hdone _ ⟨h.cr, h.key, h.user⟩ rfl (Or.inl rfl) (fun _ => rfl)
        · rw [if_neg hm]
          have hd : departs u.obj = false := by
            simp [hdep, ← hs.movesAway, hm]
          refine hdone s' h ?_ (Or.inr hst) ?_
          · simp [leavesNext, hst, h.cr, hd]
          · intro e
            exact absurd (hd.symm.trans e) (by simp)

/-- A CR write changes nothing of what is known. -/
theorem obeys_writeStatus (h : Copy s u w)
    (hr : s.stage = .joined ∨ SameReads w u.obj) :
    Obeys conduct (writeStatus ⟨w, u.version⟩) s (fun s' _ => s' = s) := by
  refine obeys_ask (h.write rfl hr) ?_
  intro x _
  cases x with
  | ok y => exact Obeys.ret rfl
  | error e =>
      refine obeys_ask (h.write rfl hr) ?_
      intro x _
      exact Obeys.ret rfl

/-- The deletion branch. -/
theorem obeys_reconcileDeleted (h : Copy s u u.obj) (hst : s.stage = .start)
    (hdel : u.obj.deletionTimestamp.isSome = true) :
    Obeys conduct (reconcileDeleted u) s Ends := by
  have hj : joins u.obj = false := by
    cases hd : u.obj.deletionTimestamp with
    | none => rw [hd] at hdel; exact absurd hdel (by simp)
    | some t => simp [joins, hd]
  -- what follows the cleanup, wherever it ended
  have hrest : ∀ s₁ : Knows, Copy s₁ u u.obj →
      (s₁.stage = .start ∨ s₁.stage = .away) →
      (departs u.obj = true → s₁.left = true) →
      Obeys conduct (do
        if (withoutFinalizer u.obj).finalizers.length
            ≠ u.obj.finalizers.length then
          let _ ← ask (.updateCR (nsOf u.obj, u.obj.name)
            ⟨withoutFinalizer u.obj, u.version⟩)
        return Outcome.nil) s₁ Ends := by
    intro s₁ h₁ hst₁ hleft
    have hend : Ends s₁ .nil := by
      refine Or.inr ⟨u, h₁.cr, hleft, ?_, fun _ => hst₁⟩
      intro e
      exact absurd (hj.symm.trans e) (by simp)
    split
    · refine obeys_ask (h₁.write (userPart_withoutFinalizer u.obj)
        (Or.inr (sameReads_withoutFinalizer u.obj))) ?_
      intro x _
      exact Obeys.ret hend
    · exact Obeys.ret hend
  rw [reconcileDeleted, cleanupProxyForCR]
  by_cases hp : prevProxy u.obj = ""
  · rw [if_pos hp]
    have hd : departs u.obj = false := by simp [departs, hdel, hp]
    refine hrest s h (Or.inl hst) ?_
    intro e
    exact absurd (hd.symm.trans e) (by simp)
  · rw [if_neg hp]
    have hd : departs u.obj = true := by simp [departs, hdel, hp]
    refine (obeys_leaveProxy h.cr hst hd).seq ?_
    rintro s₁ a rfl
    exact hrest _ ⟨h.cr, h.key, h.user⟩ (Or.inr rfl) (fun _ => rfl)

/-- The invalid branch. -/
theorem obeys_reconcileInvalid (h : Copy s u u.obj) (hst : s.stage = .start)
    (hlive : u.obj.deletionTimestamp = none)
    (hj : joins u.obj = false) (hd : departs u.obj = false) :
    Obeys conduct (reconcileInvalid u) s Ends := by
  have hend : Ends s .nil := by
    refine Or.inr ⟨u, h.cr, ?_, ?_, fun _ => Or.inl hst⟩
    · intro e
      exact absurd (hd.symm.trans e) (by simp)
    · intro e
      exact absurd (hj.symm.trans e) (by simp)
  have hw := h.write (userPart_invalidated u.obj)
    (Or.inr (sameReads_invalidated u.obj))
  refine obeys_ask hw ?_
  intro x _
  cases x with
  | ok y => exact Obeys.ret hend
  | error e =>
      refine obeys_ask hw ?_
      intro x _
      cases x with
      | ok y => exact Obeys.ret hend
      | error e => exact Obeys.ret ⟨Or.inl hst, u, h.cr, hlive⟩

/-- The create branch and the repair branch, on the annotated copy. -/
theorem obeys_reconcileValid (h : Copy s u u.obj) (hst : s.stage = .start)
    (hlive : u.obj.deletionTimestamp = none)
    (hpos : 0 < u.obj.multiplicador) :
    Obeys conduct (reconcileValid u) s Ends := by
  have ha : Copy s u (annotated u.obj) :=
    h.of_eq rfl rfl (userPart_annotated u.obj)
  have hra := sameReads_annotated u.obj
  refine obeys_ask (h.write (userPart_annotated u.obj) (Or.inr hra)) ?_
  intro x _
  refine obeys_ask trivial ?_
  intro x _
  cases x with
  | error e =>
      refine obeys_ask trivial ?_
      intro x _
      cases x with
      | error e => exact Obeys.ret ⟨Or.inl hst, u, h.cr, hlive⟩
      | ok y =>
          have hw : Copy s u (withReady (annotated u.obj)) :=
            ha.of_eq rfl rfl (userPart_withReady (annotated u.obj))
          have hrw := (sameReads_withReady (annotated u.obj)).trans hra
          refine (obeys_writeStatus hw (Or.inr hrw)).seq ?_
          rintro s₁ a rfl
          refine (obeys_ensureServiceAndProxy hw hrw hst hlive hpos).seq ?_
          intro s₂ r hr
          obtain ⟨hend, -⟩ := hr
          have hwrap : Ends s₂ (wrapEnsure r.1) := by
            cases ho : r.1 <;> rw [ho] at hend <;> exact hend
          exact Obeys.ret hwrap
  | ok existing =>
      show Obeys conduct (updateDeployment (annotated u.obj) existing >>= _)
        s Ends
      have hdep : Obeys conduct (updateDeployment (annotated u.obj) existing) s
          (fun s' _ => s' = s) := by
        rw [updateDeployment]
        split
        · exact Obeys.ret rfl
        · refine obeys_ask trivial ?_
          intro x _
          cases x <;> exact Obeys.ret rfl
      refine hdep.seq ?_
      rintro s₁ o rfl
      cases o with
      | error e => exact Obeys.ret ⟨Or.inl hst, u, h.cr, hlive⟩
      | panic => exact Obeys.ret trivial
      | nil =>
          refine (obeys_ensureServiceAndProxy ha hra hst hlive hpos).seq ?_
          intro s₂ r hr
          obtain ⟨hend, hcopy⟩ := hr
          cases ho : r.1 with
          | nil =>
              rw [ho] at hend
              obtain ⟨hr₂, hreads⟩ := hcopy ho
              have hc : Copy s₂ u (withReady r.2) :=
                hr₂.of_eq rfl rfl (userPart_withReady r.2)
              refine (obeys_writeStatus hc
                (hreads.imp_right (sameReads_withReady r.2).trans)).seq ?_
              rintro s₃ a rfl
              exact Obeys.ret hend
          | error e =>
              rw [ho] at hend
              exact Obeys.ret hend
          | panic => exact Obeys.ret trivial

/-- `reconcileOne` on the CR that was read. -/
theorem obeys_reconcileOne (h : Copy s u u.obj) (hst : s.stage = .start) :
    Obeys conduct (reconcileOne u) s Ends := by
  rw [reconcileOne]
  split
  · rename_i hdel
    exact obeys_reconcileDeleted h hst hdel
  · rename_i hdel
    have hlive : u.obj.deletionTimestamp = none := by simpa using hdel
    split
    · rename_i hle
      have hj : joins u.obj = false := by
        have hn : ¬ 0 < u.obj.multiplicador := by omega
        simp [joins, hn]
      exact obeys_reconcileInvalid h hst hlive hj (by simp [departs, hlive, hj])
    · rename_i hpos
      exact obeys_reconcileValid h hst hlive (by omega)

end Walk

/-- **WHAT A WORKER ASKS**: from its first call to its last, a worker with a
    key in hand keeps the contract. -/
theorem obeys_reconcileKey (k : Key) (left : Bool) :
    Obeys conduct (reconcileKey k) (Knows.fresh k left) Ends := by
  refine obeys_ask ⟨rfl, rfl, rfl⟩ ?_
  intro x hx
  cases x with
  | error e => exact Obeys.ret (Or.inl rfl)
  | ok u => exact obeys_reconcileOne ⟨rfl, hx, rfl⟩ rfl

/-! ## The contract and the server -/

/-- The key in hand stays. -/
theorem next_key (s : Knows) (r : Req) (x : Resp r) :
    (next s r x).key = s.key := by
  unfold next
  split <;> first | rfl | (split <;> rfl)

/-- The CR that was read stays until it is read again. -/
theorem next_cr {s : Knows} {r : Req} (h : ∀ k, r ≠ .getCR k) (x : Resp r) :
    (next s r x).cr = s.cr := by
  unfold next
  split <;> first | exact absurd rfl (h _) | rfl | (split <;> rfl)

/-- The update of a proxy is behind the worker, however it came out. -/
theorem stage_updateProxy (s : Knows) (q : Key) (o : Versioned Fields)
    (x : Resp (.updateProxy q o)) :
    (next s (.updateProxy q o) x).stage = .away
      ∨ (next s (.updateProxy q o) x).stage = .joined
      ∨ (next s (.updateProxy q o) x).stage = .refused := by
  cases hst : s.stage <;> cases x <;> simp [next, hst]

/-- A well-formed cluster answers as the contract says. -/
theorem answers_serve {c : Cluster} (h : WellFormed c) (s : Knows) (r : Req) :
    answers s r (serve c r).2 := by
  cases r with
  | getCR k =>
      show answers s (.getCR k) (got (c.crs k))
      cases hk : c.crs k with
      | none => exact trivial
      | some v => exact (h.stored k v hk).key
  | _ => exact trivial

/-- A worker writes no CR but its own. -/
theorem crs_of_allowed {c c' : Cluster} {s : Knows} {r : Req} {k : Key}
    (he : Effect c r c') (hr : allowed s r) (hk : k ≠ s.key) :
    c'.crs k = c.crs k := by
  cases he with
  | cr q w old new h =>
      have hq : q = s.key := by
        rcases h.req with ⟨hreq, -⟩ | ⟨hreq, -⟩
        · subst hreq
          obtain ⟨u, -, hq, -⟩ := hr
          exact hq
        · subst hreq
          obtain ⟨u, -, hq, -⟩ := hr
          exact hq
      exact write_of_ne (hq ▸ hk)
  | _ => rfl

end Conduct
