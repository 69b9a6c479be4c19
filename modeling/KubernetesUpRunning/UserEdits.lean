import KubernetesUpRunning.ClusterRuns
import KubernetesUpRunning.OperatorPool

/-! # Users never lose an edit

    The operator writes back whole objects that it read some time ago, from six
    places and often more than once from one read.  Whatever lands of this was
    computed from the very version it replaces and keeps the users' part of it,
    so the users' part of a stored CR is always what the last user write left.
    The proof rests on two facts: what a worker has read is a snapshot
    (`CRRead`), and what it writes keeps the users' part (`crWrite`). -/

namespace UserEdits

open ApiServer CallProgram ClusterRuns Conduct GoJson KubeObjects OperatorPool
open Reconcile ServerSteps VersionedStore WorkerPool

/-- What a user write leaves of a CR: the users' part, and whether the CR is
    being deleted. -/
structure Left where
  part : UserPart
  deleting : Bool

/-- What is left of a stored CR. -/
def leftOf (u : Multiplicador) : Left :=
  ⟨userPart u, u.deletionTimestamp.isSome⟩

/-- The cluster, and what the last user write of every CR left. -/
structure Edited where
  cluster : Cluster
  left : Key → Option Left

/-- The users have just written the CR at `k`. -/
def userWrote (s : Edited) (k : Key) (c' : Cluster) : Edited :=
  ⟨c', Function.update s.left k ((content c'.crs k).map leftOf)⟩

/-- A call of a worker, which is no user write. -/
def calls (s : Edited) (r : Req) (s' : Edited) (x : Resp r) : Prop :=
  Called s.cluster r s'.cluster x ∧ s'.left = s.left

/-- Users create, edit and delete CRs; the garbage collector runs. -/
inductive UsersAct (s : Edited) : Edited → Prop where
  | create (k : Key) (u : Multiplicador) (h : Stored k u) :
      UsersAct s (userWrote s k (createCR s.cluster k u))
  | edit (k : Key) (f : Multiplicador → Multiplicador) :
      UsersAct s (userWrote s k (editCR s.cluster k f))
  | delete (k : Key) (now : String) :
      UsersAct s (userWrote s k (deleteCR s.cluster k now))
  | collect (k : Key) : UsersAct s ⟨collectProxy s.cluster k, s.left⟩

/-- The users' part of every stored CR is what the last user write left, and a
    CR that is gone was being deleted and had no foreign finalizer left. -/
structure Intact (s : Edited) : Prop where
  stored : ∀ k v, s.cluster.crs k = some v → s.left k = some (leftOf v.obj)
  gone : ∀ k l, s.cluster.crs k = none → s.left k = some l →
    l.deleting = true ∧ l.part.finalizers = []

/-! ## What the server keeps of a write -/

/-- The main update stores the users' part of what is sent. -/
theorem leftOf_admitCR {w old new : Multiplicador}
    (h : admitCR w old = some new) :
    leftOf new = ⟨userPart w, old.deletionTimestamp.isSome⟩ := by
  rw [admitCR] at h
  split at h
  · exact absurd h (by simp)
  · rw [← Option.some.inj h]
    rfl

/-- It removes a CR only when it is being deleted and no finalizer is left. -/
theorem admitCR_none {w old : Multiplicador} (h : admitCR w old = none) :
    old.deletionTimestamp.isSome = true ∧ w.finalizers = [] := by
  rw [admitCR] at h
  split at h
  · assumption
  · exact absurd h (by simp)

/-- The status is none of the users' part. -/
theorem leftOf_admitStatus (w old : Multiplicador) :
    ∃ new, admitStatus w old = some new ∧ leftOf new = leftOf old :=
  ⟨_, rfl, rfl⟩

/-! ## One step -/

/-- **A CALL KEEPS WHAT USERS LEFT**: what lands replaces what was read. -/
theorem intact_call {s s' : Edited} {r : Req} {x : Resp r} {w : Knows}
    (h : Intact s) (hread : CRRead s.cluster w) (hr : allowed w r)
    (hs : calls s r s' x) : Intact s' := by
  obtain ⟨hcall, hleft⟩ := hs
  obtain ⟨c', left'⟩ := s'
  dsimp only at hcall hleft
  subst hleft
  have he := hcall.effect
  cases he with
  | nothing => exact ⟨h.stored, h.gone⟩
  | deployment k new => exact ⟨h.stored, h.gone⟩
  | service k new => exact ⟨h.stored, h.gone⟩
  | proxy k new hp => exact ⟨h.stored, h.gone⟩
  | cr k sent old new hu =>
      -- the version that is accepted is the one that was read
      have hwrite : crWrite w k sent := by
        rcases hu.req with ⟨rfl, -⟩ | ⟨rfl, -⟩
        · exact hr
        · exact hr
      obtain ⟨u, hcr, hk, hver, hpart, -⟩ := hwrite
      have hold : old = u := by
        refine (hread u hcr).same old ?_ (hu.version.trans hver)
        rw [← hk]
        exact hu.stored
      have hl := h.stored k old hu.stored
      -- what is stored now, at this key and elsewhere
      have hself : content (write s.cluster.crs s.cluster.rev k new).1 k
          = new := by
        rw [content_write, Function.update_self]
      have hnew : (∀ y, new = some y → leftOf y = leftOf old.obj)
          ∧ (new = none → (leftOf old.obj).deleting = true
            ∧ (leftOf old.obj).part.finalizers = []) := by
        rcases hu.req with ⟨-, hnext⟩ | ⟨-, hnext⟩
        · constructor
          · intro y hy
            rw [leftOf_admitCR (hnext.symm.trans hy), hpart, ← hold]
            rfl
          · intro hy
            obtain ⟨hdel, hfin⟩ := admitCR_none (hnext.symm.trans hy)
            refine ⟨hdel, ?_⟩
            show (userPart old.obj).finalizers = []
            rw [hold, ← hpart, userPart, hfin]
            rfl
        · obtain ⟨y, hy, hleft⟩ := leftOf_admitStatus sent.obj old.obj
          constructor
          · intro z hz
            rw [← Option.some.inj (hy.symm.trans (hnext.symm.trans hz))]
            exact hleft
          · intro hz
            exact absurd (hnext.symm.trans hz) (by rw [hy]; simp)
      constructor
      · intro k' v hv
        by_cases hk' : k' = k
        · subst hk'
          have hc := hself.symm.trans (content_of_some hv)
          rw [hl, hnew.1 v.obj hc]
        · have hv' : (write s.cluster.crs s.cluster.rev k new).1 k' = some v :=
            hv
          rw [write_of_ne hk'] at hv'
          exact h.stored k' v hv'
      · intro k' l hv hleft
        by_cases hk' : k' = k
        · subst hk'
          have hc := hself.symm.trans (content_of_none hv)
          have hl' : leftOf old.obj = l := Option.some.inj (hl.symm.trans hleft)
          rw [← hl']
          exact hnew.2 hc
        · have hv' : (write s.cluster.crs s.cluster.rev k new).1 k' = none := hv
          rw [write_of_ne hk'] at hv'
          exact h.gone k' l hv' hleft

/-- A user write is the last one of its CR. -/
theorem intact_userWrote {s : Edited} {k : Key} {c' : Cluster}
    (h : Intact s) (hne : ∀ k', k' ≠ k → c'.crs k' = s.cluster.crs k') :
    Intact (userWrote s k c') := by
  constructor
  · intro k' v hv
    have hv' : c'.crs k' = some v := hv
    by_cases hk : k' = k
    · subst hk
      show Function.update s.left k' _ k' = _
      rw [Function.update_self, content_of_some hv']
      rfl
    · rw [hne k' hk] at hv'
      show Function.update s.left k _ k' = _
      rw [Function.update_of_ne hk]
      exact h.stored k' v hv'
  · intro k' l hv hl
    have hv' : c'.crs k' = none := hv
    have hl' : Function.update s.left k ((content c'.crs k).map leftOf) k'
        = some l := hl
    by_cases hk : k' = k
    · subst hk
      rw [Function.update_self, content_of_none hv'] at hl'
      exact absurd hl' (by simp)
    · rw [hne k' hk] at hv'
      rw [Function.update_of_ne hk] at hl'
      exact h.gone k' l hv' hl'

/-- What users do, seen as a move of the cluster. -/
theorem UsersAct.others {s s' : Edited} (h : UsersAct s s') :
    Others s.cluster s'.cluster := by
  cases h with
  | create k u hu => exact .create k u hu
  | edit k f => exact .edit k f
  | delete k now => exact .delete k now
  | collect k => exact .collect k

theorem intact_usersAct {s s' : Edited} (h : Intact s)
    (hu : UsersAct s s') : Intact s' := by
  cases hu with
  | create k u hu => exact intact_userWrote h fun _ hk => createCR_crs_of_ne hk
  | edit k f => exact intact_userWrote h fun _ hk => editCR_crs_of_ne hk
  | delete k now => exact intact_userWrote h fun _ hk => deleteCR_crs_of_ne hk
  | collect k =>
      have hcrs := collectProxy_crs s.cluster k
      constructor
      · intro k' v hv
        exact h.stored k' v (hcrs ▸ hv)
      · intro k' l hv hl
        exact h.gone k' l (hcrs ▸ hv) hl

/-- What a worker knows of its CR after a call is a snapshot too. -/
theorem crRead_next {c c' : Cluster} {s : Knows} {r : Req} {x : Resp r}
    (hwf : WellFormed c) (h : CRRead c s) (hr : allowed s r)
    (hs : Called c r c' x) : CRRead c' (next s r x) := by
  have hl := hs.effect.later
  have hkeep : (next s r x).cr = s.cr → CRRead c' (next s r x) := by
    intro hcr u hu
    rw [next_key]
    exact (h u (hcr.symm.trans hu)).advance hl.crs
  cases r with
  | getCR k =>
      cases x with
      | error e => exact hkeep rfl
      | ok v =>
          have hgot : got (c.crs k) = .ok v := hs.ok rfl
          have hv : c.crs k = some v := by
            cases hk : c.crs k with
            | none => rw [hk] at hgot; exact absurd hgot (by simp [got])
            | some y => rw [hk] at hgot; exact congrArg some (Except.ok.inj hgot)
          intro u hu
          have huv : v = u := Option.some.inj hu
          rw [next_key, ← huv, ← hr.1]
          exact (snapshot_of_get hwf.crs hv).advance hl.crs
  | _ => exact hkeep (next_cr (fun k e => Req.noConfusion e) x)

/-- **USERS NEVER LOSE AN EDIT**: in every state that idle workers, users and
    the garbage collector can reach, with any calls failing, the users' part of
    every stored CR is what the last user write left. -/
theorem intact_of_reaches {ι : Type} [DecidableEq ι]
    {P₀ P : Pool ι Req Resp Outcome Edited} (hidle : Idle P₀)
    (hwf : WellFormed P₀.store.cluster) (h₀ : Intact P₀.store)
    (h : Reaches (rules calls UsersAct) P₀ P) : Intact P.store := by
  have hinv := invariant_of_reaches
    (I := fun s : Edited => WellFormed s.cluster ∧ Intact s)
    (R := fun s w => CRRead s.cluster w) ?_ ?_ ?_ hidle ⟨hwf, h₀⟩ h
  · exact hinv.2
  · intro s k u hu
    exact absurd hu (by simp [Knows.fresh])
  · rintro s w r s' x ⟨hwf, hi⟩ hread hr hs
    refine ⟨hs.1.answers hwf w, ⟨hs.1.effect.wellFormed hwf, ?_⟩, ?_, ?_⟩
    · exact intact_call hi hread hr hs
    · exact crRead_next hwf hread hr hs.1
    · exact fun w' hw' => hw'.later hs.1.effect.later
  · rintro s s' ⟨hwf, hi⟩ hu
    exact ⟨⟨hu.others.wellFormed hwf, intact_usersAct hi hu⟩,
      fun w hw => hw.later hu.others.later⟩

/-! ## An edit that a worker does not know of -/

/-- One CR, as its user left it. -/
def oneCR : Edited where
  cluster := clusterOf [(("default", "web"), ⟨newCR "web" "a.com" "x", 1⟩)]
    [] [] 1
  left := fun k => (content (clusterOf
    [(("default", "web"), ⟨newCR "web" "a.com" "x", 1⟩)] [] [] 1).crs k).map
      leftOf

/-- The server, beside the note of what users left. -/
def serveBeside (s : Edited) (r : Req) : Edited × Resp r :=
  let a := serve s.cluster r
  (⟨a.1, s.left⟩, a.2)

/-- A worker has taken the key and read the CR. -/
def holding : Pool Unit Req Resp Outcome Edited :=
  (takeKey ⟨oneCR, fun _ => .ret .nil⟩ () ("default", "web")).calls
    serveBeside () 1

/-- The user moves the host meanwhile. -/
def editedMeanwhile : Pool Unit Req Resp Outcome Edited :=
  ⟨userWrote holding.store ("default", "web")
    (editCR holding.store.cluster ("default", "web")
      fun u => { u with spec := specFor "b.com" "x" }), holding.prog⟩

/-- The worker goes on with what it has read, to the end. -/
def wroteStale : Pool Unit Req Resp Outcome Edited :=
  editedMeanwhile.finish serveBeside ()

/-- Then it takes the key once more. -/
def tookAgain : Pool Unit Req Resp Outcome Edited :=
  (takeKey wroteStale () ("default", "web")).finish serveBeside ()

/-- No write of the worker lands while what it holds is stale, its next
    reconcile does write the CR, and the edit is there throughout. -/
theorem intact_tookAgain :
    (wroteStale.store.cluster.crs ("default", "web")).map
        (fun v => (v.version, v.obj.host)) = some (2, "b.com")
      ∧ (tookAgain.store.cluster.crs ("default", "web")).map
        (fun v => (v.version, v.obj.host)) = some (6, "b.com")
      ∧ Intact tookAgain.store := by
  refine ⟨by decide +kernel, by decide +kernel, ?_⟩
  have hwf : WellFormed oneCR.cluster :=
    wellFormed_clusterOf (by decide) (by decide) (by decide)
  have hintact : Intact oneCR := by
    constructor
    · intro k v hv
      show (content oneCR.cluster.crs k).map leftOf = _
      rw [content_of_some hv]
      rfl
    · intro k l hk hl
      have hl' : (content oneCR.cluster.crs k).map leftOf = some l := hl
      rw [content_of_none hk] at hl'
      exact absurd hl' (by simp)
  have hidle : Idle (⟨oneCR, fun _ => .ret .nil⟩ :
      Pool Unit Req Resp Outcome Edited) := fun _ => ⟨.nil, rfl⟩
  have hcalls : ∀ (s : Edited) (r : Req),
      (rules calls UsersAct : Rules Unit Req Resp Outcome Edited).serve () s r
        (serveBeside s r).1 (serveBeside s r).2 := fun _ _ => ⟨.served, rfl⟩
  -- the worker reads, the user writes, the worker writes what it can
  have hheld : Reaches (rules calls UsersAct)
      (⟨oneCR, fun _ => .ret .nil⟩ : Pool Unit Req Resp Outcome Edited)
      holding :=
    (reaches_takeKey (o := .nil) rfl _).trans (reaches_calls hcalls _ 1)
  have hstale : Reaches (rules calls UsersAct) holding wroteStale :=
    .head (.env _ (.edit ("default", "web")
      fun u => { u with spec := specFor "b.com" "x" }))
      (reaches_finish hcalls editedMeanwhile)
  have hagain : Reaches (rules calls UsersAct) wroteStale tookAgain :=
    (reaches_takeKey rfl _).trans (reaches_finish hcalls _)
  exact intact_of_reaches hidle hwf hintact ((hheld.trans hstale).trans hagain)

end UserEdits
