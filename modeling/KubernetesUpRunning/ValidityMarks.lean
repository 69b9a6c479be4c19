import KubernetesUpRunning.Bookkeeping
import KubernetesUpRunning.FixedPoint

/-! # The validity annotations

    A reconcile marks the CR: valid or not, and the error when it is not.  The
    valid branch writes through the main update, which stores annotations; the
    invalid branch through `UpdateStatus`, which does not, and falls back to
    the main update only when that fails.  Neither branch takes away what the
    other one set.  This file says exactly which reconciles leave marks that
    follow the spec. -/

namespace ValidityMarks

open AssocMap ApiServer Bookkeeping ClusterRuns FixedPoint GoJson Idempotence
open KubeObjects Reconcile ReconcileEffect ReconcileRun ServerSteps
open VersionedStore

/-- Any spec edits and complete reconciles of one CR, in any order. -/
abbrev History (k : Key) : Cluster → Cluster → Prop :=
  Relation.ReflTransGen fun c c' => ∃ t : Turn, c' = turn c k t

/-- A live CR is stored at `k`. -/
structure LiveAt (c : Cluster) (k : Key) : Prop where
  wellFormed : WellFormed c
  cr : ∃ v, c.crs k = some v ∧ v.obj.deletionTimestamp = none

/-- The marks of the CR follow its spec. -/
def Marked (u : Multiplicador) : Prop :=
  u.ann.lookup annValid
      = some (if 0 < u.multiplicador then "true" else "false")
    ∧ ((u.ann.lookup annError).isSome = true
      ↔ u.ann.lookup annValid = some "false")

/-- The stored marks follow the spec. -/
def MarkedAt (c : Cluster) (k : Key) : Prop :=
  ∀ v, c.crs k = some v → Marked v.obj

/-- What a reconcile must find: a positive multiplicador and no error mark, or
    another one and the marks of an invalid spec already there. -/
def MarksFit (u : Multiplicador) : Prop :=
  if 0 < u.multiplicador then u.ann.lookup annError = none
  else u.ann.lookup annValid = some "false"
    ∧ (u.ann.lookup annError).isSome = true

/-- The stored CR is such a one. -/
def FitsAt (c : Cluster) (k : Key) : Prop :=
  ∀ v, c.crs k = some v → MarksFit v.obj

/-! ## What one reconcile does to the marks -/

theorem error_annotated (u : Multiplicador) :
    (annotated u).ann.lookup annError = u.ann.lookup annError := by
  show (setKey annMultiplicador _ (setKey annValid _ u.ann)).lookup annError
    = _
  rw [lookup_setKey_of_ne (by decide), lookup_setKey_of_ne (by decide)]

theorem error_settled (u : Multiplicador) (o : Option Fields) :
    (settled u o).ann.lookup annError = u.ann.lookup annError := by
  have hrec : (recorded u).ann.lookup annError = u.ann.lookup annError := by
    show (setKey annProxyRoute _ (setKey annProxy _ u.ann)).lookup annError = _
    rw [lookup_setKey_of_ne (by decide), lookup_setKey_of_ne (by decide)]
  rw [← hrec]
  cases o with
  | none => rfl
  | some o =>
      show (withFinalizer (recorded u)).ann.lookup annError = _
      rw [withFinalizer]
      split <;> rfl

/-- No write of the valid branch touches the error mark. -/
theorem error_crAfter (u : Multiplicador) (dep : Option Deployment)
    (P : Key → Option Fields) :
    (crAfter u dep P).ann.lookup annError = u.ann.lookup annError := by
  have hrec : (recordWrite u P u).ann.lookup annError
      = u.ann.lookup annError := by
    rcases recordWrite_cases u P with h | ⟨o, h⟩
    · rw [h]
    · rw [h, error_settled]
  unfold crAfter
  split
  · exact error_annotated u
  · cases dep with
    | none =>
        dsimp only
        split
        · rfl
        · exact hrec
    | some d =>
        dsimp only
        split
        · exact hrec
        · split <;> rfl

/-- The valid branch always leaves the mark of a valid spec. -/
theorem valid_crAfter (u : Multiplicador) (dep : Option Deployment)
    (P : Key → Option Fields) :
    (crAfter u dep P).ann.lookup annValid = some "true" := by
  obtain ⟨a, ha, hv, -⟩ :=
    annotated_eq_self_iff.mp (annotated_crAfter u dep P)
  rw [Multiplicador.ann, ha]
  exact hv

/-- What a reconcile of a live CR leaves is marked exactly when the CR it read
    fits. -/
theorem marked_crNext {u w : Multiplicador} {dep : Option Deployment}
    {P : Key → Option Fields} (hlive : u.deletionTimestamp = none)
    (hw : crNext u dep P = some w) : Marked w ↔ MarksFit u := by
  rw [crNext, hlive, Option.isSome_none, if_neg (by decide)] at hw
  by_cases hpos : 0 < u.multiplicador
  · have hneg : ¬ u.multiplicador ≤ 0 := by omega
    rw [if_neg hneg] at hw
    have hobj := Option.some.inj hw
    have hspec : w.multiplicador = u.multiplicador :=
      multiplicador_of_continues (hobj ▸ continues_crAfter u dep P)
    rw [Marked, MarksFit]
    rw [hspec, if_pos hpos, if_pos hpos, ← hobj, valid_crAfter, error_crAfter]
    cases u.ann.lookup annError <;> simp
  · have hneg : u.multiplicador ≤ 0 := by omega
    rw [if_pos hneg] at hw
    -- only the status of an invalid CR is stored
    rw [← Option.some.inj hw]
    show (u.ann.lookup annValid
        = some (if 0 < u.multiplicador then "true" else "false")
      ∧ ((u.ann.lookup annError).isSome = true
        ↔ u.ann.lookup annValid = some "false")) ↔ MarksFit u
    rw [MarksFit]
    rw [if_neg hpos, if_neg hpos]
    constructor
    · rintro ⟨hv, he⟩
      exact ⟨hv, he.mpr hv⟩
    · rintro ⟨hv, he⟩
      exact ⟨hv, fun _ => hv, fun _ => he⟩

/-! ## Along a history -/

section Turns

variable {c : Cluster} {k : Key}

/-- The CR that a reconcile leaves. -/
theorem cr_reconcileNow (h : WellFormed c) {u : Versioned Multiplicador}
    (hk : c.crs k = some u) (hlive : u.obj.deletionTimestamp = none) :
    ∃ v, (reconcileNow c k).crs k = some v
      ∧ crNext u.obj (content c.deployments (k.1, deplNameOf k.2))
        (content c.proxies) = some v.obj := by
  have hc := reconcileNow_cr h hk
  cases hn : crNext u.obj (content c.deployments (k.1, deplNameOf k.2))
      (content c.proxies) with
  | none =>
      have hgone := crNext_eq_none.mp hn
      rw [vanishes, hlive] at hgone
      exact absurd hgone (by simp)
  | some w =>
      rw [hn] at hc
      obtain ⟨v, hv, hobj⟩ := Option.map_eq_some_iff.mp hc
      exact ⟨v, hv, by rw [hobj]⟩

/-- A live CR stays live. -/
theorem deletionTimestamp_crNext {u w : Multiplicador}
    {dep : Option Deployment} {P : Key → Option Fields}
    (hlive : u.deletionTimestamp = none) (hw : crNext u dep P = some w) :
    w.deletionTimestamp = none := by
  rw [crNext, hlive, Option.isSome_none, if_neg (by decide)] at hw
  split at hw
  · rw [← Option.some.inj hw]
    exact hlive
  · rw [← Option.some.inj hw]
    exact (deletionTimestamp_of_continues (continues_crAfter u dep P)).trans
      hlive

theorem liveAt_turn (h : LiveAt c k) (t : Turn) : LiveAt (turn c k t) k := by
  obtain ⟨u, hk, hlive⟩ := h.cr
  cases t with
  | edit spec =>
      obtain ⟨v, hv, hobj⟩ :=
        Option.map_eq_some_iff.mp (content_editSpec hk hlive)
      show LiveAt (editSpec c k spec) k
      refine ⟨wellFormed_editCR h.wellFormed k _, v, hv, ?_⟩
      rw [hobj]
      exact hlive
  | reconcile =>
      obtain ⟨v, hv, hnext⟩ := cr_reconcileNow h.wellFormed hk hlive
      exact ⟨wellFormed_reconcileNow h.wellFormed, v, hv,
        deletionTimestamp_crNext hlive hnext⟩

theorem liveAt_history {c₀ : Cluster} (h₀ : LiveAt c₀ k)
    (h : History k c₀ c) : LiveAt c k := by
  induction h with
  | refl => exact h₀
  | tail _ ht ih =>
      obtain ⟨t, rfl⟩ := ht
      exact liveAt_turn ih t

/-- **ONE RECONCILE**: the marks it leaves follow the spec exactly when the CR
    it finds fits. -/
theorem markedAt_reconcile (h : LiveAt c k) :
    MarkedAt (reconcileNow c k) k ↔ FitsAt c k := by
  obtain ⟨u, hk, hlive⟩ := h.cr
  obtain ⟨v, hv, hnext⟩ := cr_reconcileNow h.wellFormed hk hlive
  have hiff := marked_crNext hlive hnext
  constructor
  · intro hm w hw
    rw [← Option.some.inj (hk.symm.trans hw)]
    exact hiff.mp (hm v hv)
  · intro hf w hw
    rw [← Option.some.inj (hv.symm.trans hw)]
    exact hiff.mpr (hf u hk)

end Turns

/-- **MARKS**: along any history of edits and reconciles, a reconcile leaves
    marks that follow the spec exactly when the CR it finds fits, whatever it
    returns. -/
theorem markedAt_iff_fitsAt {c₀ c : Cluster} {k : Key} (h₀ : LiveAt c₀ k)
    (h : History k c₀ c) :
    MarkedAt (reconcileNow c k) k ↔ FitsAt c k :=
  markedAt_reconcile (liveAt_history h₀ h)

/-! ## A CR without marks -/

/-- The stored CR has not been marked invalid by anybody. -/
def Unmarked (c : Cluster) (k : Key) : Prop :=
  ∀ v, c.crs k = some v → v.obj.ann.lookup annError = none
    ∧ v.obj.ann.lookup annValid ≠ some "false"

/-- No turn marks it invalid. -/
theorem unmarked_turn {c : Cluster} {k : Key} (h : LiveAt c k)
    (hu : Unmarked c k) (t : Turn) : Unmarked (turn c k t) k := by
  obtain ⟨u, hk, hlive⟩ := h.cr
  obtain ⟨herr, hval⟩ := hu u hk
  cases t with
  | edit spec =>
      obtain ⟨v, hv, hobj⟩ :=
        Option.map_eq_some_iff.mp (content_editSpec hk hlive)
      intro w hw
      rw [← Option.some.inj (hv.symm.trans hw), hobj]
      exact ⟨herr, hval⟩
  | reconcile =>
      obtain ⟨v, hv, hnext⟩ := cr_reconcileNow h.wellFormed hk hlive
      intro w hw
      rw [← Option.some.inj (hv.symm.trans hw)]
      rw [crNext, hlive, Option.isSome_none, if_neg (by decide)] at hnext
      split at hnext
      · rw [← Option.some.inj hnext]
        exact ⟨herr, hval⟩
      · rw [← Option.some.inj hnext, error_crAfter, valid_crAfter]
        exact ⟨herr, by simp⟩

/-- The multiplicador in force is positive. -/
def PositiveAt (c : Cluster) (k : Key) : Prop :=
  ∀ v, c.crs k = some v → 0 < v.obj.multiplicador

/-- From a CR without marks only positive specs end up marked as they are:
    what is not valid is never said to be so. -/
theorem markedAt_iff_positiveAt {c₀ c : Cluster} {k : Key}
    (h₀ : LiveAt c₀ k) (hu : Unmarked c₀ k) (h : History k c₀ c) :
    MarkedAt (reconcileNow c k) k ↔ PositiveAt c k := by
  have hun : Unmarked c k := by
    induction h with
    | refl => exact hu
    | tail hrun ht ih =>
        obtain ⟨t, rfl⟩ := ht
        exact unmarked_turn (liveAt_history h₀ hrun) ih t
  rw [markedAt_reconcile (liveAt_history h₀ h)]
  constructor
  · intro hf v hv
    by_contra hneg
    have hfit := hf v hv
    rw [MarksFit, if_neg hneg] at hfit
    exact (hun v hv).2 hfit.1
  · intro hp v hv
    rw [MarksFit, if_pos (hp v hv)]
    exact (hun v hv).1

/-! ## A CR with multiplicador 0 -/

/-- A new CR that asks for multiplicador 0. -/
def zeroed : Multiplicador :=
  { created with spec := some (.obj [("multiplicador", .int 0)]) }

/-- The cluster that holds it. -/
def zeroSeen : Cluster := clusterOf [(createdKey, ⟨zeroed, 1⟩)] [] [] 1

theorem liveAt_clusterOf {u : Multiplicador} (hn : Stored createdKey u)
    (hlive : u.deletionTimestamp = none) :
    LiveAt (clusterOf [(createdKey, ⟨u, 1⟩)] [] [] 1) createdKey := by
  refine ⟨wellFormed_clusterOf ?_ (by simp) (by simp), ⟨u, 1⟩, ?_, hlive⟩
  · intro e he
    rw [List.mem_singleton.mp he]
    exact hn
  · rfl

theorem liveAt_zeroSeen : LiveAt zeroSeen createdKey :=
  liveAt_clusterOf (by decide) rfl

/-- The status says that it is invalid; the annotations say nothing. -/
theorem not_marked_zeroSeen :
    ¬ ∀ (c₀ c : Cluster) (k : Key), LiveAt c₀ k → History k c₀ c →
      outcomeOf c k = .nil → MarkedAt (reconcileNow c k) k := by
  intro h
  have hm := h zeroSeen zeroSeen createdKey liveAt_zeroSeen .refl (by decide)
  have hnone : ((reconcileNow zeroSeen createdKey).crs createdKey).map
      (fun v => v.obj.ann.lookup annValid) = some none := by decide
  obtain ⟨v, hv, hlook⟩ := Option.map_eq_some_iff.mp hnone
  have hvalid := (hm v hv).1
  rw [hlook] at hvalid
  exact absurd hvalid (by simp)

/-- A CR is reconciled, its user asks for multiplicador 0 for a while, in which
    it is reconciled, too, and then for a positive one again. -/
def zeroForAWhile : List Turn :=
  [.reconcile, .edit (some (.obj [("multiplicador", .int 0)])), .reconcile,
    .edit (specFor "a.com" "x")]

/-- Any list of turns is a history. -/
theorem history_of_turns (k : Key) (ts : List Turn) :
    ∀ c, History k c (ts.foldl (fun c t => turn c k t) c) := by
  induction ts with
  | nil => exact fun c => .refl
  | cons t ts ih => exact fun c => .head ⟨t, rfl⟩ (ih _)

/-- After that it is marked as it is asked for: the invalid spec has left no
    mark behind. -/
theorem marked_zeroForAWhile : MarkedAt (reconcileNow
    (zeroForAWhile.foldl (fun c t => turn c createdKey t) firstSeen)
    createdKey) createdKey := by
  refine (markedAt_iff_fitsAt (liveAt_clusterOf (by decide) rfl)
    (history_of_turns createdKey zeroForAWhile firstSeen)).mpr ?_
  have hfits : ((zeroForAWhile.foldl (fun c t => turn c createdKey t)
      firstSeen).crs createdKey).map (fun v =>
        (decide (0 < v.obj.multiplicador), v.obj.ann.lookup annError))
      = some (true, none) := by
    decide +kernel
  intro v hv
  rw [hv] at hfits
  obtain ⟨hpos, herror⟩ := Prod.mk.inj (Option.some.inj hfits)
  rw [MarksFit, if_pos (of_decide_eq_true hpos)]
  exact herror

end ValidityMarks
