import KubernetesUpRunning.ClusterRole
import KubernetesUpRunning.ValidityMarks

/-! # The validity marks under the ClusterRole

    Where status writes are forbidden the invalid branch falls back to the
    main update, which does store annotations.  The mark of validity then
    follows the spec of every reconcile.  The error mark is set by the invalid
    branch and taken away by nobody: along any history it says that some
    reconcile met an invalid spec, not that the spec is invalid. -/

namespace RoleMarks

open ApiServer AssocMap Bookkeeping ClusterRole ClusterRuns FixedPoint GoJson
open Idempotence KubeObjects Reconcile ReconcileEffect ReconcileRun ServerSteps
open ValidityMarks VersionedStore

/-! ## One reconcile -/

/-- What a reconcile under the role stores of a live CR. -/
def crNextUnder (u : Multiplicador) (P : Key → Option Fields) : Multiplicador :=
  if u.multiplicador ≤ 0 then mainWrite (invalidated u) u else crUnder u P

section Reconcile

variable {c : Cluster} {k : Key}

theorem cr_reconcileUnder (h : WellFormed c) {u : Versioned Multiplicador}
    (hk : c.crs k = some u) (hlive : u.obj.deletionTimestamp = none) :
    ∃ v, (reconcileUnder c k).crs k = some v
      ∧ v.obj = crNextUnder u.obj (content c.proxies) := by
  have hkey := (h.stored k u hk).key
  rw [crNextUnder]
  by_cases hle : u.obj.multiplicador ≤ 0
  · rw [if_pos hle, reconcileUnder_invalid hk hlive hle, hkey]
    have hc : content (writeCR c k u.version
        (admitCR (invalidated u.obj))).crs k
        = some (mainWrite (invalidated u.obj) u.obj) := by
      rw [content_writeCR hk, admitCR_live hlive]
    exact Option.map_eq_some_iff.mp hc
  · rw [if_neg hle]
    obtain ⟨n, hv, -⟩ :=
      (since_reconcileUnder h hk hlive (by omega)).stored
    exact ⟨_, hv, rfl⟩

/-- A live CR stays live and keeps its spec. -/
theorem crNextUnder_keeps (u : Multiplicador) (P : Key → Option Fields) :
    (crNextUnder u P).deletionTimestamp = u.deletionTimestamp
      ∧ (crNextUnder u P).multiplicador = u.multiplicador := by
  rw [crNextUnder]
  split
  · exact ⟨rfl, rfl⟩
  · have hcont := (continues_crUnder u P).1
    exact ⟨deletionTimestamp_of_continues hcont,
      multiplicador_of_continues hcont⟩

/-- The mark of validity follows the spec. -/
theorem valid_crNextUnder (u : Multiplicador) (P : Key → Option Fields) :
    (crNextUnder u P).ann.lookup annValid
      = some (if 0 < u.multiplicador then "true" else "false") := by
  rw [crNextUnder]
  by_cases hle : u.multiplicador ≤ 0
  · rw [if_pos hle, if_neg (by omega)]
    show (setKey annError invalidText
      (setKey annValid "false" u.ann)).lookup annValid = _
    rw [lookup_setKey_of_ne (by decide), lookup_setKey_self]
  · rw [if_neg hle, if_pos (by omega)]
    obtain ⟨a, ha, hv, -⟩ :=
      annotated_eq_self_iff.mp (continues_crUnder u P).2.1
    rw [Multiplicador.ann, ha]
    exact hv

theorem error_crUnder (u : Multiplicador) (P : Key → Option Fields) :
    (crUnder u P).ann.lookup annError = u.ann.lookup annError := by
  rw [crUnder]
  split
  · exact error_annotated u
  · rcases recordWrite_cases u P with h | ⟨o, h⟩
    · rw [h]
    · rw [h, error_settled]

/-- The error mark is set by an invalid spec and stays otherwise. -/
theorem error_crNextUnder (u : Multiplicador) (P : Key → Option Fields) :
    (crNextUnder u P).ann.lookup annError
      = if 0 < u.multiplicador then u.ann.lookup annError
        else some invalidText := by
  rw [crNextUnder]
  by_cases hle : u.multiplicador ≤ 0
  · rw [if_pos hle, if_neg (by omega)]
    show (setKey annError invalidText
      (setKey annValid "false" u.ann)).lookup annError = _
    rw [lookup_setKey_self]
  · rw [if_neg hle, if_pos (by omega), error_crUnder]

end Reconcile

/-! ## Histories -/

/-- The cluster after a turn under the role. -/
def turnUnder (k : Key) (c : Cluster) : Turn → Cluster
  | .edit spec => editSpec c k spec
  | .reconcile => reconcileUnder c k

/-- Some reconcile of the history finds a spec that is not valid. -/
def metInvalid (k : Key) : Cluster → List Turn → Prop
  | _, [] => False
  | c, t :: ts => (t = .reconcile ∧ ¬ PositiveAt c k)
      ∨ metInvalid k (turnUnder k c t) ts

/-- The stored CR has the error mark. -/
def ErrorAt (c : Cluster) (k : Key) : Prop :=
  ∃ v, c.crs k = some v ∧ (v.obj.ann.lookup annError).isSome = true

/-- The mark of validity of the stored CR follows its spec. -/
def ValidAt (c : Cluster) (k : Key) : Prop :=
  ∃ v, c.crs k = some v ∧ v.obj.ann.lookup annValid
    = some (if 0 < v.obj.multiplicador then "true" else "false")

section Turns

variable {c : Cluster} {k : Key}

theorem liveAt_turnUnder (h : LiveAt c k) (t : Turn) :
    LiveAt (turnUnder k c t) k := by
  obtain ⟨u, hk, hlive⟩ := h.cr
  cases t with
  | edit spec => exact liveAt_turn h (.edit spec)
  | reconcile =>
      obtain ⟨v, hv, hobj⟩ := cr_reconcileUnder h.wellFormed hk hlive
      refine ⟨wellFormed_reconcileUnder h.wellFormed, v, hv, ?_⟩
      rw [hobj, (crNextUnder_keeps u.obj _).1]
      exact hlive

/-- **ONE TURN**: the error mark appears when a reconcile meets an invalid
    spec, and only then. -/
theorem errorAt_turnUnder (h : LiveAt c k) (t : Turn) :
    ErrorAt (turnUnder k c t) k
      ↔ ErrorAt c k ∨ (t = .reconcile ∧ ¬ PositiveAt c k) := by
  obtain ⟨u, hk, hlive⟩ := h.cr
  have hbefore : ErrorAt c k
      ↔ (u.obj.ann.lookup annError).isSome = true := by
    constructor
    · rintro ⟨w, hw, he⟩
      rw [Option.some.inj (hk.symm.trans hw)]
      exact he
    · exact fun he => ⟨u, hk, he⟩
  rw [hbefore]
  cases t with
  | edit spec =>
      have hedit : content (editSpec c k spec).crs k
          = some { u.obj with spec := spec } := content_editSpec hk hlive
      obtain ⟨v, hv, hobj⟩ := Option.map_eq_some_iff.mp hedit
      have hann : v.obj.ann = u.obj.ann := by rw [hobj]; rfl
      rw [← hann]
      constructor
      · rintro ⟨w, hw, he⟩
        rw [Option.some.inj (hv.symm.trans hw)]
        exact Or.inl he
      · rintro (he | ⟨he, -⟩)
        · exact ⟨v, hv, he⟩
        · exact absurd he (by simp)
  | reconcile =>
      obtain ⟨v, hv, hobj⟩ := cr_reconcileUnder h.wellFormed hk hlive
      have hpos : PositiveAt c k ↔ 0 < u.obj.multiplicador := by
        constructor
        · exact fun hp => hp u hk
        · intro hp w hw
          rw [← Option.some.inj (hk.symm.trans hw)]
          exact hp
      have hafter : ErrorAt (turnUnder k c .reconcile) k
          ↔ (v.obj.ann.lookup annError).isSome = true := by
        constructor
        · rintro ⟨w, hw, he⟩
          rw [Option.some.inj (hv.symm.trans hw)]
          exact he
        · exact fun he => ⟨v, hv, he⟩
      rw [hafter, hobj, error_crNextUnder, hpos]
      split
      · rename_i hp
        simp [hp]
      · rename_i hp
        simp [hp]

/-- After a reconcile the mark of validity is right. -/
theorem validAt_reconcileUnder (h : LiveAt c k) :
    ValidAt (reconcileUnder c k) k := by
  obtain ⟨u, hk, hlive⟩ := h.cr
  obtain ⟨v, hv, hobj⟩ := cr_reconcileUnder h.wellFormed hk hlive
  refine ⟨v, hv, ?_⟩
  rw [hobj, valid_crNextUnder, (crNextUnder_keeps u.obj _).2]

theorem liveAt_turnsUnder (h : LiveAt c k) (ts : List Turn) :
    LiveAt (ts.foldl (turnUnder k) c) k := by
  induction ts generalizing c with
  | nil => exact h
  | cons t ts ih => exact ih (liveAt_turnUnder h t)

/-- **THE ERROR MARK IS A MEMORY**: it says that some reconcile of the history
    met an invalid spec. -/
theorem errorAt_turnsUnder (h : LiveAt c k) (ts : List Turn) :
    ErrorAt (ts.foldl (turnUnder k) c) k
      ↔ ErrorAt c k ∨ metInvalid k c ts := by
  induction ts generalizing c with
  | nil => exact (or_iff_left id).symm
  | cons t ts ih =>
      rw [List.foldl_cons, ih (liveAt_turnUnder h t), errorAt_turnUnder h,
        metInvalid, or_assoc]

end Turns

/-- The cluster after a history under the role. -/
def after (k : Key) (c : Cluster) (ts : List Turn) : Cluster :=
  ts.foldl (turnUnder k) c

/-- **MARKS UNDER THE ROLE**: along any history of edits and reconciles of a
    live CR that ends in a reconcile, the mark of validity follows the spec, and
    the error mark is there exactly when it was there at the start or some
    reconcile, the last one or an earlier one, met an invalid spec. -/
theorem marks_under_role {c : Cluster} {k : Key} (h : LiveAt c k)
    (ts : List Turn) :
    ValidAt (after k c (ts ++ [Turn.reconcile])) k
      ∧ (ErrorAt (after k c (ts ++ [Turn.reconcile])) k
        ↔ ErrorAt c k ∨ metInvalid k c (ts ++ [Turn.reconcile])) := by
  refine ⟨?_, errorAt_turnsUnder h _⟩
  rw [after, List.foldl_append]
  exact validAt_reconcileUnder (liveAt_turnsUnder h ts)

/-- A CR that asks for 0 is put right after its first reconcile. -/
def putRight : List Turn := [.reconcile, .edit (specFor "a.com" "calc")]

theorem marks_under_role_zeroSeen :
    ValidAt (after createdKey zeroSeen (putRight ++ [Turn.reconcile]))
        createdKey
      ∧ (ErrorAt (after createdKey zeroSeen (putRight ++ [Turn.reconcile]))
          createdKey
        ↔ ErrorAt zeroSeen createdKey
          ∨ metInvalid createdKey zeroSeen (putRight ++ [Turn.reconcile])) :=
  marks_under_role liveAt_zeroSeen putRight

end RoleMarks
