import KubernetesUpRunning.ClusterRuns
import KubernetesUpRunning.QueueWorkers

/-! # From the informers to the queue

    The event handlers of operator v2.  An informer calls a handler with an
    `interface{}`: a CR, a Deployment, or the last known state of an object
    whose deletion it has missed.  The handler of the CRs unwraps the latter,
    those of the Deployments do not, and they take the first owner reference
    that has the kind or the group.  This file says which keys are added, and
    when they are those of the owners. -/

namespace Notifications

open ClusterRuns KubeObjects QueueWorkers Reconcile

/-! ## The handlers -/

/-- What a handler is called with. -/
inductive Delivered where
  | none
  | unstructured (u : Multiplicador)
  | deployment (d : Deployment)
  | deletedFinalStateUnknown (key : String) (obj : Delivered)

/-- The object as a `metav1.Object`: its namespace and name. -/
def Delivered.metaObj : Delivered → Option (String × String)
  | .unstructured u => some (u.ns, u.name)
  | .deployment d => some (d.ns, d.name)
  | _ => Option.none

/-- `enqueueObj`: the keys it adds. -/
def enqueueObj (obj : Delivered) : List String :=
  let metaObj :=
    match obj with
    | .deletedFinalStateUnknown _ d => d.metaObj
    | _ => Option.none
  let metaObj :=
    match obj.metaObj with
    | some o => some o
    | Option.none => metaObj
  match metaObj with
  | Option.none => []
  | some (ns, name) => [keyFor ns name]

/-- The body of the three handlers of the Deployments. -/
def enqueueDeployment : Delivered → List String
  | .deployment d => enqueueOwner d.ns d.ownerReferences
  | _ => []

/-- The handlers of the CRs. -/
def crAdd (obj : Delivered) : List String := enqueueObj obj
def crUpdate (_ new : Delivered) : List String := enqueueObj new
def crDelete (obj : Delivered) : List String := enqueueObj obj

/-- The handlers of the Deployments. -/
def deploymentAdd (obj : Delivered) : List String := enqueueDeployment obj
def deploymentUpdate (_ new : Delivered) : List String :=
  enqueueDeployment new
def deploymentDelete (obj : Delivered) : List String := enqueueDeployment obj

/-! ## What an informer reports -/

/-- What has happened to an object; a deletion that was missed is reported
    with the last known state. -/
inductive Event (α : Type) where
  | add (obj : α)
  | update (old new : α)
  | delete (obj : α)
  | tombstone (key : String) (obj : α)

/-- The object, in its new state. -/
def Event.subject {α : Type} : Event α → α
  | .add obj => obj
  | .update _ new => new
  | .delete obj => obj
  | .tombstone _ obj => obj

/-- The keys that are added for a CR. -/
def crKeys : Event Multiplicador → List String
  | .add u => crAdd (.unstructured u)
  | .update old new => crUpdate (.unstructured old) (.unstructured new)
  | .delete u => crDelete (.unstructured u)
  | .tombstone key u =>
      crDelete (.deletedFinalStateUnknown key (.unstructured u))

/-- The keys that are added for a Deployment. -/
def deploymentKeys : Event Deployment → List String
  | .add d => deploymentAdd (.deployment d)
  | .update old new => deploymentUpdate (.deployment old) (.deployment new)
  | .delete d => deploymentDelete (.deployment d)
  | .tombstone key d =>
      deploymentDelete (.deletedFinalStateUnknown key (.deployment d))

/-! ## Owners -/

/-- The group of an `apiVersion`, as `schema.ParseGroupVersion` reads it. -/
def apiGroup (apiVersion : String) : String :=
  if apiVersion.toList.count '/' = 1 then
    String.ofList (apiVersion.toList.takeWhile fun ch => decide (ch ≠ '/'))
  else ""

/-- The reference is to a Multiplicador CR. -/
def IsOwner (r : OwnerReference) : Prop :=
  r.kind = "Multiplicador" ∧ apiGroup r.apiVersion = gvrGroup

instance (r : OwnerReference) : Decidable (IsOwner r) :=
  inferInstanceAs (Decidable (_ ∧ _))

/-- An owner of `d` has this key. -/
def OwnerKey (d : Deployment) (key : String) : Prop :=
  ∃ r ∈ d.ownerReferences, IsOwner r ∧ key = keyFor d.ns r.name

/-- Only keys of owners are added, and one of them if there is an owner. -/
structure Wakes (d : Deployment) (keys : List String) : Prop where
  only : ∀ key ∈ keys, OwnerKey d key
  wakes : ∀ r ∈ d.ownerReferences, IsOwner r → keys ≠ []

/-- The keys that are added are those of all owners. -/
def WakesAll (d : Deployment) (keys : List String) : Prop :=
  ∀ key, key ∈ keys ↔ OwnerKey d key

/-- The first reference the handlers take has the name of an owner. -/
def Finds (d : Deployment) : Prop :=
  ∀ r, d.ownerReferences.find? hits = some r →
    ∃ r' ∈ d.ownerReferences, IsOwner r' ∧ r'.name = r.name

/-- And all owners have that name. -/
def FindsAll (d : Deployment) : Prop :=
  Finds d ∧ ∀ r, d.ownerReferences.find? hits = some r →
    ∀ r' ∈ d.ownerReferences, IsOwner r' → r'.name = r.name

/-- The Deployment has no owner. -/
def Unowned (d : Deployment) : Prop :=
  ∀ r ∈ d.ownerReferences, ¬ IsOwner r

/-- The condition on a notification. -/
def Reaches (cond : Deployment → Prop) : Event Deployment → Prop
  | .tombstone _ d => Unowned d
  | e => cond e.subject

theorem hits_of_isOwner {r : OwnerReference} (h : IsOwner r) :
    hits r = true := by
  rw [hits, h.1]
  rfl

theorem keyFor_inj {ns a b : String} (h : keyFor ns a = keyFor ns b) :
    a = b := by
  have hl := congrArg String.toList h
  simp only [keyFor, String.toList_append] at hl
  exact String.toList_inj.mp (List.append_cancel_left hl)

/-- The loop adds the key of the first hit. -/
theorem enqueueOwner_eq (ns : String) (rs : List OwnerReference) :
    enqueueOwner ns rs
      = ((rs.find? hits).map fun r => keyFor ns r.name).toList := by
  induction rs with
  | nil => rfl
  | cons r rest ih =>
      rw [enqueueOwner, List.find?_cons]
      cases hits r with
      | true => rfl
      | false => exact ih

/-- The key of a name is one of an owner exactly when the name is. -/
theorem ownerKey_iff {d : Deployment} {name : String} :
    OwnerKey d (keyFor d.ns name)
      ↔ ∃ r ∈ d.ownerReferences, IsOwner r ∧ r.name = name := by
  constructor
  · rintro ⟨r, hr, ho, hk⟩
    exact ⟨r, hr, ho, (keyFor_inj hk).symm⟩
  · rintro ⟨r, hr, ho, rfl⟩
    exact ⟨r, hr, ho, rfl⟩

/-- Without a hit there is no owner. -/
theorem unowned_of_find {d : Deployment}
    (h : d.ownerReferences.find? hits = none) : Unowned d := by
  intro r hr ho
  exact absurd (hits_of_isOwner ho) (List.find?_eq_none.mp h r hr)

/-- **AN OBJECT THAT IS DELIVERED**: the key of an owner is added exactly when
    the first hit has the name of one. -/
theorem wakes_iff_finds (d : Deployment) :
    Wakes d (enqueueOwner d.ns d.ownerReferences) ↔ Finds d := by
  rw [enqueueOwner_eq]
  cases hf : d.ownerReferences.find? hits with
  | none =>
      have hno := unowned_of_find hf
      refine iff_of_true ⟨?_, ?_⟩ ?_
      · intro key hk
        exact absurd hk (by simp)
      · exact fun r hr ho => absurd ho (hno r hr)
      · intro r hr
        rw [hf] at hr
        exact absurd hr (by simp)
  | some r =>
      have hsome : Finds d
          ↔ ∃ r' ∈ d.ownerReferences, IsOwner r' ∧ r'.name = r.name := by
        constructor
        · exact fun h => h r hf
        · rintro h r' hr'
          obtain rfl := Option.some.inj (hf.symm.trans hr')
          exact h
      rw [hsome, ← ownerKey_iff]
      constructor
      · exact fun h => h.only _ (by simp)
      · intro h
        refine ⟨fun key hk => ?_, fun _ _ _ => by simp⟩
        rw [show key = keyFor d.ns r.name by simpa using hk]
        exact h

/-- The keys of all owners are added exactly when they are one. -/
theorem wakesAll_iff_findsAll (d : Deployment) :
    WakesAll d (enqueueOwner d.ns d.ownerReferences) ↔ FindsAll d := by
  constructor
  · intro h
    refine ⟨(wakes_iff_finds d).mp ⟨fun key hk => (h key).mp hk, ?_⟩, ?_⟩
    · intro r hr ho hnil
      have hmem := (h _).mpr ⟨r, hr, ho, rfl⟩
      rw [hnil] at hmem
      exact absurd hmem (by simp)
    · intro r hf r' hr' ho
      have hmem := (h _).mpr ⟨r', hr', ho, rfl⟩
      rw [enqueueOwner_eq, hf] at hmem
      exact keyFor_inj (by simpa using hmem)
  · rintro ⟨hfinds, hall⟩ key
    refine ⟨((wakes_iff_finds d).mpr hfinds).only key, ?_⟩
    rintro ⟨r', hr', ho, rfl⟩
    rw [enqueueOwner_eq]
    cases hf : d.ownerReferences.find? hits with
    | none => exact absurd ho (unowned_of_find hf r' hr')
    | some r => simp [hall r hf r' hr' ho]

/-- Nothing is added for a missed deletion. -/
theorem wakes_nil_iff (d : Deployment) : Wakes d [] ↔ Unowned d := by
  constructor
  · exact fun h r hr ho => h.wakes r hr ho rfl
  · exact fun h => ⟨fun key hk => absurd hk (by simp),
      fun r hr ho => absurd ho (h r hr)⟩

theorem wakesAll_nil_iff (d : Deployment) : WakesAll d [] ↔ Unowned d := by
  constructor
  · intro h r hr ho
    exact absurd ((h _).mpr ⟨r, hr, ho, rfl⟩) (by simp)
  · intro h key
    refine iff_of_false (by simp) ?_
    rintro ⟨r, hr, ho, -⟩
    exact h r hr ho

/-- **WHO IS WOKEN**: for a CR its own key is added, in every form of the
    notification; for a Deployment the key of an owner, or of all owners, is
    added and no other exactly under the condition. -/
theorem wakes_iff_reaches (c : Event Multiplicador) (e : Event Deployment) :
    crKeys c = [keyFor c.subject.ns c.subject.name]
      ∧ (Wakes e.subject (deploymentKeys e) ↔ Reaches Finds e)
      ∧ (WakesAll e.subject (deploymentKeys e) ↔ Reaches FindsAll e) := by
  refine ⟨?_, ?_, ?_⟩
  · cases c <;> rfl
  · cases e with
    | add d => exact wakes_iff_finds d
    | update old new => exact wakes_iff_finds new
    | delete d => exact wakes_iff_finds d
    | tombstone key d => exact wakes_nil_iff d
  · cases e with
    | add d => exact wakesAll_iff_findsAll d
    | update old new => exact wakesAll_iff_findsAll new
    | delete d => exact wakesAll_iff_findsAll d
    | tombstone key d => exact wakesAll_nil_iff d

/-- The missed deletion of a Deployment wakes nobody, though its only owner is
    a Multiplicador; delivered as itself the same Deployment wakes it. -/
theorem not_wakes_tombstone :
    ¬ (∀ e : Event Deployment, Wakes e.subject (deploymentKeys e))
      ∧ deploymentKeys (.delete (newDeployment (newCR "web" "" "")))
        = ["default/web"] := by
  refine ⟨fun h => ?_, by decide⟩
  exact (h (.tombstone "default/web-multiplicador"
    (newDeployment (newCR "web" "" "")))).wakes _ (.head _) (by decide) rfl

/-- An owner of another kind in the same group, or of the same kind in another
    group, is taken before the owner behind it. -/
example :
    enqueueOwner "default"
      [⟨"other.io/v1", "Multiplicador", "x", "1", none, none⟩,
        ⟨"gz.com/v1", "Multiplicador", "web", "2", none, none⟩]
      = ["default/x"] := by decide

end Notifications
