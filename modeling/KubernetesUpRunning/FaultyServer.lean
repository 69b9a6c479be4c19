import KubernetesUpRunning.CallProgram
import Mathlib.Logic.Function.Basic

/-! # A server whose calls may fail

    Every call of a client has a fate: it is answered as the server answers it,
    it fails before it arrives, it is carried out and its answer is lost, or
    somebody else's write lands right before it.  The fates of the calls to
    come are part of the state, one stream for every kind of call, so a client
    is run against a faulty server as it is against any other.  The calls that
    the server carried out are recorded. -/

namespace FaultyServer

open CallProgram

variable {Req Op σ E α : Type} {Payload : Req → Type}

/-- How one call fares. -/
inductive Fate (σ E : Type) where
  | served
  | failed (e : E)
  | lost (e : E)
  | overtaken (f : σ → σ)

namespace Fate

/-- The call gets to the server. -/
def arrives : Fate σ E → Bool
  | failed _ => false
  | _ => true

/-- What the other writers leave before the call. -/
def others (s : σ) : Fate σ E → σ
  | overtaken f => f s
  | _ => s

/-- The client gets the answer of the server. -/
def answered : Fate σ E → Bool
  | served => true
  | overtaken _ => true
  | _ => false

theorem arrives_of_answered {x : Fate σ E} (h : x.answered = true) :
    x.arrives = true := by
  cases x with
  | served => rfl
  | failed e => exact absurd h (by simp [answered])
  | lost e => rfl
  | overtaken f => rfl

end Fate

/-- The server, the fates of the calls to come, and the calls it has carried
    out. -/
structure Site (Req Op σ E : Type) where
  state : σ
  fates : Op → Nat → Fate σ E
  done : List Req

/-- What becomes of a call with a given fate. -/
def meet (serve : σ → (r : Req) → σ × Except E (Payload r)) (s : σ)
    (r : Req) : Fate σ E → σ × Except E (Payload r)
  | .served => serve s r
  | .failed e => (s, .error e)
  | .lost e => ((serve s r).1, .error e)
  | .overtaken f => serve (f s) r

/-- The server carries the call out. -/
def carriesOut (serve : σ → (r : Req) → σ × Except E (Payload r)) (s : σ)
    (r : Req) (x : Fate σ E) : Bool :=
  x.arrives && (serve (x.others s) r).2.isOk

/-- The faulty server: a call takes the next fate of its kind. -/
def faulty [DecidableEq Op] (serve : σ → (r : Req) → σ × Except E (Payload r))
    (opOf : Req → Op) (s : Site Req Op σ E) (r : Req) :
    Site Req Op σ E × Except E (Payload r) :=
  let x := s.fates (opOf r) 0
  (⟨(meet serve s.state r x).1,
    Function.update s.fates (opOf r) fun n => s.fates (opOf r) (n + 1),
    if carriesOut serve s.state r x then r :: s.done else s.done⟩,
    (meet serve s.state r x).2)

section Call

variable [DecidableEq Op] {serve : σ → (r : Req) → σ × Except E (Payload r)}
  {opOf : Req → Op} {s : Site Req Op σ E} {r : Req}

theorem faulty_fates_of_ne {op : Op} (h : op ≠ opOf r) :
    (faulty serve opOf s r).1.fates op = s.fates op :=
  Function.update_of_ne h _ _

theorem mem_done_faulty {x : Req} :
    x ∈ (faulty serve opOf s r).1.done
      ↔ (x = r ∧ carriesOut serve s.state r (s.fates (opOf r) 0) = true)
        ∨ x ∈ s.done := by
  show x ∈ (if _ then _ else _) ↔ _
  split
  · rename_i h
    rw [List.mem_cons, h]
    simp
  · rename_i h
    simp [h]

/-- The server moves, from what the others leave, exactly when the call
    arrives. -/
theorem meet_state_others {x : Fate σ E} {s : σ} :
    (meet serve s r x).1
      = if x.arrives then (serve (x.others s) r).1 else x.others s := by
  cases x <;> rfl

/-- A call succeeds exactly when its answer comes back and says so. -/
theorem meet_ok_others {x : Fate σ E} {s : σ} {a : Payload r} :
    (meet serve s r x).2 = .ok a
      ↔ x.answered = true ∧ (serve (x.others s) r).2 = .ok a := by
  cases x with
  | served => exact ⟨fun h => ⟨rfl, h⟩, fun h => h.2⟩
  | failed e => exact iff_of_false (by simp [meet]) (by simp [Fate.answered])
  | lost e => exact iff_of_false (by simp [meet]) (by simp [Fate.answered])
  | overtaken f => exact ⟨fun h => ⟨rfl, h⟩, fun h => h.2⟩

end Call

/-! ## Fates without another writer -/

/-- Nobody else writes. -/
def Alone (fates : Op → Nat → Fate σ E) : Prop :=
  ∀ op n f, fates op n ≠ .overtaken f

theorem Alone.faulty [DecidableEq Op]
    {serve : σ → (r : Req) → σ × Except E (Payload r)} {opOf : Req → Op}
    {s : Site Req Op σ E} (h : Alone s.fates) (r : Req) :
    Alone (faulty serve opOf s r).1.fates := by
  intro op n f
  by_cases hop : op = opOf r
  · show Function.update s.fates (opOf r) _ op n ≠ _
    rw [hop, Function.update_self]
    exact h _ _ f
  · rw [faulty_fates_of_ne hop]
    exact h op n f

section Alone

variable {serve : σ → (r : Req) → σ × Except E (Payload r)} {s : σ} {r : Req}
  {x : Fate σ E}

theorem others_of_alone (hx : ∀ f, x ≠ .overtaken f) : x.others s = s := by
  cases x with
  | served => rfl
  | failed e => rfl
  | lost e => rfl
  | overtaken f => exact absurd rfl (hx f)

/-- Then the server moves exactly when the call arrives. -/
theorem meet_state (hx : ∀ f, x ≠ .overtaken f) :
    (meet serve s r x).1 = if x.arrives then (serve s r).1 else s := by
  rw [meet_state_others, others_of_alone hx]

/-- A call succeeds exactly when its answer comes back and says so. -/
theorem meet_ok {a : Payload r} (hx : ∀ f, x ≠ .overtaken f) :
    (meet serve s r x).2 = .ok a
      ↔ x.answered = true ∧ (serve s r).2 = .ok a := by
  rw [meet_ok_others, others_of_alone hx]

end Alone

end FaultyServer
