import Mathlib.Logic.Basic

/-! # Programs that make calls

    A client of a server is a tree: it has returned, or it makes one call and
    goes on with what the call answers.  The same tree is run to its end
    against a server (`run`), or one call at a time among other clients
    (`WorkerPool`).

    `Obeys` is the one notion of correctness used for both: under a contract
    (what may be asked, what may be answered, what is known afterwards) every
    path of the tree asks only what is allowed. -/

namespace CallProgram

variable {Req : Type} {Resp : Req → Type} {α β γ σ S : Type}

/-- A client: returned, or waiting for the answer of its next call. -/
inductive Prog (Req : Type) (Resp : Req → Type) (α : Type) where
  | ret (a : α)
  | call (r : Req) (k : Resp r → Prog Req Resp α)

namespace Prog

/-- Go on with `f` when the first program returns. -/
def bind : Prog Req Resp α → (α → Prog Req Resp β) → Prog Req Resp β
  | .ret a, f => f a
  | .call r k, f => .call r (fun x => (k x).bind f)

instance : Monad (Prog Req Resp) where
  pure := .ret
  bind := bind

@[simp] theorem pure_eq (a : α) :
    (pure a : Prog Req Resp α) = .ret a := rfl

@[simp] theorem ret_bind (a : α) (f : α → Prog Req Resp β) :
    (.ret a : Prog Req Resp α) >>= f = f a := rfl

@[simp] theorem call_bind (r : Req) (k : Resp r → Prog Req Resp α)
    (f : α → Prog Req Resp β) :
    (.call r k : Prog Req Resp α) >>= f = .call r (fun x => k x >>= f) := rfl

/-- Sequencing is associative. -/
theorem bind_seq (p : Prog Req Resp α) (f : α → Prog Req Resp β)
    (g : β → Prog Req Resp γ) :
    p >>= f >>= g = p >>= fun a => f a >>= g := by
  induction p with
  | ret a => rfl
  | call r k ih => exact congrArg (Prog.call r) (funext ih)

/-- Run to the end against a server, every call answered at once. -/
def run (serve : σ → (r : Req) → σ × Resp r) :
    Prog Req Resp α → σ → σ × α
  | .ret a, s => (s, a)
  | .call r k, s => run serve (k (serve s r).2) (serve s r).1

/-- The first `n` calls against a server, and what is left of the program. -/
def advance (serve : σ → (r : Req) → σ × Resp r) :
    Nat → Prog Req Resp α → σ → σ × Prog Req Resp α
  | n + 1, .call r k, s => advance serve n (k (serve s r).2) (serve s r).1
  | _, p, s => (s, p)

/-- The first `n` calls all pass the test `ok`. -/
def passes (serve : σ → (r : Req) → σ × Resp r) (ok : σ → Req → Bool) :
    Nat → Prog Req Resp α → σ → Bool
  | n + 1, .call r k, s =>
      ok s r && passes serve ok n (k (serve s r).2) (serve s r).1
  | _, _, _ => true

variable (serve : σ → (r : Req) → σ × Resp r)

/-- Where everything passes, all calls do. -/
theorem passes_of_all {ok : σ → Req → Bool} (h : ∀ s r, ok s r = true)
    (n : Nat) (p : Prog Req Resp α) (s : σ) : passes serve ok n p s = true := by
  induction n generalizing p s with
  | zero => cases p <;> rfl
  | succ n ih =>
      cases p with
      | ret a => rfl
      | call r k =>
          rw [passes, h, ih]
          rfl

@[simp] theorem run_ret (a : α) (s : σ) :
    run serve (.ret a : Prog Req Resp α) s = (s, a) := rfl

@[simp] theorem run_call (r : Req) (k : Resp r → Prog Req Resp α) (s : σ) :
    run serve (.call r k) s
      = run serve (k (serve s r).2) (serve s r).1 := rfl

/-- Running a sequence is running its parts one after the other. -/
@[simp] theorem run_bind (p : Prog Req Resp α) (f : α → Prog Req Resp β) :
    ∀ s : σ, run serve (p >>= f) s
      = run serve (f (run serve p s).2) (run serve p s).1 := by
  induction p with
  | ret a => intro s; rfl
  | call r k ih => intro s; exact ih (serve s r).2 (serve s r).1

/-- What every call keeps, a run to the end keeps. -/
theorem run_keeps {I : σ → Prop} (h : ∀ s r, I s → I (serve s r).1)
    (p : Prog Req Resp α) : ∀ s : σ, I s → I (run serve p s).1 := by
  induction p with
  | ret a => intro s hs; exact hs
  | call r k ih => intro s hs; exact ih _ _ (h s r hs)

/-- So do its first calls. -/
theorem advance_keeps {I : σ → Prop} (h : ∀ s r, I s → I (serve s r).1)
    (n : Nat) (p : Prog Req Resp α) :
    ∀ s : σ, I s → I (advance serve n p s).1 := by
  induction n generalizing p with
  | zero => intro s hs; exact hs
  | succ n ih =>
      intro s hs
      cases p with
      | ret a => exact hs
      | call r k => exact ih _ _ (h s r hs)

end Prog

/-! ## Contracts -/

/-- What a client may ask in a state of knowledge, what it may be answered,
    and what it knows after the answer. -/
structure Contract (Req : Type) (Resp : Req → Type) (S : Type) where
  allowed : S → Req → Prop
  answers : S → (r : Req) → Resp r → Prop
  next : S → (r : Req) → Resp r → S

/-- Every path of the program asks only what the contract allows, and ends in
    the postcondition. -/
def Obeys (C : Contract Req Resp S) :
    Prog Req Resp α → S → (S → α → Prop) → Prop
  | .ret a, s, Q => Q s a
  | .call r k, s, Q =>
      C.allowed s r ∧ ∀ x, C.answers s r x → Obeys C (k x) (C.next s r x) Q

namespace Obeys

variable {C : Contract Req Resp S}

theorem ret {a : α} {s : S} {Q : S → α → Prop} (h : Q s a) :
    Obeys C (.ret a) s Q := h

theorem call {r : Req} {k : Resp r → Prog Req Resp α} {s : S}
    {Q : S → α → Prop} (hr : C.allowed s r)
    (hk : ∀ x, C.answers s r x → Obeys C (k x) (C.next s r x) Q) :
    Obeys C (.call r k) s Q := ⟨hr, hk⟩

/-- A weaker postcondition. -/
theorem mono {p : Prog Req Resp α} :
    ∀ {s : S} {Q Q' : S → α → Prop}, Obeys C p s Q →
      (∀ s a, Q s a → Q' s a) → Obeys C p s Q' := by
  induction p with
  | ret a => intro s Q Q' h hQ; exact hQ s a h
  | call r k ih =>
      intro s Q Q' h hQ
      exact ⟨h.1, fun x hx => ih x (h.2 x hx) hQ⟩

/-- Sequencing: the second program starts in what the first one ends in. -/
theorem bind {p : Prog Req Resp α} {f : α → Prog Req Resp β} :
    ∀ {s : S} {Q : S → β → Prop},
      Obeys C p s (fun s' a => Obeys C (f a) s' Q) →
      Obeys C (p >>= f) s Q := by
  induction p with
  | ret a => intro s Q h; exact h
  | call r k ih =>
      intro s Q h
      exact ⟨h.1, fun x hx => ih x (h.2 x hx)⟩

/-- Sequencing through a named middle condition. -/
theorem seq {p : Prog Req Resp α} {f : α → Prog Req Resp β} {s : S}
    {M : S → α → Prop} {Q : S → β → Prop} (hp : Obeys C p s M)
    (hf : ∀ s' a, M s' a → Obeys C (f a) s' Q) :
    Obeys C (p >>= f) s Q :=
  bind (hp.mono hf)

/-- What every allowed call keeps holds at the end. -/
theorem keep {I : S → Prop}
    (hI : ∀ s r x, I s → C.allowed s r → I (C.next s r x))
    {p : Prog Req Resp α} :
    ∀ {s : S} {Q : S → α → Prop}, Obeys C p s Q → I s →
      Obeys C p s (fun s' a => Q s' a ∧ I s') := by
  induction p with
  | ret a => intro s Q h hs; exact ⟨h, hs⟩
  | call r k ih =>
      intro s Q h hs
      exact ⟨h.1, fun x hx => ih x (h.2 x hx) (hI s r x hs h.1)⟩

/-- Fewer answers to expect. -/
theorem narrow {answers : S → (r : Req) → Resp r → Prop}
    (ha : ∀ s r x, answers s r x → C.answers s r x) {p : Prog Req Resp α} :
    ∀ {s : S} {Q : S → α → Prop}, Obeys C p s Q →
      Obeys ⟨C.allowed, answers, C.next⟩ p s Q := by
  induction p with
  | ret a => intro s Q h; exact h
  | call r k ih =>
      intro s Q h
      exact ⟨h.1, fun x hx => ih x (h.2 x (ha s r x hx))⟩

end Obeys

/-! ## A run to the end keeps what every allowed call keeps -/

/-- The invariant of a complete run: the server state and the client's
    knowledge stay related, and the postcondition holds at the end. -/
theorem run_of_obeys {C : Contract Req Resp S}
    {serve : σ → (r : Req) → σ × Resp r} {G : σ → S → Prop}
    (hstep : ∀ st s r, G st s → C.allowed s r →
      C.answers s r (serve st r).2
        ∧ G (serve st r).1 (C.next s r (serve st r).2))
    {p : Prog Req Resp α} :
    ∀ {st : σ} {s : S} {Q : S → α → Prop}, G st s → Obeys C p s Q →
      ∃ s', G (p.run serve st).1 s' ∧ Q s' (p.run serve st).2 := by
  induction p with
  | ret a => intro st s Q hG h; exact ⟨s, hG, h⟩
  | call r k ih =>
      intro st s Q hG h
      obtain ⟨hans, hG'⟩ := hstep st s r hG h.1
      exact ih _ hG' (h.2 _ hans)

/-! ## Programs that ask for some calls only -/

/-- The contract of a client that asks for nothing but `A`. -/
def asking (A : Req → Prop) : Contract Req Resp Unit where
  allowed _ r := A r
  answers _ _ _ := True
  next _ _ _ := ()

/-- Every path of the program asks for nothing but `A`. -/
def Asks (A : Req → Prop) (p : Prog Req Resp α) : Prop :=
  Obeys (asking A) p () fun _ _ => True

/-- More calls are allowed. -/
theorem Obeys.weaken {A B : Req → Prop} {Q : α → Prop}
    {p : Prog Req Resp α} (h : Obeys (asking A) p () fun _ a => Q a)
    (hAB : ∀ r, A r → B r) : Obeys (asking B) p () fun _ a => Q a := by
  induction p with
  | ret a => exact h
  | call r k ih => exact ⟨hAB r h.1, fun x hx => ih x (h.2 x hx)⟩

theorem Asks.mono {A B : Req → Prop} {p : Prog Req Resp α} (h : Asks A p)
    (hAB : ∀ r, A r → B r) : Asks B p :=
  Obeys.weaken (Q := fun _ => True) h hAB

theorem Asks.bind {A : Req → Prop} {p : Prog Req Resp α}
    {f : α → Prog Req Resp β} (hp : Asks A p) (hf : ∀ a, Asks A (f a)) :
    Asks A (p >>= f) :=
  Obeys.seq hp fun _ a _ => hf a

/-- **FRAME**: what the calls asked for keep, the run keeps, and it ends as
    every path of the program does. -/
theorem run_of_asking {A : Req → Prop} (serve : σ → (r : Req) → σ × Resp r)
    {I : σ → Prop} (hI : ∀ s r, A r → I s → I (serve s r).1) {Q : α → Prop}
    {p : Prog Req Resp α} (hp : Obeys (asking A) p () fun _ a => Q a)
    {s : σ} (hs : I s) : I (p.run serve s).1 ∧ Q (p.run serve s).2 := by
  obtain ⟨-, hG, hQ⟩ := run_of_obeys (G := fun s (_ : Unit) => I s)
    (fun st _ r hst hr => ⟨trivial, hI st r hr hst⟩) hs hp
  exact ⟨hG, hQ⟩

theorem run_of_asks {A : Req → Prop} (serve : σ → (r : Req) → σ × Resp r)
    {I : σ → Prop} (hI : ∀ s r, A r → I s → I (serve s r).1)
    {p : Prog Req Resp α} (hp : Asks A p) {s : σ} (hs : I s) :
    I (p.run serve s).1 :=
  (run_of_asking serve hI hp hs).1

/-- Two servers that do the same with the calls asked for. -/
theorem run_congr_of_asks {A : Req → Prop}
    {serve serve' : σ → (r : Req) → σ × Resp r}
    (h : ∀ s r, A r → serve s r = serve' s r) {p : Prog Req Resp α}
    (hp : Asks A p) : ∀ s : σ, p.run serve s = p.run serve' s := by
  induction p with
  | ret a => intro s; rfl
  | call r k ih =>
      intro s
      rw [Prog.run_call, Prog.run_call, h s r hp.1]
      exact ih _ (hp.2 _ trivial) _

end CallProgram
