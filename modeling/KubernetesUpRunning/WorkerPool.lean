import KubernetesUpRunning.CallProgram
import Mathlib.Logic.Function.Basic
import Mathlib.Logic.Relation

/-! # Pools of clients

    Any number of clients share one store.  One step is one call of one client
    (atomic), a move of the environment, or the start of a new program by a
    client that has returned.  `Pool.invariant` packages the induction over
    runs: when every call that a contract allows keeps a relation between the
    store and what the clients know, and every program that is started obeys
    the contract, then the relation holds in every reachable configuration. -/

namespace WorkerPool

open CallProgram

variable {ι Req : Type} {Resp : Req → Type} {α σ S : Type} [DecidableEq ι]

/-- A configuration: the shared store and the remaining program of every
    client. -/
structure Pool (ι Req : Type) (Resp : Req → Type) (α σ : Type) where
  store : σ
  prog : ι → Prog Req Resp α

/-- Client `i` runs to its end, nobody else calling in between. -/
def Pool.finish (serve : σ → (r : Req) → σ × Resp r)
    (P : Pool ι Req Resp α σ) (i : ι) : Pool ι Req Resp α σ :=
  let r := (P.prog i).run serve P.store
  ⟨r.1, Function.update P.prog i (.ret r.2)⟩

/-- Client `i` makes its next `n` calls, nobody else calling in between. -/
def Pool.calls (serve : σ → (r : Req) → σ × Resp r)
    (P : Pool ι Req Resp α σ) (i : ι) (n : Nat) : Pool ι Req Resp α σ :=
  let r := (P.prog i).advance serve n P.store
  ⟨r.1, Function.update P.prog i r.2⟩

/-- The rules a pool runs by: how a call of a client is answered, what else
    may happen to the store, and what a returned client may start next. -/
structure Rules (ι Req : Type) (Resp : Req → Type) (α σ : Type) where
  serve : ι → σ → (r : Req) → σ → Resp r → Prop
  env : σ → σ → Prop
  starts : ι → α → Prog Req Resp α → Prop

/-- One step of a pool. -/
inductive Step (R : Rules ι Req Resp α σ) :
    Pool ι Req Resp α σ → Pool ι Req Resp α σ → Prop where
  | call {P : Pool ι Req Resp α σ} (i : ι) (r : Req)
      (k : Resp r → Prog Req Resp α) (x : Resp r) (st : σ)
      (hp : P.prog i = .call r k) (hs : R.serve i P.store r st x) :
      Step R P ⟨st, Function.update P.prog i (k x)⟩
  | env {P : Pool ι Req Resp α σ} (st : σ) (hs : R.env P.store st) :
      Step R P ⟨st, P.prog⟩
  | start {P : Pool ι Req Resp α σ} (i : ι) (a : α) (p : Prog Req Resp α)
      (hp : P.prog i = .ret a) (hs : R.starts i a p) :
      Step R P ⟨P.store, Function.update P.prog i p⟩

/-- Runs of a pool: any number of steps. -/
abbrev Reaches (R : Rules ι Req Resp α σ) :
    Pool ι Req Resp α σ → Pool ι Req Resp α σ → Prop :=
  Relation.ReflTransGen (Step R)

/-- What the clients know fits the store and their remaining programs. -/
def Fits (C : Contract Req Resp S) (G : σ → (ι → S) → Prop)
    (Q : ι → S → α → Prop) (P : Pool ι Req Resp α σ) : Prop :=
  ∃ g : ι → S, G P.store g ∧ ∀ i, Obeys C (P.prog i) (g i) (Q i)

/-- What the rules of a pool must keep for a contract to hold in all runs. -/
structure Keeps (R : Rules ι Req Resp α σ) (C : Contract Req Resp S)
    (G : σ → (ι → S) → Prop) (Q : ι → S → α → Prop) : Prop where
  call : ∀ st g i r st' x, G st g → C.allowed (g i) r →
    R.serve i st r st' x →
    C.answers (g i) r x ∧ G st' (Function.update g i (C.next (g i) r x))
  env : ∀ st g st', G st g → R.env st st' → G st' g
  start : ∀ st g i a p, G st g → Q i (g i) a → R.starts i a p →
    ∃ s, G st (Function.update g i s) ∧ Obeys C p s (Q i)

/-- One step keeps the fit. -/
theorem fits_step {R : Rules ι Req Resp α σ} {C : Contract Req Resp S}
    {G : σ → (ι → S) → Prop} {Q : ι → S → α → Prop}
    (hK : Keeps R C G Q) {P P' : Pool ι Req Resp α σ} (h : Step R P P')
    (hF : Fits C G Q P) : Fits C G Q P' := by
  obtain ⟨g, hG, hobey⟩ := hF
  cases h with
  | call i r k x st hp hs =>
      have hi := hobey i
      rw [hp] at hi
      obtain ⟨hans, hG'⟩ := hK.call P.store g i r st x hG hi.1 hs
      refine ⟨Function.update g i (C.next (g i) r x), hG', ?_⟩
      intro j
      by_cases hj : j = i
      · subst hj
        simpa using hi.2 x hans
      · simpa [Function.update_of_ne hj] using hobey j
  | env st hs => exact ⟨g, hK.env P.store g st hG hs, hobey⟩
  | start i a p hp hs =>
      have hi := hobey i
      rw [hp] at hi
      obtain ⟨s, hG', hobey'⟩ := hK.start P.store g i a p hG hi hs
      refine ⟨Function.update g i s, hG', ?_⟩
      intro j
      by_cases hj : j = i
      · subst hj
        simpa using hobey'
      · simpa [Function.update_of_ne hj] using hobey j

/-- **RUN INVARIANT**: a fit at the start is a fit in every reachable
    configuration. -/
theorem fits_of_reaches {R : Rules ι Req Resp α σ} {C : Contract Req Resp S}
    {G : σ → (ι → S) → Prop} {Q : ι → S → α → Prop}
    (hK : Keeps R C G Q) {P P' : Pool ι Req Resp α σ} (h : Reaches R P P')
    (hF : Fits C G Q P) : Fits C G Q P' := by
  induction h with
  | refl => exact hF
  | tail _ hstep ih => exact fits_step hK hstep ih

section Alone

variable {R : Rules ι Req Resp α σ} {serve : σ → (r : Req) → σ × Resp r} {i : ι}

/-- One call of a client. -/
theorem step_call (prog : ι → Prog Req Resp α) (r : Req)
    (k : Resp r → Prog Req Resp α) (st : σ)
    (hR : R.serve i st r (serve st r).1 (serve st r).2) :
    Step R ⟨st, Function.update prog i (.call r k)⟩
      ⟨(serve st r).1, Function.update prog i (k (serve st r).2)⟩ := by
  have hs := Step.call (R := R)
    (P := ⟨st, Function.update prog i (.call r k)⟩) i r k
    (serve st r).2 (serve st r).1 (Function.update_self _ _ _) hR
  rw [Function.update_idem] at hs
  exact hs

/-- A client that nobody interrupts: its first calls are a run of the pool if
    the rules allow those that pass and all of them do. -/
theorem reaches_advance {ok : σ → Req → Bool}
    (hR : ∀ st r, ok st r = true → R.serve i st r (serve st r).1 (serve st r).2)
    (prog : ι → Prog Req Resp α) (n : Nat) :
    ∀ (p : Prog Req Resp α) (st : σ), p.passes serve ok n st = true →
      Reaches R ⟨st, Function.update prog i p⟩
        ⟨(p.advance serve n st).1,
          Function.update prog i (p.advance serve n st).2⟩ := by
  induction n with
  | zero => intro p st _; exact .refl
  | succ n ih =>
      intro p st hp
      cases p with
      | ret a => exact .refl
      | call r k =>
          obtain ⟨hr, hk⟩ := Bool.and_eq_true_iff.mp hp
          exact .head (step_call prog r k st (hR st r hr))
            (ih (k (serve st r).2) (serve st r).1 hk)

/-- Client `i` makes `n` calls that pass. -/
theorem reaches_passing {ok : σ → Req → Bool}
    (hR : ∀ st r, ok st r = true → R.serve i st r (serve st r).1 (serve st r).2)
    (P : Pool ι Req Resp α σ) (n : Nat)
    (h : (P.prog i).passes serve ok n P.store = true) :
    Reaches R P (P.calls serve i n) := by
  have hrun := reaches_advance hR P.prog n (P.prog i) P.store h
  rwa [Function.update_eq_self] at hrun

variable (hR : ∀ st r, R.serve i st r (serve st r).1 (serve st r).2)
include hR

/-- Its run to the end is a run of the pool, too. -/
theorem reaches_run (prog : ι → Prog Req Resp α) (p : Prog Req Resp α) :
    ∀ st : σ, Reaches R ⟨st, Function.update prog i p⟩
      ⟨(p.run serve st).1,
        Function.update prog i (.ret (p.run serve st).2)⟩ := by
  induction p with
  | ret a => intro st; exact .refl
  | call r k ih =>
      intro st
      exact .head (step_call prog r k st (hR st r))
        (ih (serve st r).2 (serve st r).1)

/-- Client `i` runs to its end. -/
theorem reaches_finish (P : Pool ι Req Resp α σ) :
    Reaches R P (P.finish serve i) := by
  have h := reaches_run hR P.prog (P.prog i) P.store
  rwa [Function.update_eq_self] at h

/-- Client `i` makes `n` calls. -/
theorem reaches_calls (P : Pool ι Req Resp α σ) (n : Nat) :
    Reaches R P (P.calls serve i n) := by
  have h : (P.prog i).passes serve (fun _ _ => true) n P.store = true :=
    Prog.passes_of_all serve (fun _ _ => rfl) n _ _
  exact reaches_passing (fun st r _ => hR st r) P n h

end Alone

end WorkerPool
