import Mathlib.Data.List.Basic

/-! # Unwinding — what one observer sees of a shared system

    Many parties act on one state.  An `Observer` says which actions are its
    own, which states it cannot tell apart, and two things about single
    actions: the actions of others show it nothing, and its own actions do the
    same in states that look the same.  From these two it follows, for whole
    runs, that the observer sees the system it would have had for itself. -/

namespace Unwinding

variable {σ α : Type} {step : σ → α → σ}

/-- One observer, over the states of an invariant and the actions that are
    fit to be made. -/
structure Observer (step : σ → α → σ) where
  inv : σ → Prop
  fit : α → Prop
  own : α → Bool
  same : σ → σ → Prop
  equivalence : Equivalence same
  inv_step : ∀ s a, inv s → fit a → inv (step s a)
  frame : ∀ s a, inv s → fit a → own a = false → same s (step s a)
  consistent : ∀ s t a, inv s → inv t → fit a → own a = true → same s t →
    same (step s a) (step t a)

namespace Observer

variable (O : Observer step)

theorem inv_run {s : σ} (h : O.inv s) {as : List α}
    (hfit : ∀ a ∈ as, O.fit a) : O.inv (as.foldl step s) := by
  induction as generalizing s with
  | nil => exact h
  | cons a as ih =>
      exact ih (O.inv_step s a h (hfit a List.mem_cons_self))
        fun b hb => hfit b (List.mem_cons_of_mem a hb)

/-- **PURGE**: after a run the observer sees what it would see had only its
    own actions been made. -/
theorem same_purged {s t : σ} (hs : O.inv s) (ht : O.inv t)
    (h : O.same s t) {as : List α} (hfit : ∀ a ∈ as, O.fit a) :
    O.same (as.foldl step s) ((as.filter O.own).foldl step t) := by
  induction as generalizing s t with
  | nil => exact h
  | cons a as ih =>
      have ha : O.fit a := hfit a List.mem_cons_self
      have hrest : ∀ b ∈ as, O.fit b :=
        fun b hb => hfit b (List.mem_cons_of_mem a hb)
      have hs' : O.inv (step s a) := O.inv_step s a hs ha
      cases hown : O.own a with
      | true =>
          rw [List.filter_cons_of_pos hown]
          exact ih hs' (O.inv_step t a ht ha)
            (O.consistent s t a hs ht ha hown h) hrest
      | false =>
          rw [List.filter_cons_of_neg (by simp [hown])]
          have hback : O.same (step s a) s :=
            O.equivalence.symm (O.frame s a hs ha hown)
          exact ih hs' ht (O.equivalence.trans hback h) hrest

/-- **INTERLEAVINGS**: runs that hold the same actions of its own, in the same
    order, look the same, whatever the others do and whenever they do it. -/
theorem same_of_purged {s t : σ} (hs : O.inv s) (ht : O.inv t)
    (h : O.same s t) {as bs : List α} (hfit : ∀ a ∈ as, O.fit a)
    (hfit' : ∀ b ∈ bs, O.fit b) (hown : as.filter O.own = bs.filter O.own) :
    O.same (as.foldl step s) (bs.foldl step t) := by
  have hleft := O.same_purged hs hs (O.equivalence.refl s) hfit
  have hright := O.same_purged ht hs (O.equivalence.symm h) hfit'
  rw [hown] at hleft
  exact O.equivalence.trans hleft (O.equivalence.symm hright)

end Observer

end Unwinding
