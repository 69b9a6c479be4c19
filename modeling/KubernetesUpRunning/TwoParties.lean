import Mathlib.Logic.Function.Basic

/-! # Two parties that each leave and then join

    Each of two parties makes two moves on a shared state: it leaves, perhaps
    several times, and then joins.  A `Word` is a state that the moves of both
    can produce in any order.  When leaving is idempotent and the two ways of
    leaving commute, few words are left (`forms_of_joined`): one party after
    the other, or both have left before either joins.  `serial_of_free` and
    `serial_of_oneWay` say when the latter is one party after the other, too. -/

namespace TwoParties

variable {X : Type}

/-- How far a party has come. -/
inductive Progress where
  | fresh
  | left
  | joined
  deriving DecidableEq

/-- The moves of a party, when it may join, and whether it may leave once
    more. -/
structure Party (X : Type) where
  leave : X → X
  join : X → X
  ready : X → Prop
  again : Prop

/-- The states that the moves of two parties lead to from `x₀`; both are away
    at once, having left and not joined, only if `mix`. -/
inductive Word (p : Bool → Party X) (mix : Prop) (x₀ : X) :
    (Bool → Progress) → X → Prop where
  | start : Word p mix x₀ (fun _ => .fresh) x₀
  | leave {g : Bool → Progress} {x : X} (i : Bool) (h : Word p mix x₀ g x)
      (hi : g i = .fresh) (hm : g (!i) = .left → mix) :
      Word p mix x₀ (Function.update g i .left) ((p i).leave x)
  | again {g : Bool → Progress} {x : X} (i : Bool) (h : Word p mix x₀ g x)
      (hi : g i = .left) (ha : (p i).again) : Word p mix x₀ g ((p i).leave x)
  | join {g : Bool → Progress} {x : X} (i : Bool) (h : Word p mix x₀ g x)
      (hi : g i = .left) (hr : (p i).ready x) :
      Word p mix x₀ (Function.update g i .joined) ((p i).join x)

/-- First `i`, then the other. -/
def serial (p : Bool → Party X) (x₀ : X) (i : Bool) : X :=
  (p !i).join ((p !i).leave ((p i).join ((p i).leave x₀)))

/-- Both have left. -/
def bothLeft (p : Bool → Party X) (x₀ : X) (i : Bool) : X :=
  (p i).leave ((p !i).leave x₀)

/-- Leaving twice is leaving once, and it does not matter who leaves first. -/
structure Tidy (p : Bool → Party X) : Prop where
  idem : ∀ i x, (p i).leave ((p i).leave x) = (p i).leave x
  comm : ∀ i x, (p i).leave ((p !i).leave x) = (p !i).leave ((p i).leave x)

/-! ## The forms of a word -/

/-- What a state can look like, `i` being the one who joins first. -/
inductive Form (p : Bool → Party X) (mix : Prop) (x₀ : X) :
    (Bool → Progress) → X → Prop where
  | nobody {g : Bool → Progress} (h : ∀ j, g j = .fresh) : Form p mix x₀ g x₀
  | one {g : Bool → Progress} (i : Bool) (hi : g i = .left)
      (hj : g (!i) = .fresh) : Form p mix x₀ g ((p i).leave x₀)
  | both {g : Bool → Progress} (i : Bool) (h : ∀ j, g j = .left) (hm : mix) :
      Form p mix x₀ g (bothLeft p x₀ i)
  | alone {g : Bool → Progress} (i : Bool) (hi : g i = .joined)
      (hj : g (!i) = .fresh) : Form p mix x₀ g ((p i).join ((p i).leave x₀))
  | follows {g : Bool → Progress} (i : Bool) (hi : g i = .joined)
      (hj : g (!i) = .left) :
      Form p mix x₀ g ((p !i).leave ((p i).join ((p i).leave x₀)))
  | ahead {g : Bool → Progress} (i : Bool) (hi : g i = .joined)
      (hj : g (!i) = .left) (hm : mix) :
      Form p mix x₀ g ((p i).join (bothLeft p x₀ i))
  | once {g : Bool → Progress} (i : Bool) (hi : g i = .joined)
      (hj : g (!i) = .left) (hm : mix) (ha : (p !i).again) :
      Form p mix x₀ g ((p !i).leave ((p i).join (bothLeft p x₀ i)))
  | serial {g : Bool → Progress} (i : Bool) (h : ∀ j, g j = .joined) :
      Form p mix x₀ g (serial p x₀ i)
  | mixed {g : Bool → Progress} (i : Bool) (h : ∀ j, g j = .joined)
      (hm : mix) :
      Form p mix x₀ g ((p !i).join ((p i).join (bothLeft p x₀ i)))
  | mixedAgain {g : Bool → Progress} (i : Bool) (h : ∀ j, g j = .joined)
      (hm : mix) (ha : (p !i).again) :
      Form p mix x₀ g ((p !i).join ((p !i).leave ((p i).join (bothLeft p x₀ i))))

section Moves

variable {p : Bool → Party X} {mix : Prop} {x₀ x : X} {g : Bool → Progress}
variable {i k : Bool}

/-- One of two is the one or the other. -/
theorem eq_not_of_ne (h : k ≠ i) : k = !i := by
  cases k <;> cases i <;> simp_all

/-- What is so of both. -/
theorem forall_of_pair {Q : Bool → Prop} (hi : Q i) (hj : Q !i) (j : Bool) :
    Q j := by
  by_cases h : j = i
  · rw [h]
    exact hi
  · rw [eq_not_of_ne h]
    exact hj

theorem update_other (v : Progress) : Function.update g i v (!i) = g !i :=
  Function.update_of_ne (by cases i <;> simp) _ _

theorem bothLeft_not (hp : Tidy p) (x₀ : X) (i : Bool) :
    bothLeft p x₀ (!i) = bothLeft p x₀ i := by
  rw [bothLeft]
  rw [Bool.not_not]
  exact (hp.comm i x₀).symm

/-- Leaving makes no difference to those who have left. -/
theorem leave_bothLeft (hp : Tidy p) (x₀ : X) (i j : Bool) :
    (p j).leave (bothLeft p x₀ i) = bothLeft p x₀ i := by
  by_cases h : j = i
  · rw [h]
    exact hp.idem i _
  · rw [eq_not_of_ne h, ← bothLeft_not hp x₀ i]
    exact hp.idem (!i) _

/-- When one has joined and the other has left, nobody is fresh. -/
theorem not_fresh (hk : g k = .joined) (hj : g (!k) = .left) (j : Bool) :
    g j ≠ .fresh := by
  have hk' : g k ≠ .fresh := by simp [hk]
  have hj' : g (!k) ≠ .fresh := by simp [hj]
  exact forall_of_pair (Q := fun j => g j ≠ .fresh) hk' hj' j

theorem form_leave (h : Form p mix x₀ g x) (hi : g i = .fresh)
    (hm : g (!i) = .left → mix) :
    Form p mix x₀ (Function.update g i .left) ((p i).leave x) := by
  have hself : Function.update g i Progress.left i = .left :=
    Function.update_self _ _ _
  cases h with
  | nobody h => exact .one i hself ((update_other _).trans (h _))
  | one k hk hj =>
      have hki : k ≠ i := by
        rintro rfl
        exact absurd (hk.symm.trans hi) (by simp)
      have hk' := eq_not_of_ne hki
      subst hk'
      exact .both i (forall_of_pair hself ((update_other _).trans hk)) (hm hk)
  | both k h hm => exact absurd ((h i).symm.trans hi) (by simp)
  | alone k hk hj =>
      have hki : i ≠ k := by
        rintro rfl
        exact absurd (hk.symm.trans hi) (by simp)
      have hi' := eq_not_of_ne hki
      subst hi'
      refine .follows k ?_ hself
      rw [Function.update_of_ne (by cases k <;> simp)]
      exact hk
  | follows k hk hj =>
      exact absurd hi (not_fresh hk hj i)
  | ahead k hk hj hm =>
      exact absurd hi (not_fresh hk hj i)
  | once k hk hj hm ha =>
      exact absurd hi (not_fresh hk hj i)
  | serial k h => exact absurd ((h i).symm.trans hi) (by simp)
  | mixed k h hm => exact absurd ((h i).symm.trans hi) (by simp)
  | mixedAgain k h hm ha => exact absurd ((h i).symm.trans hi) (by simp)

/-- Who has left and not joined is the other of the one who has joined. -/
theorem eq_not_of_left (hk : g k = .joined) (hi : g i = .left) : i = !k := by
  refine eq_not_of_ne ?_
  rintro rfl
  exact absurd (hk.symm.trans hi) (by simp)

theorem form_again (hp : Tidy p) (h : Form p mix x₀ g x) (hi : g i = .left)
    (ha : (p i).again) : Form p mix x₀ g ((p i).leave x) := by
  cases h with
  | nobody h => exact absurd ((h i).symm.trans hi) (by simp)
  | one k hk hj =>
      have hik : i = k := by
        by_contra hne
        rw [eq_not_of_ne hne, hj] at hi
        exact absurd hi (by simp)
      subst hik
      rw [hp.idem]
      exact .one i hk hj
  | both k h hm =>
      rw [leave_bothLeft hp]
      exact .both k h hm
  | alone k hk hj =>
      obtain rfl := eq_not_of_left hk hi
      exact absurd (hj.symm.trans hi) (by simp)
  | follows k hk hj =>
      obtain rfl := eq_not_of_left hk hi
      rw [hp.idem]
      exact .follows k hk hj
  | ahead k hk hj hm =>
      obtain rfl := eq_not_of_left hk hi
      exact .once k hk hj hm ha
  | once k hk hj hm ha' =>
      obtain rfl := eq_not_of_left hk hi
      rw [hp.idem]
      exact .once k hk hj hm ha'
  | serial k h => exact absurd ((h i).symm.trans hi) (by simp)
  | mixed k h hm => exact absurd ((h i).symm.trans hi) (by simp)
  | mixedAgain k h hm ha' => exact absurd ((h i).symm.trans hi) (by simp)

theorem form_join (hp : Tidy p) (h : Form p mix x₀ g x) (hi : g i = .left) :
    Form p mix x₀ (Function.update g i .joined) ((p i).join x) := by
  have hself : Function.update g i Progress.joined i = .joined :=
    Function.update_self _ _ _
  -- both have joined when the second one does
  have hall : ∀ {k}, g k = .joined → i = !k →
      ∀ j, Function.update g i Progress.joined j = .joined := by
    rintro k hk rfl
    refine forall_of_pair hself ?_
    rw [update_other, Bool.not_not]
    exact hk
  cases h with
  | nobody h => exact absurd ((h i).symm.trans hi) (by simp)
  | one k hk hj =>
      have hik : i = k := by
        by_contra hne
        rw [eq_not_of_ne hne, hj] at hi
        exact absurd hi (by simp)
      subst hik
      exact .alone i hself ((update_other _).trans hj)
  | both k h hm =>
      have hk : bothLeft p x₀ k = bothLeft p x₀ i := by
        by_cases hki : k = i
        · rw [hki]
        · rw [eq_not_of_ne hki, bothLeft_not hp]
      rw [hk]
      exact .ahead i hself ((update_other _).trans (h _)) hm
  | alone k hk hj =>
      obtain rfl := eq_not_of_left hk hi
      exact absurd (hj.symm.trans hi) (by simp)
  | follows k hk hj =>
      obtain rfl := eq_not_of_left hk hi
      exact .serial k (hall hk rfl)
  | ahead k hk hj hm =>
      obtain rfl := eq_not_of_left hk hi
      exact .mixed k (hall hk rfl) hm
  | once k hk hj hm ha =>
      obtain rfl := eq_not_of_left hk hi
      exact .mixedAgain k (hall hk rfl) hm ha
  | serial k h => exact absurd ((h i).symm.trans hi) (by simp)
  | mixed k h hm => exact absurd ((h i).symm.trans hi) (by simp)
  | mixedAgain k h hm ha => exact absurd ((h i).symm.trans hi) (by simp)

theorem form_of_word (hp : Tidy p) (h : Word p mix x₀ g x) :
    Form p mix x₀ g x := by
  induction h with
  | start => exact .nobody fun _ => rfl
  | leave i _ hi hm ih => exact form_leave ih hi hm
  | again i _ hi ha ih => exact form_again hp ih hi ha
  | join i _ hi _ ih => exact form_join hp ih hi

/-- **THE FORMS**: when both have joined, one has done so after the other, or
    both have left before `i` joined. -/
theorem forms_of_joined (hp : Tidy p) (h : Word p mix x₀ (fun _ => .joined) x) :
    ∃ i, x = serial p x₀ i
      ∨ mix ∧ x = (p !i).join ((p i).join (bothLeft p x₀ i))
      ∨ mix ∧ (p !i).again
        ∧ x = (p !i).join ((p !i).leave ((p i).join (bothLeft p x₀ i))) := by
  cases form_of_word hp h with
  | nobody hall => exact absurd (hall true) (by simp)
  | one i hi hj => exact absurd hi (by simp)
  | both i hall => exact absurd (hall true) (by simp)
  | alone i hi hj => exact absurd hj (by simp)
  | follows i hi hj => exact absurd hj (by simp)
  | ahead i hi hj => exact absurd hj (by simp)
  | once i hi hj ha => exact absurd hj (by simp)
  | serial i hall => exact ⟨i, Or.inl rfl⟩
  | mixed i hall hm => exact ⟨i, Or.inr (Or.inl ⟨hm, rfl⟩)⟩
  | mixedAgain i hall hm ha => exact ⟨i, Or.inr (Or.inr ⟨hm, ha, rfl⟩)⟩

/-! ## One after the other -/

/-- Whom `i` joins does not mind whether the other has left. -/
def JoinsFreely (p : Bool → Party X) (i : Bool) : Prop :=
  ∀ x, (p i).join ((p !i).leave x) = (p !i).leave ((p i).join x)

/-- Joining freely, `i` may join before the other leaves. -/
theorem join_bothLeft (hp : Tidy p) (hi : JoinsFreely p i) :
    (p i).join (bothLeft p x₀ i)
      = (p !i).leave ((p i).join ((p i).leave x₀)) := by
  rw [bothLeft]
  rw [hp.comm, hi]

/-- When both join freely, every word is one after the other. -/
theorem serial_of_free (hp : Tidy p) (hfree : ∀ i, JoinsFreely p i)
    (h : Word p mix x₀ (fun _ => .joined) x) : ∃ i, x = serial p x₀ i := by
  obtain ⟨i, rfl | ⟨-, rfl⟩ | ⟨-, -, rfl⟩⟩ := forms_of_joined hp h
  · exact ⟨i, rfl⟩
  · refine ⟨i, ?_⟩
    rw [join_bothLeft hp (hfree i)]
    rfl
  · refine ⟨i, ?_⟩
    rw [join_bothLeft hp (hfree i), hp.idem]
    rfl

/-- When one joins freely and does not leave again, and it does not matter who
    joins first, every word is one after the other. -/
theorem serial_of_oneWay (hp : Tidy p) (hk : JoinsFreely p k)
    (hagain : ¬ (p k).again)
    (hjoin : ∀ x, (p k).join ((p !k).join x) = (p !k).join ((p k).join x))
    (h : Word p mix x₀ (fun _ => .joined) x) : ∃ i, x = serial p x₀ i := by
  obtain ⟨i, rfl | ⟨-, rfl⟩ | ⟨-, ha, rfl⟩⟩ := forms_of_joined hp h
  · exact ⟨i, rfl⟩
  · -- the one that joins freely may be taken to be the first
    by_cases hi : i = k
    · subst hi
      refine ⟨i, ?_⟩
      rw [join_bothLeft hp hk]
      rfl
    · obtain rfl := eq_not_of_ne hi
      refine ⟨k, ?_⟩
      rw [Bool.not_not, hjoin, bothLeft_not hp, join_bothLeft hp hk]
      rfl
  · by_cases hi : i = k
    · subst hi
      refine ⟨i, ?_⟩
      rw [join_bothLeft hp hk, hp.idem]
      rfl
    · obtain rfl := eq_not_of_ne hi
      rw [Bool.not_not] at ha
      exact absurd ha hagain

end Moves

/-! ## Moves on one entry of a map -/

section Entries

variable {K V : Type} [DecidableEq K] {k k' : K}

/-- A move on the entry at `k`. -/
def moveAt (k : K) (f : V → V) (P : K → V) : K → V :=
  Function.update P k (f (P k))

theorem moveAt_self (f : V → V) (P : K → V) : moveAt k f P k = f (P k) :=
  Function.update_self _ _ _

theorem moveAt_of_ne (h : k' ≠ k) (f : V → V) (P : K → V) :
    moveAt k f P k' = P k' := Function.update_of_ne h _ _

/-- Moves on two entries commute. -/
theorem moveAt_comm (h : k ≠ k') (f f' : V → V) (P : K → V) :
    moveAt k f (moveAt k' f' P) = moveAt k' f' (moveAt k f P) := by
  funext q
  by_cases hk : q = k
  · subst hk
    rw [moveAt_self, moveAt_of_ne h, moveAt_of_ne h, moveAt_self]
  · by_cases hk' : q = k'
    · subst hk'
      rw [moveAt_of_ne hk, moveAt_self, moveAt_self, moveAt_of_ne hk]
    · rw [moveAt_of_ne hk, moveAt_of_ne hk', moveAt_of_ne hk', moveAt_of_ne hk]

/-- Two moves on one entry. -/
theorem moveAt_moveAt (f f' : V → V) (P : K → V) :
    moveAt k f (moveAt k f' P) = moveAt k (fun v => f (f' v)) P := by
  unfold moveAt
  rw [Function.update_self, Function.update_idem]

end Entries

end TwoParties
