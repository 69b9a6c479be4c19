import Mathlib.Algebra.Order.Field.Power
import Mathlib.Data.Int.Log
import Mathlib.Data.Rat.Floor
import Mathlib.Tactic.Linarith
import Mathlib.Tactic.NormNum
import Mathlib.Tactic.Ring

/-! # The numbers of JavaScript

    A Number is NaN, an infinity or a rational of at most 53 binary digits.
    Every operation takes the exact result to the nearest of them, and a tie to
    the even one.  Minus zero is not told from zero: both print as `0`. -/

namespace JsNumber

inductive Number where
  | nan
  | infinity (negative : Bool)
  | finite (q : ℚ)
  deriving DecidableEq

/-! ## Rounding -/

/-- The nearest integer, of two equally near ones the even one. -/
def roundEven (q : ℚ) : ℤ :=
  if q - ⌊q⌋ < 1 / 2 then ⌊q⌋
  else if 1 / 2 < q - ⌊q⌋ then ⌊q⌋ + 1
  else if ⌊q⌋ % 2 = 0 then ⌊q⌋ else ⌊q⌋ + 1

/-- The exponent of the last of the 53 digits; below the normal numbers it
    stays where it is. -/
def ulpExponent (q : ℚ) : ℤ := max (Int.log 2 |q| - 52) (-1074)

/-- The nearest multiple of the last digit. -/
def nearest (q : ℚ) : ℚ :=
  roundEven (q / 2 ^ ulpExponent q) * 2 ^ ulpExponent q

/-- The Number of an exact result. -/
def ofRat (q : ℚ) : Number :=
  if 2 ^ 1024 ≤ |nearest q| then .infinity (decide (q < 0))
  else .finite (nearest q)

theorem roundEven_intCast (n : ℤ) : roundEven n = n := by
  simp [roundEven]

/-- A multiple of the last digit stays. -/
theorem nearest_of_multiple {q : ℚ} {m : ℤ} (h : q = m * 2 ^ ulpExponent q) :
    nearest q = q := by
  have hpos : (2 : ℚ) ^ ulpExponent q ≠ 0 := by positivity
  have hdiv : q / 2 ^ ulpExponent q = m := by
    rw [div_eq_iff hpos]
    exact h
  rw [nearest, hdiv, roundEven_intCast]
  exact h.symm

/-- With fewer than 53 digits and a bit, the last digit lies no higher than the
    exponent. -/
theorem ulpExponent_le {m e : ℤ} (h0 : m ≠ 0) (hm : |m| < 2 ^ 53)
    (he : -1074 ≤ e) : ulpExponent (m * 2 ^ e) ≤ e := by
  have hpow : (0 : ℚ) < 2 ^ e := by positivity
  have habs : |(m : ℚ) * 2 ^ e| = |(m : ℚ)| * 2 ^ e := by
    rw [abs_mul, abs_of_pos hpow]
  have hlt : |(m : ℚ) * 2 ^ e| < (2 : ℕ) ^ (e + 53) := by
    rw [habs, Nat.cast_ofNat, zpow_add₀ (by norm_num), mul_comm]
    refine mul_lt_mul_of_pos_left ?_ hpow
    exact_mod_cast hm
  have hq : 0 < |(m : ℚ) * 2 ^ e| := by
    rw [habs]
    positivity
  have hlog := (Int.lt_zpow_iff_log_lt (by norm_num) hq).mp hlt
  rw [ulpExponent]
  omega

theorem nearest_of_digits {m e : ℤ} (hm : |m| < 2 ^ 53) (he : -1074 ≤ e) :
    nearest (m * 2 ^ e) = m * 2 ^ e := by
  by_cases h0 : m = 0
  · subst h0
    exact nearest_of_multiple (m := 0) (by simp)
  · have hle := ulpExponent_le h0 hm he
    obtain ⟨d, hd⟩ := Int.eq_ofNat_of_zero_le (sub_nonneg.mpr hle)
    refine nearest_of_multiple (m := m * 2 ^ d) ?_
    have hsplit : (2 : ℚ) ^ e
        = 2 ^ d * 2 ^ ulpExponent ((m : ℚ) * 2 ^ e) := by
      rw [← zpow_natCast, ← zpow_add₀ (by norm_num), ← hd]
      ring_nf
    push_cast
    rw [mul_assoc, ← hsplit]

/-- **EXACT**: what 53 binary digits can hold is not rounded. -/
theorem ofRat_exact {m e : ℤ} (hm : |m| ≤ 2 ^ 53) (he : -1074 ≤ e)
    (hlt : |(m : ℚ) * 2 ^ e| < 2 ^ 1024) :
    ofRat (m * 2 ^ e) = .finite (m * 2 ^ e) := by
  have hnear : nearest ((m : ℚ) * 2 ^ e) = m * 2 ^ e := by
    rcases lt_or_eq_of_le hm with hm | hm
    · exact nearest_of_digits hm he
    · -- the one number of 54 digits has a zero to give to the exponent
      obtain ⟨n, hn, rfl⟩ : ∃ n : ℤ, |n| = 2 ^ 52 ∧ m = n * 2 := by
        rcases abs_eq (by norm_num) |>.mp hm with rfl | rfl
        · exact ⟨2 ^ 52, by norm_num, by norm_num⟩
        · exact ⟨-2 ^ 52, by norm_num, by norm_num⟩
      have hone : ((n * 2 : ℤ) : ℚ) * 2 ^ e = n * 2 ^ (e + 1) := by
        rw [zpow_add₀ (by norm_num)]
        push_cast
        ring
      rw [hone]
      exact nearest_of_digits (by rw [hn]; norm_num) (by omega)
  rw [ofRat, hnear, if_neg (not_le.mpr hlt)]

/-- The integers up to 2^53 are Numbers. -/
theorem ofRat_intCast {n : ℤ} (h : |n| ≤ 2 ^ 53) :
    ofRat n = .finite n := by
  have hq : |(n : ℚ) * 2 ^ (0 : ℤ)| < 2 ^ 1024 := by
    have hcast : |(n : ℚ)| ≤ 2 ^ 53 := by exact_mod_cast h
    rw [zpow_zero, mul_one]
    exact hcast.trans_lt (pow_lt_pow_right₀ (by norm_num) (by norm_num))
  have hexact := ofRat_exact h (e := 0) (by norm_num) hq
  rwa [zpow_zero, mul_one] at hexact

/-! ## Multiplication -/

/-- `*`. -/
def mul : Number → Number → Number
  | .nan, _ => .nan
  | _, .nan => .nan
  | .infinity s, .infinity t => .infinity (s != t)
  | .infinity s, .finite q =>
      if q = 0 then .nan else .infinity (s != decide (q < 0))
  | .finite q, .infinity s =>
      if q = 0 then .nan else .infinity (s != decide (q < 0))
  | .finite p, .finite q => ofRat (p * q)

/-- Products up to 2^53 are exact. -/
theorem mul_intCast {n m : ℤ} (h : |n * m| ≤ 2 ^ 53) :
    mul (.finite n) (.finite m) = .finite ((n * m : ℤ) : ℚ) := by
  have hexact := ofRat_intCast h
  rw [Int.cast_mul] at hexact ⊢
  exact hexact

end JsNumber
