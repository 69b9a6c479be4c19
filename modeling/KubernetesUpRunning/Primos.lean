import Mathlib.Data.Nat.Count
import Mathlib.Data.Nat.Prime.Basic

/-! # The prime service

    `primos/app.js` answers `GET /primos/:number` with the primes up to the
    number.  It tries 2 and 3 and then only the candidates next to a multiple
    of six, up to the square root.  This file says that nothing is missed: the
    candidates that are left out cannot be the least factor of a number that
    neither 2 nor 3 divides.

    Numbers of JavaScript are exact integers as far as 2^53, and are natural
    numbers here. -/

namespace Primos

/-! ## The service -/

/-- The loop of `esPrimo` from the candidate `i` on. -/
def sinDivisores (num i : Nat) : Bool :=
  if i * i ≤ num then
    if num % i = 0 ∨ num % (i + 2) = 0 then false
    else sinDivisores num (i + 6)
  else true
termination_by num + 1 - i
decreasing_by
  have : i ≤ i * i := Nat.le_mul_self i
  omega

/-- `esPrimo`. -/
def esPrimo (num : Nat) : Bool :=
  if num ≤ 1 then false
  else if num ≤ 3 then true
  else if num % 2 = 0 ∨ num % 3 = 0 then false
  else sinDivisores num 5

/-- What JavaScript takes for white space. -/
def esBlanco (c : Char) : Bool :=
  let v := c.toNat
  (9 ≤ v && v ≤ 13) || v == 0x20 || v == 0xA0 || v == 0x1680
    || (0x2000 ≤ v && v ≤ 0x200A) || v == 0x2028 || v == 0x2029
    || v == 0x202F || v == 0x205F || v == 0x3000 || v == 0xFEFF

/-- The value of a digit in base 10 or 16. -/
def digito (base : Nat) (c : Char) : Option Nat :=
  let v :=
    if c.isDigit then c.toNat - '0'.toNat
    else if 'a' ≤ c ∧ c ≤ 'f' then c.toNat - 'a'.toNat + 10
    else if 'A' ≤ c ∧ c ≤ 'F' then c.toNat - 'A'.toNat + 10
    else base
  if v < base then some v else none

/-- The longest run of digits, if there is one. -/
def digitos (base : Nat) : List Char → Option Nat → Option Nat
  | [], v => v
  | c :: cs, v =>
      match digito base c with
      | some d => digitos base cs (some (v.getD 0 * base + d))
      | none => v

/-- `parseInt` without a radix; `none` is `NaN`. -/
def parseInt (s : List Char) : Option Int :=
  let s := s.dropWhile esBlanco
  let negativo := s.head? == some '-'
  let s := if negativo || s.head? == some '+' then s.drop 1 else s
  let hex := s.take 2 == ['0', 'x'] || s.take 2 == ['0', 'X']
  let n := if hex then digitos 16 (s.drop 2) none else digitos 10 s none
  n.map fun v => if negativo then -(v : Int) else (v : Int)

/-- From five on, a prime stands next to a multiple of six. -/
theorem prime_mod_six {p : Nat} (hp : p.Prime) (h5 : 5 ≤ p) :
    p % 6 = 1 ∨ p % 6 = 5 := by
  have h2 : p % 2 ≠ 0 := by
    intro h
    have := (Nat.prime_dvd_prime_iff_eq Nat.prime_two hp).mp
      (Nat.dvd_of_mod_eq_zero h)
    omega
  have h3 : p % 3 ≠ 0 := by
    intro h
    have := (Nat.prime_dvd_prime_iff_eq Nat.prime_three hp).mp
      (Nat.dvd_of_mod_eq_zero h)
    omega
  omega

/-- The candidates below `i` have been tried: what is left of the prime factors
    is at least `i`, the next candidate of the form `6 k - 1`. -/
structure Probados (num i : Nat) : Prop where
  candidate : i % 6 = 5
  least : ∀ p, p.Prime → p ∣ num → i ≤ p

/-- At the start only 2 and 3 have been tried. -/
theorem probados_five {num : Nat} (h2 : num % 2 ≠ 0) (h3 : num % 3 ≠ 0) :
    Probados num 5 := by
  refine ⟨rfl, fun p hp hd => ?_⟩
  by_contra hlt
  have hp2 := hp.two_le
  have hcases : p = 2 ∨ p = 3 ∨ p = 4 := by omega
  rcases hcases with rfl | rfl | rfl
  · exact h2 (Nat.mod_eq_zero_of_dvd hd)
  · exact h3 (Nat.mod_eq_zero_of_dvd hd)
  · exact absurd hp (by decide)

/-- One turn of the loop: between `i` and `i + 6` a prime factor can only be
    `i` or `i + 2`. -/
theorem Probados.next {num i : Nat} (h : Probados num i)
    (h0 : num % i ≠ 0) (h2 : num % (i + 2) ≠ 0) : Probados num (i + 6) := by
  have hi := h.candidate
  refine ⟨by omega, fun p hp hd => ?_⟩
  have hle := h.least p hp hd
  have hmod := prime_mod_six hp (by omega)
  have hne0 : p ≠ i := fun e => h0 (e ▸ Nat.mod_eq_zero_of_dvd hd)
  have hne2 : p ≠ i + 2 := fun e => h2 (e ▸ Nat.mod_eq_zero_of_dvd hd)
  omega

/-- Past the square root there is nothing left to find. -/
theorem Probados.prime {num i : Nat} (h : Probados num i) (hn : 2 ≤ num)
    (hlt : num < i * i) : num.Prime := by
  by_contra hnp
  have hsq := Nat.minFac_sq_le_self (by omega) hnp
  have hle := h.least _ (Nat.minFac_prime (by omega)) (Nat.minFac_dvd num)
  have : i * i ≤ num.minFac ^ 2 := by
    rw [pow_two]
    exact Nat.mul_le_mul hle hle
  omega

/-- A divisor from two on below the number. -/
theorem not_prime_of_mod {num d : Nat} (h2 : 2 ≤ d) (hlt : d < num)
    (h : num % d = 0) : ¬ num.Prime := by
  intro hp
  have := (Nat.dvd_prime hp).mp (Nat.dvd_of_mod_eq_zero h)
  omega

/-- The loop finds a divisor unless the number is prime. -/
theorem sinDivisores_iff {num i : Nat} (hn : 2 ≤ num) (h : Probados num i) :
    sinDivisores num i = true ↔ num.Prime := by
  induction i using sinDivisores.induct num with
  | case1 i hle hdiv =>
      rw [sinDivisores, if_pos hle, if_pos hdiv]
      -- both candidates lie below the number, as `5 ≤ i`
      have hi := h.candidate
      have hsq : 5 * i ≤ i * i := Nat.mul_le_mul_right i (by omega)
      refine ⟨fun hf => Bool.noConfusion hf, fun hp => absurd hp ?_⟩
      rcases hdiv with h0 | h2
      · exact not_prime_of_mod (by omega) (by omega) h0
      · exact not_prime_of_mod (by omega) (by omega) h2
  | case2 i hle hdiv ih =>
      rw [sinDivisores, if_pos hle, if_neg hdiv]
      obtain ⟨h0, h2⟩ := not_or.mp hdiv
      exact ih (h.next h0 h2)
  | case3 i hgt =>
      rw [sinDivisores, if_neg hgt]
      exact ⟨fun _ => h.prime hn (by omega), fun _ => rfl⟩

/-- **ESPRIMO**: it is true exactly for the primes. -/
theorem esPrimo_iff (num : Nat) : esPrimo num = true ↔ num.Prime := by
  rw [esPrimo]
  by_cases h1 : num ≤ 1
  · rw [if_pos h1]
    refine ⟨fun hf => Bool.noConfusion hf, fun hp => ?_⟩
    have := hp.two_le
    omega
  rw [if_neg h1]
  by_cases h3 : num ≤ 3
  · rw [if_pos h3]
    have hcases : num = 2 ∨ num = 3 := by omega
    rcases hcases with rfl | rfl
    · exact ⟨fun _ => Nat.prime_two, fun _ => rfl⟩
    · exact ⟨fun _ => Nat.prime_three, fun _ => rfl⟩
  rw [if_neg h3]
  by_cases hdiv : num % 2 = 0 ∨ num % 3 = 0
  · rw [if_pos hdiv]
    refine ⟨fun hf => Bool.noConfusion hf, fun hp => absurd hp ?_⟩
    rcases hdiv with h | h
    · exact not_prime_of_mod (by omega) (by omega) h
    · exact not_prime_of_mod (by omega) (by omega) h
  · rw [if_neg hdiv]
    obtain ⟨h2, h3⟩ := not_or.mp hdiv
    exact sinDivisores_iff (by omega) (probados_five h2 h3)

/-! ## The list -/

/-- What the loop has collected when it comes to `i`: the primes below `i`, in
    order, and as many as there are. -/
structure Recogidos (i : Nat) (primos : List Nat) : Prop where
  sorted : primos.Pairwise (· < ·)
  mem : ∀ p, p ∈ primos ↔ p.Prime ∧ p < i
  length : primos.length = Nat.count Nat.Prime i

/-- One turn of the loop. -/
theorem Recogidos.next {i : Nat} {primos : List Nat} (h : Recogidos i primos) :
    Recogidos (i + 1) (if esPrimo i then primos ++ [i] else primos) := by
  by_cases hp : i.Prime
  · rw [if_pos ((esPrimo_iff i).mpr hp)]
    constructor
    case sorted =>
      refine List.pairwise_append.mpr
        ⟨h.sorted, List.pairwise_singleton _ _, ?_⟩
      intro p hmem q hq
      rw [List.mem_singleton.mp hq]
      exact ((h.mem p).mp hmem).2
    case mem =>
      intro p
      rw [List.mem_append, List.mem_singleton, h.mem p]
      constructor
      · rintro (⟨hpp, hlt⟩ | rfl)
        · exact ⟨hpp, by omega⟩
        · exact ⟨hp, by omega⟩
      · rintro ⟨hpp, hlt⟩
        by_cases he : p = i
        · exact .inr he
        · exact .inl ⟨hpp, by omega⟩
    case length =>
      rw [List.length_append, List.length_singleton, h.length, Nat.count_succ,
        if_pos hp]
  · rw [if_neg (fun hf => hp ((esPrimo_iff i).mp hf))]
    constructor
    case sorted => exact h.sorted
    case mem =>
      intro p
      rw [h.mem p]
      constructor
      · rintro ⟨hpp, hlt⟩
        exact ⟨hpp, by omega⟩
      · rintro ⟨hpp, hlt⟩
        have hne : p ≠ i := fun e => hp (e ▸ hpp)
        exact ⟨hpp, by omega⟩
    case length => rw [h.length, Nat.count_succ, if_neg hp]; rfl

end Primos
