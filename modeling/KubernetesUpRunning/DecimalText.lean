import KubernetesUpRunning.AsciiText

/-! # Integers in decimal

    The decimal text of an integer is what `%d`, `strconv.AppendInt` and
    JavaScript write alike: a minus sign if it has to be, then digits that do
    not start with a zero unless zero is all there is. -/

namespace DecimalText

open AsciiText

/-- The first digit of a positive number. -/
theorem head_toDigits {n : Nat} (h : 0 < n) :
    (Nat.toDigits 10 n).head? ≠ some '0' := by
  induction n using Nat.strongRecOn with
  | ind n ih =>
      rw [Nat.toDigits_eq_if (by omega)]
      split
      · rename_i hlt
        have hdigit : ∀ d < 10, 0 < d → [Nat.digitChar d].head? ≠ some '0' := by
          decide
        exact hdigit n hlt h
      · have hne : Nat.toDigits 10 (n / 10) ≠ [] := Nat.toDigits_ne_nil
        obtain ⟨c, rest, hcons⟩ := List.exists_cons_of_ne_nil hne
        have hhead := ih (n / 10) (by omega) (by omega)
        rw [hcons] at hhead ⊢
        exact hhead

/-- The digits of the decimal text of a number. -/
structure Digits (s : List Char) (m : Nat) : Prop where
  ne_nil : s ≠ []
  digits : ∀ c ∈ s, c.isDigit = true
  leading : s.head? = some '0' → s = ['0']
  value : Nat.ofDigitChars 10 s 0 = m

theorem digits_toDigits (m : Nat) : Digits (Nat.toDigits 10 m) m := by
  refine ⟨Nat.toDigits_ne_nil,
    fun c hc => Nat.isDigit_of_mem_toDigits (by omega) (by omega) hc,
    fun h => ?_, Nat.ofDigitChars_ten_toDigits⟩
  cases m with
  | zero => rfl
  | succ m => exact absurd h (head_toDigits (Nat.succ_pos m))

/-- **THE TEXT OF AN INTEGER.** -/
theorem toString_int (n : Int) : ∃ s m, Digits s m
    ∧ ((toString n).toList = s ∧ n = (m : Int)
      ∨ (toString n).toList = '-' :: s ∧ n = -(m : Int)) := by
  cases n with
  | ofNat m => exact ⟨_, m, digits_toDigits m, .inl ⟨Nat.toList_repr, rfl⟩⟩
  | negSucc m =>
      refine ⟨_, m + 1, digits_toDigits (m + 1), .inr ⟨?_, rfl⟩⟩
      rw [show toString (Int.negSucc m) = "-" ++ (m + 1).repr from rfl,
        String.toList_append, Nat.toList_repr]
      rfl

/-! ## As bytes -/

/-- The decimal text of an integer. -/
def decimal (n : Int) : Bytes := ascii (toString n)

def isDigit (b : UInt8) : Bool := byte '0' ≤ b && b ≤ byte '9'

/-- The character of a byte. -/
def toChar (b : UInt8) : Char := Char.ofNat b.toNat

theorem toChar_byte {c : Char} (h : c.toNat < 256) : toChar (byte c) = c := by
  rw [toChar, toNat_byte h, Char.ofNat_toNat]

/-- Digits as characters and as bytes. -/
theorem digit_byte {c : Char} (h : c.isDigit = true) :
    c.toNat < 128 ∧ isDigit (byte c) = true := by
  have hrange : 48 ≤ c.toNat ∧ c.toNat ≤ 57 := by
    simp only [Char.isDigit, ge_iff_le, Bool.and_eq_true, decide_eq_true_eq,
      UInt32.le_iff_toNat_le] at h
    exact h
  have hbyte := toNat_byte (c := c) (by omega)
  refine ⟨by omega, ?_⟩
  simp only [isDigit, Bool.and_eq_true, decide_eq_true_eq,
    UInt8.le_iff_toNat_le, hbyte]
  exact hrange

/-- What digits stand for, if there is one and nothing else. -/
def magnitude (ds : Bytes) : Option Nat :=
  if ds ≠ [] ∧ ds.all isDigit = true then
    some (Nat.ofDigitChars 10 (ds.map toChar) 0)
  else none

/-- 64 bits can hold the integer. -/
def IsInt64 (n : Int) : Prop :=
  -0x8000000000000000 ≤ n ∧ n < 0x8000000000000000

instance (n : Int) : Decidable (IsInt64 n) :=
  inferInstanceAs (Decidable (_ ∧ _))

/-- An integer, if 64 bits can hold it. -/
def int64 (n : Int) : Option Int := if IsInt64 n then some n else none

/-- `strconv.ParseInt(s, 10, 64)`; `none` is an error. -/
def parseInt : Bytes → Option Int
  | [] => none
  | c :: ds =>
      if c = byte '-' then (magnitude ds).bind fun m => int64 (-(m : Int))
      else if c = byte '+' then (magnitude ds).bind fun m => int64 m
      else (magnitude (c :: ds)).bind fun m => int64 m

theorem all_isDigit {s : List Char} {m : Nat} (h : Digits s m) :
    ∀ b ∈ s.map byte, isDigit b = true := by
  intro b hb
  obtain ⟨c, hc, rfl⟩ := List.mem_map.mp hb
  exact (digit_byte (h.digits c hc)).2

theorem magnitude_digits {s : List Char} {m : Nat} (h : Digits s m) :
    magnitude (s.map byte) = some m := by
  have hchars : (s.map byte).map toChar = s := by
    rw [List.map_map]
    refine (List.map_congr_left fun c hc => ?_).trans (List.map_id s)
    have hlt := (digit_byte (h.digits c hc)).1
    exact toChar_byte (by omega)
  have hne : s.map byte ≠ [] := by
    rw [Ne, List.map_eq_nil_iff]
    exact h.ne_nil
  rw [magnitude, if_pos ⟨hne, List.all_eq_true.mpr (all_isDigit h)⟩, hchars,
    h.value]

/-- **READING IT BACK**, as far as 64 bits go. -/
theorem parseInt_decimal {n : Int} (h : IsInt64 n) :
    parseInt (decimal n) = some n := by
  obtain ⟨s, m, hs, htext⟩ := toString_int n
  have hint : int64 n = some n := if_pos h
  have hmag := magnitude_digits hs
  rcases htext with ⟨htext, hn⟩ | ⟨htext, hn⟩
  · have hdec : decimal n = s.map byte := by rw [decimal, ascii, htext]
    have hne : s.map byte ≠ [] := by
      rw [Ne, List.map_eq_nil_iff]
      exact hs.ne_nil
    obtain ⟨c, ds, hcons⟩ := List.exists_cons_of_ne_nil hne
    have hdigit : isDigit c = true :=
      all_isDigit hs c (by rw [hcons]; exact List.mem_cons_self)
    have hmark : ∀ d, isDigit d = false → c ≠ d := by
      rintro d hd rfl
      rw [hdigit] at hd
      exact absurd hd (by decide)
    rw [hcons] at hmag hdec
    rw [hdec, parseInt, if_neg (hmark _ (by decide)),
      if_neg (hmark _ (by decide)), hmag, Option.bind_some, ← hn, hint]
  · have hdec : decimal n = byte '-' :: s.map byte := by
      rw [decimal, ascii, htext, List.map_cons]
    rw [hdec, parseInt, if_pos rfl, hmag, Option.bind_some, ← hn, hint]

end DecimalText
