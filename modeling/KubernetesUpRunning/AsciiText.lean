import Mathlib.Data.Nat.Notation

/-! # Text as bytes

    Go's strings are byte strings.  What the texts of URLs and of JSON are made
    of is ASCII: single characters, whole words, and hexadecimal digits. -/

namespace AsciiText

/-- A Go string. -/
abbrev Bytes := List UInt8

/-- What holds of every element of a given list, by trying them. -/
theorem forall_of_all {α : Type} {P : α → Prop} [DecidablePred P]
    {l : List α} (h : l.all (fun a => decide (P a)) = true) :
    ∀ a ∈ l, P a := fun a ha => of_decide_eq_true (List.all_eq_true.1 h a ha)

/-- One character of ASCII. -/
def byte (c : Char) : UInt8 := UInt8.ofNat c.toNat

/-- A text in ASCII. -/
def ascii (s : String) : Bytes := s.toList.map byte

/-- A number that fits into a byte. -/
theorem toNat_fits {n : Nat} (h : n < 256) : (UInt8.ofNat n).toNat = n := by
  rw [UInt8.toNat_ofNat']
  exact Nat.mod_eq_of_lt h

/-- The number of a character of ASCII. -/
theorem toNat_byte {c : Char} (h : c.toNat < 256) :
    (byte c).toNat = c.toNat := toNat_fits h

/-- The character with the number of a byte. -/
theorem toNat_char (b : UInt8) : (Char.ofNat b.toNat).toNat = b.toNat := by
  have hlt : b.toNat < 256 := b.toNat_lt
  have hv : b.toNat.isValidChar := .inl (by omega)
  rw [Char.ofNat, dif_pos hv]
  rfl

/-- The value of a hexadecimal digit. -/
def unhex (c : UInt8) : Option UInt8 :=
  if byte '0' ≤ c ∧ c ≤ byte '9' then some (c - byte '0')
  else if byte 'a' ≤ c ∧ c ≤ byte 'f' then some (c - byte 'a' + 10)
  else if byte 'A' ≤ c ∧ c ≤ byte 'F' then some (c - byte 'A' + 10)
  else none

/-- A hexadecimal digit, in lower case. -/
def hexDigit (n : Nat) : UInt8 := byte (Nat.digitChar n)

/-- Reading the digit that was written. -/
theorem unhex_hexDigit : ∀ n < 16, unhex (hexDigit n) = some (UInt8.ofNat n) := by
  decide

end AsciiText
