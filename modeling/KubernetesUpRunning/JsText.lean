import Mathlib.Data.List.Lex
import KubernetesUpRunning.JsonText

/-! # The strings of JavaScript

    A string is a sequence of UTF-16 code units, and `<` compares two of them
    unit by unit.  A text that arrives as UTF-8 is decoded rune by rune.
    Different texts in UTF-8 are different strings. -/

namespace JsText

open AsciiText JsonText

/-- A string, as its code units. -/
abbrev JsString := List ℕ

/-- The code units of a character: one, or a pair of surrogates. -/
def units (c : Char) : JsString :=
  if c.toNat < 0x10000 then [c.toNat]
  else
    [0xd800 + (c.toNat - 0x10000) / 0x400,
      0xdc00 + (c.toNat - 0x10000) % 0x400]

/-- The string of a text: U+FFFD for a byte that is not UTF-8. -/
def jsString (s : Bytes) : JsString :=
  (runes s).flatMap fun r => units (r.getD '\uFFFD')

/-- No character is half a pair. -/
theorem not_surrogate (c : Char) :
    c.toNat < 0xd800 ∨ 0xdfff < c.toNat ∧ c.toNat < 0x110000 := c.valid

/-- What follows a character can be told from it. -/
theorem units_append {c d : Char} {s t : JsString}
    (h : units c ++ s = units d ++ t) : c = d ∧ s = t := by
  have hc := not_surrogate c
  have hd := not_surrogate d
  have hnat : c.toNat = d.toNat ∧ s = t := by
    unfold units at h
    split at h
    · split at h
      · simp only [List.cons_append, List.nil_append, List.cons.injEq] at h
        exact h
      · -- a character of one unit is no first half
        simp only [List.cons_append, List.nil_append, List.cons.injEq] at h
        omega
    · split at h
      · simp only [List.cons_append, List.nil_append, List.cons.injEq] at h
        omega
      · simp only [List.cons_append, List.nil_append, List.cons.injEq] at h
        obtain ⟨h1, h2, hst⟩ := h
        exact ⟨by omega, hst⟩
  exact ⟨Char.toNat_inj.mp hnat.1, hnat.2⟩

theorem units_ne_nil (c : Char) : units c ≠ [] := by
  unfold units
  split <;> exact List.cons_ne_nil _ _

theorem flatMap_units_inj {cs ds : List Char}
    (h : cs.flatMap units = ds.flatMap units) : cs = ds := by
  induction cs generalizing ds with
  | nil =>
      cases ds with
      | nil => rfl
      | cons d ds =>
          rw [List.flatMap_nil, List.flatMap_cons] at h
          exact absurd (List.append_eq_nil_iff.mp h.symm).1 (units_ne_nil d)
  | cons c cs ih =>
      cases ds with
      | nil =>
          rw [List.flatMap_nil, List.flatMap_cons] at h
          exact absurd (List.append_eq_nil_iff.mp h).1 (units_ne_nil c)
      | cons d ds =>
          rw [List.flatMap_cons, List.flatMap_cons] at h
          obtain ⟨rfl, hrest⟩ := units_append h
          rw [ih hrest]

/-- A text in UTF-8 is its characters. -/
theorem runes_of_valid {s : Bytes} (h : ValidUTF8 s) :
    ∃ cs : List Char, runes s = cs.map some := by
  refine ⟨(runes s).map fun r => r.getD '\uFFFD', ?_⟩
  rw [List.map_map]
  refine (List.map_id _).symm.trans (List.map_congr_left fun r hr => ?_)
  cases r with
  | none => exact absurd hr h
  | some c => rfl

/-- **DIFFERENT TEXTS ARE DIFFERENT STRINGS**, as long as they are UTF-8. -/
theorem jsString_inj {s t : Bytes} (hs : ValidUTF8 s) (ht : ValidUTF8 t)
    (h : jsString s = jsString t) : s = t := by
  obtain ⟨cs, hcs⟩ := runes_of_valid hs
  obtain ⟨ds, hds⟩ := runes_of_valid ht
  rw [jsString, jsString, hcs, hds, List.flatMap_map, List.flatMap_map] at h
  have hchars : cs = ds := flatMap_units_inj h
  have hcoerce : coerce s = coerce t := by
    rw [coerce, coerce, hcs, hds, hchars]
  rwa [coerce_of_valid hs, coerce_of_valid ht] at hcoerce

/-- The runes of a text that was coerced. -/
theorem runes_coerce (s : Bytes) :
    runes (coerce s) = (runes s).map fun r => some (r.getD '\uFFFD') := by
  have hstep : ∀ r rs, runes (written r ++ rs)
      = some (r.getD '\uFFFD') :: runes rs := fun r rs => runes_char _ _
  rw [coerce]
  induction runes s with
  | nil => simp [runes]
  | cons r rs ih => rw [List.flatMap_cons, hstep, ih, List.map_cons]

/-- Coercing is what decoding does anyway. -/
theorem jsString_coerce (s : Bytes) : jsString (coerce s) = jsString s := by
  rw [jsString, jsString, runes_coerce, List.flatMap_map]
  rfl

end JsText
