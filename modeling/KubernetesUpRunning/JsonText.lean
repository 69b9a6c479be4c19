import Mathlib.Data.List.Basic
import KubernetesUpRunning.AsciiText

/-! # JSON strings and flat objects

    How Go's `encoding/json` writes a byte string as a JSON string, and how it
    reads one back.  Writing goes rune by rune and puts U+FFFD in the place of
    every byte that is not UTF-8, so that a string comes back as it was exactly
    when it was UTF-8 (`coerce_eq_self_iff`).  An object is one whose members
    are strings. -/

namespace JsonText

open AsciiText

/-! ## UTF-8 -/

/-- `utf8.DecodeRune`: the character at the front, if there is one. -/
def decodeRune (s : Bytes) : Option Char := s.toByteArray.utf8DecodeChar? 0

/-- What was encoded is decoded. -/
theorem decodeRune_append (c : Char) (t : Bytes) :
    decodeRune (String.utf8EncodeChar c ++ t) = some c := by
  rw [decodeRune, List.toByteArray_append]
  exact ByteArray.utf8DecodeChar?_utf8EncodeChar_append

/-- What is decoded was encoded. -/
theorem of_decodeRune {s : Bytes} {c : Char} (h : decodeRune s = some c) :
    ∃ t, s = String.utf8EncodeChar c ++ t := by
  obtain ⟨l, hl⟩ := ByteArray.exists_of_utf8DecodeChar?_eq_some h
  refine ⟨l.data.toList, ?_⟩
  have hl' : l = l.data.toList.toByteArray := by
    cases l
    simp [List.data_toByteArray, ByteArray.ext_iff]
  rw [hl', ← List.toByteArray_append, List.toByteArray_inj] at hl
  exact hl

/-- The runes of a string, as `range` goes through them: a byte that belongs to
    no character is a rune of its own. -/
def runes : Bytes → List (Option Char)
  | [] => []
  | b :: s =>
      match decodeRune (b :: s) with
      | none => none :: runes s
      | some c => some c :: runes ((b :: s).drop c.utf8Size)
termination_by s => s.length
decreasing_by
  · simp
  · have := c.utf8Size_pos
    simp only [List.length_drop, List.length_cons]
    omega

/-- A byte string that is UTF-8. -/
def ValidUTF8 (s : Bytes) : Prop := none ∉ runes s

/-- What a rune is written as: U+FFFD for a byte that is none. -/
def written (r : Option Char) : Bytes :=
  String.utf8EncodeChar (r.getD '\uFFFD')

/-- A string with U+FFFD for every byte that is not UTF-8. -/
def coerce (s : Bytes) : Bytes := (runes s).flatMap written

/-- The runes after a character. -/
theorem runes_char (c : Char) (t : Bytes) :
    runes (String.utf8EncodeChar c ++ t) = some c :: runes t := by
  have hdec := decodeRune_append c t
  have hdrop : (String.utf8EncodeChar c ++ t).drop c.utf8Size = t := by
    rw [← String.length_utf8EncodeChar c, List.drop_left]
  obtain ⟨b, e, he⟩ := List.exists_cons_of_ne_nil
    (String.utf8EncodeChar_ne_nil (c := c))
  rw [he] at hdec hdrop ⊢
  rw [List.cons_append] at hdec hdrop ⊢
  rw [runes, hdec]
  simp only [hdrop]

/-- The runes after a byte that is none. -/
theorem runes_invalid {b : UInt8} {s : Bytes}
    (h : decodeRune (b :: s) = none) : runes (b :: s) = none :: runes s := by
  rw [runes, h]

/-- Induction along the runes: at the front there is a character, or a byte that
    is none. -/
theorem rune_induction {P : Bytes → Prop} (nil : P [])
    (char : ∀ c t, P t → P (String.utf8EncodeChar c ++ t))
    (invalid : ∀ b t, decodeRune (b :: t) = none → P t → P (b :: t))
    (s : Bytes) : P s := by
  induction hn : s.length using Nat.strongRecOn generalizing s with
  | ind n ih =>
      cases s with
      | nil => exact nil
      | cons b t =>
          cases hdec : decodeRune (b :: t) with
          | none =>
              rw [List.length_cons] at hn
              exact invalid b t hdec (ih t.length (by omega) t rfl)
          | some c =>
              obtain ⟨t', ht⟩ := of_decodeRune hdec
              have hpos : 0 < (String.utf8EncodeChar c).length :=
                List.length_pos_iff.2 String.utf8EncodeChar_ne_nil
              rw [ht, List.length_append] at hn
              rw [ht]
              exact char c t' (ih t'.length (by omega) t' rfl)

/-- Coercing makes no string shorter, and one that is not UTF-8 longer. -/
theorem length_coerce (s : Bytes) :
    s.length ≤ (coerce s).length ∧
      (¬ ValidUTF8 s → s.length < (coerce s).length) := by
  induction s using rune_induction with
  | nil => simp [ValidUTF8, runes]
  | char c t ih =>
      obtain ⟨hle, hlt⟩ := ih
      simp only [coerce, ValidUTF8, runes_char, List.flatMap_cons,
        List.length_append, written, Option.getD_some, List.mem_cons,
        reduceCtorEq, false_or] at hle hlt ⊢
      exact ⟨by omega, fun h => by
        have := hlt h
        omega⟩
  | invalid b t hb ih =>
      have hthree : (written none).length = 3 := by decide
      have hle := ih.1
      simp only [coerce, runes_invalid hb, List.flatMap_cons,
        List.length_append, List.length_cons, hthree] at hle ⊢
      exact ⟨by omega, fun _ => by omega⟩

/-- A string that is UTF-8 is coerced to itself. -/
theorem coerce_of_valid {s : Bytes} (h : ValidUTF8 s) : coerce s = s := by
  induction s using rune_induction with
  | nil => simp [coerce, runes]
  | char c t ih =>
      have ht : ValidUTF8 t := by
        intro hmem
        exact h (by rw [runes_char]; exact List.mem_cons_of_mem _ hmem)
      have hi := ih ht
      rw [coerce] at hi ⊢
      rw [runes_char, List.flatMap_cons, hi]
      rfl
  | invalid b t hb ih => exact absurd (by rw [runes_invalid hb]; simp) h

/-- **A string is coerced to itself exactly when it is UTF-8.** -/
theorem coerce_eq_self_iff (s : Bytes) : coerce s = s ↔ ValidUTF8 s := by
  refine ⟨fun h => ?_, coerce_of_valid⟩
  by_contra hv
  have hlt := (length_coerce s).2 hv
  rw [h] at hlt
  exact absurd hlt (Nat.lt_irrefl _)

/-- One byte of ASCII is a character. -/
theorem encode_ascii {c : Char} (h : c.toNat < 0x80) :
    String.utf8EncodeChar c = [byte c] := by
  have hv : c.val.toNat ≤ 127 := Nat.le_of_lt_succ h
  simp only [String.utf8EncodeChar, if_pos hv]
  rfl

/-- A text in ASCII is UTF-8. -/
theorem validUTF8_of_ascii {s : Bytes} (h : ∀ b ∈ s, b < 0x80) :
    ValidUTF8 s := by
  induction s with
  | nil => simp [ValidUTF8, runes]
  | cons b s ih =>
      have hb : b.toNat < 0x80 := h b (by simp)
      have hone : String.utf8EncodeChar (Char.ofNat b.toNat) = [b] := by
        rw [encode_ascii (by rw [toNat_char]; exact hb), byte, toNat_char,
          UInt8.ofNat_toNat]
      have hi := ih fun c hc => h c (by simp [hc])
      have hruns := runes_char (Char.ofNat b.toNat) s
      rw [hone, List.singleton_append] at hruns
      rw [ValidUTF8, hruns]
      simpa [ValidUTF8] using hi

/-! ## Writing a string -/

/-- What `appendString` writes for a rune, with HTML escaping. -/
def appendRune : Option Char → Bytes
  | none => ascii "\\ufffd"
  | some c =>
      if c = '\\' ∨ c = '"' then [byte '\\', byte c]
      else if c.toNat = 0x08 then ascii "\\b"
      else if c.toNat = 0x0c then ascii "\\f"
      else if c = '\n' then ascii "\\n"
      else if c = '\r' then ascii "\\r"
      else if c = '\t' then ascii "\\t"
      else if c.toNat < 0x20 ∨ c = '<' ∨ c = '>' ∨ c = '&' then
        ascii "\\u00" ++ [hexDigit (c.toNat / 16), hexDigit (c.toNat % 16)]
      else if c = '\u2028' ∨ c = '\u2029' then
        ascii "\\u202" ++ [hexDigit (c.toNat % 16)]
      else String.utf8EncodeChar c

/-- `appendString`. -/
def appendString (src : Bytes) : Bytes :=
  byte '"' :: ((runes src).flatMap appendRune ++ [byte '"'])

/-! ## Reading a string -/

/-- `getu4`, behind the `\u`: four hexadecimal digits. -/
def getu4 : Bytes → Option Nat
  | a :: b :: c :: d :: _ =>
      match unhex a, unhex b, unhex c, unhex d with
      | some a, some b, some c, some d =>
          some (((a.toNat * 16 + b.toNat) * 16 + c.toNat) * 16 + d.toNat)
      | _, _, _, _ => none
  | _ => none

/-- `utf16.DecodeRune` of a code unit and the escape behind it, if they are a
    pair. -/
def surrogatePair (rr : Nat) : Bytes → Option Nat
  | a :: b :: s =>
      if a = byte '\\' ∧ b = byte 'u' ∧ 0xd800 ≤ rr ∧ rr < 0xdc00 then
        (getu4 s).bind fun rr1 =>
          if 0xdc00 ≤ rr1 ∧ rr1 < 0xe000 then
            some ((rr - 0xd800) * 0x400 + (rr1 - 0xdc00) + 0x10000)
          else none
      else none
  | _ => none

/-- `utf8.EncodeRune`: U+FFFD for what is no character, such as half a pair. -/
def encodeRune (n : Nat) : Bytes :=
  if n.isValidChar then String.utf8EncodeChar (Char.ofNat n)
  else written none

/-- An escape, behind the backslash: what it stands for and how long it is. -/
def escape : Bytes → Option (Bytes × Nat)
  | [] => none
  | e :: s =>
      if e = byte '"' ∨ e = byte '\\' ∨ e = byte '/' then some ([e], 1)
      else if e = byte 'b' then some ([0x08], 1)
      else if e = byte 'f' then some ([0x0c], 1)
      else if e = byte 'n' then some ([byte '\n'], 1)
      else if e = byte 'r' then some ([byte '\r'], 1)
      else if e = byte 't' then some ([byte '\t'], 1)
      else if e = byte 'u' then
        (getu4 s).map fun rr =>
          match surrogatePair rr (s.drop 4) with
          | some dec => (encodeRune dec, 11)
          | none => (encodeRune rr, 5)
      else none

/-- `unquoteBytes`, behind the first quote: the string, and what stands behind
    the last quote. -/
def unquote : Bytes → Option (Bytes × Bytes)
  | [] => none
  | c :: s =>
      if c = byte '"' then some ([], s)
      else if c = byte '\\' then
        match escape s with
        | none => none
        | some (out, n) =>
            (unquote (s.drop n)).map fun r => (out ++ r.1, r.2)
      else if c < 0x20 then none
      else if c < 0x80 then (unquote s).map fun r => (c :: r.1, r.2)
      else
        match decodeRune (c :: s) with
        | none => (unquote s).map fun r => (written none ++ r.1, r.2)
        | some rr =>
            (unquote ((c :: s).drop rr.utf8Size)).map fun r =>
              (written (some rr) ++ r.1, r.2)
termination_by s => s.length
decreasing_by
  · simp only [List.length_drop, List.length_cons]
    omega
  · simp
  · simp
  · have := rr.utf8Size_pos
    simp only [List.length_drop, List.length_cons]
    omega

/-! ## Reading what was written -/

/-- Four digits that were written. -/
theorem getu4_hexDigits {a b c d : Nat} (ha : a < 16) (hb : b < 16)
    (hc : c < 16) (hd : d < 16) (t : Bytes) :
    getu4 (hexDigit a :: hexDigit b :: hexDigit c :: hexDigit d :: t)
      = some (((a * 16 + b) * 16 + c) * 16 + d) := by
  have hnat : ∀ n < 16, (UInt8.ofNat n).toNat = n :=
    fun n hn => toNat_fits (by omega)
  simp only [getu4, unhex_hexDigit _ ha, unhex_hexDigit _ hb,
    unhex_hexDigit _ hc, unhex_hexDigit _ hd, hnat _ ha, hnat _ hb,
    hnat _ hc, hnat _ hd]

/-- A code unit that is a character of its own. -/
theorem surrogatePair_none {rr : Nat} (h : rr < 0xd800 ∨ 0xdc00 ≤ rr)
    (s : Bytes) : surrogatePair rr s = none := by
  unfold surrogatePair
  split
  · rw [if_neg]
    omega
  · rfl

/-- An escape is read. -/
theorem unquote_escape {s out : Bytes} {n : Nat}
    (h : escape s = some (out, n)) :
    unquote (byte '\\' :: s)
      = (unquote (s.drop n)).map fun r => (out ++ r.1, r.2) := by
  rw [unquote, if_neg (by decide), if_pos rfl, h]

/-- An escape by number is read. -/
theorem unquote_u {a b c d n : Nat} (ha : a < 16) (hb : b < 16)
    (hc : c < 16) (hd : d < 16) (hn : n = ((a * 16 + b) * 16 + c) * 16 + d)
    (hv : n.isValidChar) (t : Bytes) :
    unquote (byte '\\' :: byte 'u' :: hexDigit a :: hexDigit b :: hexDigit c
        :: hexDigit d :: t)
      = (unquote t).map fun r =>
          (String.utf8EncodeChar (Char.ofNat n) ++ r.1, r.2) := by
  have hnum := getu4_hexDigits ha hb hc hd t
  rw [← hn] at hnum
  have hlone : ∀ s, surrogatePair n s = none := by
    refine surrogatePair_none ?_
    rcases hv with hv | hv <;> omega
  have hesc : escape (byte 'u' :: hexDigit a :: hexDigit b :: hexDigit c
      :: hexDigit d :: t)
      = some (String.utf8EncodeChar (Char.ofNat n), 5) := by
    rw [escape, if_neg (by decide), if_neg (by decide), if_neg (by decide),
      if_neg (by decide), if_neg (by decide), if_neg (by decide),
      if_pos rfl, hnum, Option.map_some, hlone, encodeRune, if_pos hv]
  rw [unquote_escape hesc]
  rfl

/-- A character beyond ASCII starts with a byte beyond ASCII. -/
theorem encode_beyond_ascii {c : Char} (h : 0x80 ≤ c.toNat) :
    ∃ b e, String.utf8EncodeChar c = b :: e ∧ 0x80 ≤ b.toNat := by
  have hv : ¬ c.val.toNat ≤ 127 := Nat.not_le_of_lt h
  have hfirst : ∀ n, 0x80 ≤ n → n < 256 → 0x80 ≤ (UInt8.ofNat n).toNat := by
    intro n h1 h2
    rw [toNat_fits h2]
    exact h1
  simp only [String.utf8EncodeChar, if_neg hv]
  split
  · exact ⟨_, _, rfl, hfirst _ (by omega) (by omega)⟩
  · split
    · exact ⟨_, _, rfl, hfirst _ (by omega) (by omega)⟩
    · exact ⟨_, _, rfl, hfirst _ (by omega) (by omega)⟩

/-- A character that stands for itself is read. -/
theorem unquote_char {c : Char} (hq : c ≠ '"') (hb : c ≠ '\\')
    (hctl : 0x20 ≤ c.toNat) (t : Bytes) :
    unquote (String.utf8EncodeChar c ++ t)
      = (unquote t).map fun r => (written (some c) ++ r.1, r.2) := by
  by_cases hc : c.toNat < 0x80
  · have hnat : (byte c).toNat = c.toNat := toNat_byte (by omega)
    have hne : ∀ d : Char, d.toNat < 256 → c ≠ d → byte c ≠ byte d := by
      intro d hd hcd heq
      have hd' := congrArg UInt8.toNat heq
      rw [hnat, toNat_byte hd] at hd'
      exact hcd (Char.toNat_inj.1 hd')
    have hone := encode_ascii hc
    have hlow : ¬ byte c < 0x20 := by
      rw [UInt8.lt_iff_toNat_lt, hnat]
      exact Nat.not_lt_of_le hctl
    have hhigh : byte c < 0x80 := by
      rw [UInt8.lt_iff_toNat_lt, hnat]
      exact hc
    rw [hone, List.singleton_append, unquote,
      if_neg (hne '"' (by decide) hq), if_neg (hne '\\' (by decide) hb),
      if_neg hlow, if_pos hhigh]
    simp only [written, Option.getD_some, hone, List.singleton_append]
  · obtain ⟨b, e, he, hbyte⟩ := encode_beyond_ascii (Nat.le_of_not_lt hc)
    have hdec := decodeRune_append c t
    have hdrop : (String.utf8EncodeChar c ++ t).drop c.utf8Size = t := by
      rw [← String.length_utf8EncodeChar c, List.drop_left]
    have hne : ∀ d : UInt8, d.toNat < 0x80 → b ≠ d := by
      rintro d hd rfl
      omega
    have hlow : ¬ b < 0x20 := by
      rw [UInt8.lt_iff_toNat_lt]
      exact Nat.not_lt_of_le (Nat.le_trans (by decide) hbyte)
    have hhigh : ¬ b < 0x80 := by
      rw [UInt8.lt_iff_toNat_lt]
      exact Nat.not_lt_of_le hbyte
    rw [he, List.cons_append] at hdec hdrop ⊢
    rw [unquote, if_neg (hne _ (by decide)), if_neg (hne _ (by decide)),
      if_neg hlow, if_neg hhigh, hdec]
    simp only [hdrop]

/-- A short escape is read as the character it stands for. -/
theorem unquote_short {c : Char} {e : UInt8} (hc : c.toNat < 0x80)
    (h : ∀ s, escape (e :: s) = some ([byte c], 1)) (t : Bytes) :
    unquote ([byte '\\', e] ++ t)
      = (unquote t).map fun r => (written (some c) ++ r.1, r.2) := by
  have hone : written (some c) = [byte c] := encode_ascii hc
  rw [hone]
  exact unquote_escape (h t)

/-- **What is written for a rune is read as that rune.** -/
theorem unquote_appendRune (r : Option Char) (t : Bytes) :
    unquote (appendRune r ++ t)
      = (unquote t).map fun x => (written r ++ x.1, x.2) := by
  cases r with
  | none =>
      exact unquote_u (n := 0xfffd) (a := 15) (b := 15) (c := 15) (d := 13)
        (by decide) (by decide) (by decide) (by decide) (by decide)
        (by decide) t
  | some c =>
      have hnat : ∀ n : Nat, c.toNat = n → c = Char.ofNat n := by
        rintro n rfl
        exact (Char.ofNat_toNat c).symm
      simp only [appendRune]
      split
      · rename_i h
        rcases h with rfl | rfl <;>
          exact unquote_short (by decide) (fun s => rfl) t
      split
      · rename_i h
        obtain rfl := hnat _ h
        exact unquote_short (by decide) (fun s => rfl) t
      split
      · rename_i h
        obtain rfl := hnat _ h
        exact unquote_short (by decide) (fun s => rfl) t
      split
      · subst_vars
        exact unquote_short (by decide) (fun s => rfl) t
      split
      · subst_vars
        exact unquote_short (by decide) (fun s => rfl) t
      split
      · subst_vars
        exact unquote_short (by decide) (fun s => rfl) t
      split
      · -- a control character, or one that HTML gives a meaning to
        rename_i h
        have hlt : c.toNat < 0x80 := by
          rcases h with h | rfl | rfl | rfl
          · omega
          · decide
          · decide
          · decide
        have hu := unquote_u (n := c.toNat) (a := 0) (b := 0)
          (c := c.toNat / 16) (d := c.toNat % 16) (by decide) (by decide)
          (by omega) (by omega) (by omega) (.inl (by omega)) t
        rw [Char.ofNat_toNat] at hu
        exact hu
      split
      · rename_i h
        rcases h with rfl | rfl
        · exact unquote_u (n := 0x2028) (a := 2) (b := 0) (c := 2) (d := 8)
            (by decide) (by decide) (by decide) (by decide) (by decide)
            (by decide) t
        · exact unquote_u (n := 0x2029) (a := 2) (b := 0) (c := 2) (d := 9)
            (by decide) (by decide) (by decide) (by decide) (by decide)
            (by decide) t
      · rename_i h1 h2 h3 h4 h5 h6 h7 h8
        exact unquote_char (fun h => h1 (.inr h)) (fun h => h1 (.inl h))
          (Nat.le_of_not_lt fun h => h7 (.inl h)) t

/-- **What is written for a string is read as its coercion.** -/
theorem unquote_runes (rs : List (Option Char)) (t : Bytes) :
    unquote (rs.flatMap appendRune ++ byte '"' :: t)
      = some (rs.flatMap written, t) := by
  induction rs with
  | nil =>
      rw [List.flatMap_nil, List.nil_append, unquote, if_pos rfl]
      rfl
  | cons r rs ih =>
      rw [List.flatMap_cons, List.append_assoc, unquote_appendRune, ih]
      rfl

/-! ## Flat objects -/

/-- The members of an object: names and values, both strings. -/
abbrev Members := List (Bytes × Bytes)

/-- White space between tokens. -/
def skip (s : Bytes) : Bytes :=
  s.dropWhile fun b => b = byte ' ' ∨ b = byte '\t' ∨ b = byte '\n'
    ∨ b = byte '\r'

/-- The token `c`. -/
def token (c : UInt8) (s : Bytes) : Option Bytes :=
  match skip s with
  | [] => none
  | d :: s => if d = c then some s else none

/-- A string. -/
def string (s : Bytes) : Option (Bytes × Bytes) :=
  (token (byte '"') s).bind unquote

/-- Behind the member `e`: a comma and more members, or the closing brace. -/
def following (more : Bytes → Option Members) (e : Bytes × Bytes)
    (s : Bytes) : Option Members :=
  match token (byte ',') s with
  | some s => (more s).map (e :: ·)
  | none => (token (byte '\x7d') s).map fun _ => [e]

/-- The members up to the closing brace; each takes some of the text. -/
def members : Nat → Bytes → Option Members
  | 0, _ => none
  | n + 1, s =>
      (string s).bind fun k =>
        (token (byte ':') k.2).bind fun s =>
          (string s).bind fun v => following (members n) (k.1, v.1) v.2

/-- The object at the front of a text. -/
def object (s : Bytes) : Option Members :=
  (token (byte '\x7b') s).bind fun s =>
    match token (byte '\x7d') s with
    | some _ => some []
    | none => members s.length s

/-- A member, as it is written. -/
def appendMember (e : Bytes × Bytes) : Bytes :=
  appendString e.1 ++ byte ':' :: appendString e.2

/-- An object, as it is written. -/
def appendObject (ms : Members) : Bytes :=
  byte '\x7b' :: ([byte ','].intercalate (ms.map appendMember)
    ++ [byte '\x7d'])

/-- A token at the front. -/
theorem token_cons {c : UInt8} (h : skip [c] = [c]) (s : Bytes) :
    token c (c :: s) = some s := by
  have hc : ¬ (c = byte ' ' ∨ c = byte '\t' ∨ c = byte '\n'
      ∨ c = byte '\r') := by
    intro hc
    simp [skip, hc] at h
  have hskip : skip (c :: s) = c :: s := by
    simp [skip, hc]
  rw [token, hskip]
  exact if_pos rfl

/-- Another token at the front. -/
theorem token_ne {c d : UInt8} (h : skip [d] = [d]) (hne : d ≠ c)
    (s : Bytes) : token c (d :: s) = none := by
  have hd : ¬ (d = byte ' ' ∨ d = byte '\t' ∨ d = byte '\n'
      ∨ d = byte '\r') := by
    intro hd
    simp [skip, hd] at h
  have hskip : skip (d :: s) = d :: s := by
    simp [skip, hd]
  rw [token, hskip]
  exact if_neg hne

/-- A string that was written. -/
theorem string_append (src t : Bytes) :
    string (appendString src ++ t) = some (coerce src, t) := by
  have htext : appendString src ++ t
      = byte '"' :: ((runes src).flatMap appendRune ++ byte '"' :: t) := by
    simp [appendString]
  rw [htext, string, token_cons (by decide), Option.bind_some,
    unquote_runes, coerce]

/-- The members that were written. -/
theorem members_append {ms : Members} (hne : ms ≠ []) {n : Nat}
    (hn : ms.length ≤ n) (t : Bytes) :
    members n ([byte ','].intercalate (ms.map appendMember)
        ++ byte '\x7d' :: t)
      = some (ms.map fun e => (coerce e.1, coerce e.2)) := by
  induction ms generalizing n with
  | nil => exact absurd rfl hne
  | cons e ms ih =>
      obtain ⟨n, rfl⟩ : ∃ n', n = n' + 1 :=
        ⟨n - 1, by simp only [List.length_cons] at hn; omega⟩
      -- the first member, whatever follows it
      have hfirst : ∀ u, members (n + 1) (appendMember e ++ u)
          = following (members n) (coerce e.1, coerce e.2) u := by
        intro u
        have htext : appendMember e ++ u
            = appendString e.1 ++ (byte ':' :: (appendString e.2 ++ u)) := by
          simp [appendMember]
        rw [htext, members, string_append, Option.bind_some,
          token_cons (by decide), Option.bind_some, string_append,
          Option.bind_some]
      by_cases hms : ms = []
      · subst hms
        simp only [List.map_cons, List.map_nil,
          List.intercalate_singleton]
        rw [hfirst, following, token_ne (by decide) (by decide),
          token_cons (by decide)]
        rfl
      · have hmap : ms.map appendMember ≠ [] := by simpa using hms
        simp only [List.length_cons] at hn
        rw [List.map_cons, List.intercalate_cons_of_ne_nil hmap,
          List.append_assoc, List.append_assoc, hfirst,
          List.singleton_append, following, token_cons (by decide)]
        simp only
        rw [ih hms (by omega)]
        rfl

/-- Every member takes some of the text. -/
theorem length_le_intercalate (ms : Members) :
    ms.length ≤ ([byte ','].intercalate (ms.map appendMember)).length := by
  induction ms with
  | nil => exact Nat.zero_le _
  | cons e ms ih =>
      have hpos : 1 ≤ (appendMember e).length := by
        simp [appendMember, appendString]
      by_cases hms : ms = []
      · subst hms
        simpa using hpos
      · have hmap : ms.map appendMember ≠ [] := by simpa using hms
        rw [List.map_cons, List.intercalate_cons_of_ne_nil hmap]
        simp only [List.length_append, List.length_cons]
        omega

/-- **An object is read as its members, coerced.** -/
theorem object_append {ms : Members} (hne : ms ≠ []) (t : Bytes) :
    object (appendObject ms ++ t)
      = some (ms.map fun e => (coerce e.1, coerce e.2)) := by
  have htext : appendObject ms ++ t = byte '\x7b' ::
      ([byte ','].intercalate (ms.map appendMember) ++ byte '\x7d' :: t) := by
    simp [appendObject]
  have hquote : token (byte '\x7d') ([byte ','].intercalate
      (ms.map appendMember) ++ byte '\x7d' :: t) = none := by
    obtain ⟨e, ms', rfl⟩ := List.exists_cons_of_ne_nil hne
    obtain ⟨u, hu⟩ : ∃ u, [byte ','].intercalate
        ((e :: ms').map appendMember) = byte '"' :: u := by
      by_cases hms : ms'.map appendMember = []
      · rw [List.map_cons, hms, List.intercalate_singleton]
        exact ⟨_, rfl⟩
      · rw [List.map_cons, List.intercalate_cons_of_ne_nil hms]
        exact ⟨_, rfl⟩
    rw [hu]
    exact token_ne (by decide) (by decide) _
  have hlen := length_le_intercalate ms
  rw [htext, object, token_cons (by decide), Option.bind_some, hquote]
  exact members_append hne (by
    rw [List.length_append]
    omega) t

end JsonText
