import KubernetesUpRunning.DecimalText
import KubernetesUpRunning.JsNumber
import KubernetesUpRunning.Primos

/-! # The service that the operator deploys

    `multiplica/app.js` answers `GET /multiplica/:number` with the number times
    MULTIPLIER.  Both are texts that it reads with `parseFloat`.  The number
    comes from the path, MULTIPLIER from the environment that the operator has
    written; this file says what becomes of an integer that was written in
    decimal. -/

namespace MultiplicaApp

open DecimalText JsNumber Primos

/-! ## `parseFloat` -/

/-- An optional sign, and what follows it. -/
def sign : List Char → Bool × List Char
  | '-' :: s => (true, s)
  | '+' :: s => (false, s)
  | s => (false, s)

/-- The longest run of digits, and what follows it. -/
def digits (s : List Char) : List Char × List Char :=
  (s.takeWhile Char.isDigit, s.dropWhile Char.isDigit)

/-- The digits after a point, and what follows them. -/
def fraction : List Char → List Char × List Char
  | '.' :: s => digits s
  | s => ([], s)

/-- The power of ten; without digits there is none. -/
def exponent : List Char → ℤ
  | [] => 0
  | c :: s =>
      if c = 'e' ∨ c = 'E' then
        let e := Nat.ofDigitChars 10 (digits (sign s).2).1 0
        if (sign s).1 then -e else e
      else 0

/-- The value of the longest prefix that is a decimal literal without sign. -/
def decimal (s : List Char) : Option ℚ :=
  let whole := digits s
  let part := fraction whole.2
  if whole.1 ++ part.1 = [] then none
  else
    some (Nat.ofDigitChars 10 (whole.1 ++ part.1) 0
      * 10 ^ (exponent part.2 - part.1.length))

/-- `parseFloat`. -/
def parseFloat (s : List Char) : Number :=
  let signed := sign (s.dropWhile esBlanco)
  if "Infinity".toList.isPrefixOf signed.2 then .infinity signed.1
  else
    match decimal signed.2 with
    | none => .nan
    | some q => ofRat (if signed.1 then -q else q)

/-! ## The service -/

/-- `PORT`. -/
def port : Int := 8080

/-- The body of a good answer. -/
structure Answer where
  input : Number
  multiplier : Number
  result : Number
  operation : String
  host : String
  deriving DecidableEq

/-- The body of an answer with status 400. -/
structure Rejection where
  error : String
  «example» : String
  deriving DecidableEq

/-- `envMultiplier`, or 2 when it is NaN.  A variable that is not set is
    `undefined`, and `parseFloat` reads the text of that. -/
def multiplier (env : Option String) : Number :=
  let envMultiplier := parseFloat (env.getD "undefined").toList
  if envMultiplier = .nan then .finite 2 else envMultiplier

/-- `GET /multiplica/:number`, where `text` is how JavaScript prints a number
    and `env` the value of `process.env.MULTIPLIER`. -/
def getMultiplica (text : Number → String) (hostname : String)
    (env : Option String) (param : String) : Except Rejection Answer :=
  let number := parseFloat param.toList
  if number = .nan then
    .error { error := "Número incorrecto", «example» := "GET /multiplica/21" }
  else
    .ok
      { input := number
        multiplier := multiplier env
        result := mul number (multiplier env)
        operation := "multiplica por " ++ text (multiplier env)
        host := hostname }

/-! ## Integers written in decimal -/

theorem takeWhile_of_all {p : Char → Bool} {s : List Char}
    (h : ∀ c ∈ s, p c = true) : s.takeWhile p = s := by
  induction s with
  | nil => rfl
  | cons c s ih =>
      simp only [List.mem_cons, forall_eq_or_imp] at h
      rw [List.takeWhile_cons, if_pos h.1, ih h.2]

theorem dropWhile_of_all {p : Char → Bool} {s : List Char}
    (h : ∀ c ∈ s, p c = true) : s.dropWhile p = [] := by
  induction s with
  | nil => rfl
  | cons c s ih =>
      simp only [List.mem_cons, forall_eq_or_imp] at h
      rw [List.dropWhile_cons, if_pos h.1, ih h.2]

/-- A text of digits is read to its end. -/
theorem decimal_of_digits {s : List Char} (hne : s ≠ [])
    (h : ∀ c ∈ s, c.isDigit = true) :
    decimal s = some (Nat.ofDigitChars 10 s 0 : ℚ) := by
  have hdigits : digits s = (s, []) := by
    rw [digits, takeWhile_of_all h, dropWhile_of_all h]
  rw [decimal, hdigits]
  simp [fraction, exponent, hne]

/-- A digit starts neither a blank, a sign nor `Infinity`. -/
theorem digit_starts {c : Char} (h : c.isDigit = true) :
    esBlanco c = false ∧ c ≠ '-' ∧ c ≠ '+' ∧ c ≠ 'I' := by
  have hrange : 48 ≤ c.toNat ∧ c.toNat ≤ 57 := by
    simp only [Char.isDigit, ge_iff_le, Bool.and_eq_true, decide_eq_true_eq,
      UInt32.le_iff_toNat_le] at h
    exact h
  have hne : ∀ x : Char, x.toNat < 48 ∨ 57 < x.toNat → c ≠ x := by
    rintro x hx rfl
    omega
  refine ⟨?_, hne _ (by decide), hne _ (by decide), hne _ (by decide)⟩
  rw [esBlanco]
  generalize c.toNat = v at hrange
  grind

/-- The steps of `parseFloat` on a number that is not infinite. -/
theorem parseFloat_eq {s t r : List Char} {negative : Bool} {q : ℚ}
    (hblank : s.dropWhile esBlanco = t) (hsign : sign t = (negative, r))
    (hinf : "Infinity".toList.isPrefixOf r = false)
    (hdecimal : decimal r = some q) :
    parseFloat s = ofRat (if negative then -q else q) := by
  unfold parseFloat
  rw [hblank, hsign]
  simp only [hinf, hdecimal]
  rfl

theorem parseFloat_of_digits {s : List Char} (hne : s ≠ [])
    (h : ∀ c ∈ s, c.isDigit = true) :
    parseFloat s = ofRat (Nat.ofDigitChars 10 s 0)
      ∧ parseFloat ('-' :: s) = ofRat (-(Nat.ofDigitChars 10 s 0 : ℚ)) := by
  have hdecimal := decimal_of_digits hne h
  obtain ⟨c, rest, rfl⟩ := List.exists_cons_of_ne_nil hne
  obtain ⟨hblank, hminus, hplus, hinf⟩ := digit_starts (h c List.mem_cons_self)
  have hsign : sign (c :: rest) = (false, c :: rest) := by
    unfold sign
    split
    · rename_i hs
      cases hs
      exact absurd rfl hminus
    · rename_i hs
      cases hs
      exact absurd rfl hplus
    · rfl
  have hprefix : "Infinity".toList.isPrefixOf (c :: rest) = false := by
    rw [show "Infinity".toList = 'I' :: "nfinity".toList from rfl,
      List.isPrefixOf]
    simp [hinf.symm]
  have hdrop : (c :: rest).dropWhile esBlanco = c :: rest := by
    rw [List.dropWhile_cons, if_neg (by simp [hblank])]
  have hdrop' : ('-' :: c :: rest).dropWhile esBlanco = '-' :: c :: rest := by
    rw [List.dropWhile_cons, if_neg (by decide)]
  constructor
  · rw [parseFloat_eq hdrop hsign hprefix hdecimal, if_neg Bool.false_ne_true]
  · rw [parseFloat_eq hdrop' (r := c :: rest) (by rfl) hprefix hdecimal,
      if_pos rfl]

/-- **DECIMAL**: `parseFloat` reads back an integer that was written in
    decimal, as far as a Number can hold it. -/
theorem parseFloat_toString (n : ℤ) :
    parseFloat (toString n).toList = ofRat n := by
  obtain ⟨s, m, hs, ⟨htext, hn⟩ | ⟨htext, hn⟩⟩ := toString_int n
  · rw [htext, (parseFloat_of_digits hs.ne_nil hs.digits).1, hs.value, hn]
    norm_cast
  · rw [htext, (parseFloat_of_digits hs.ne_nil hs.digits).2, hs.value, hn]
    norm_cast

/-- An integer as MULTIPLIER, and one as the number. -/
theorem getMultiplica_int (text : Number → String) (hostname : String)
    {n m : ℤ} (hn : |n| ≤ 2 ^ 53) (hm : |m| ≤ 2 ^ 53)
    (hnm : |n * m| ≤ 2 ^ 53) :
    getMultiplica text hostname (some (toString m)) (toString n)
      = .ok
        { input := .finite n
          multiplier := .finite m
          result := .finite ((n * m : ℤ) : ℚ)
          operation := "multiplica por " ++ text (.finite m)
          host := hostname } := by
  have hmult : multiplier (some (toString m)) = .finite m := by
    rw [multiplier, Option.getD_some, parseFloat_toString, ofRat_intCast hm]
    simp
  rw [getMultiplica, parseFloat_toString, ofRat_intCast hn, hmult,
    mul_intCast hnm]
  simp

end MultiplicaApp
