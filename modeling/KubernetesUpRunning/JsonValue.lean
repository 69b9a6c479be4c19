import KubernetesUpRunning.DecimalText
import KubernetesUpRunning.JsonText

/-! # JSON values

    How Go's `encoding/json` writes values that nest, and how its decoder reads
    the value at the front of a text.  A list between brackets and one between
    braces are read by the same loop, so that reading them back comes down to
    reading back one item (`items_append`).  What was written is read as it
    was, with its strings coerced to UTF-8. -/

namespace JsonValue

open AsciiText DecimalText JsonText

/-- A value.  A number is the text it is written as. -/
inductive Value where
  | null
  | bool (b : Bool)
  | num (literal : Bytes)
  | str (s : Bytes)
  | arr (vs : List Value)
  | obj (ms : List (Bytes × Value))

/-! ## Writing -/

mutual

def text : Value → Bytes
  | .null => ascii "null"
  | .bool true => ascii "true"
  | .bool false => ascii "false"
  | .num literal => literal
  | .str s => appendString s
  | .arr vs => byte '[' :: ([byte ','].intercalate (texts vs) ++ [byte ']'])
  | .obj ms =>
      byte '\x7b' :: ([byte ','].intercalate (memberTexts ms) ++ [byte '\x7d'])

def texts : List Value → List Bytes
  | [] => []
  | v :: vs => text v :: texts vs

def memberTexts : List (Bytes × Value) → List Bytes
  | [] => []
  | (k, v) :: ms => (appendString k ++ byte ':' :: text v) :: memberTexts ms

end

mutual

/-- The value with its strings coerced. -/
def coerced : Value → Value
  | .str s => .str (coerce s)
  | .arr vs => .arr (coercedList vs)
  | .obj ms => .obj (coercedMembers ms)
  | v => v

def coercedList : List Value → List Value
  | [] => []
  | v :: vs => coerced v :: coercedList vs

def coercedMembers : List (Bytes × Value) → List (Bytes × Value)
  | [] => []
  | (k, v) :: ms => (coerce k, coerced v) :: coercedMembers ms

end

/-- One member, as it is written. -/
def memberText (m : Bytes × Value) : Bytes :=
  appendString m.1 ++ byte ':' :: text m.2

theorem texts_eq (vs : List Value) : texts vs = vs.map text := by
  induction vs with
  | nil => rfl
  | cons v vs ih => rw [texts, ih, List.map_cons]

theorem memberTexts_eq (ms : List (Bytes × Value)) :
    memberTexts ms = ms.map memberText := by
  induction ms with
  | nil => rfl
  | cons m ms ih =>
      obtain ⟨k, v⟩ := m
      rw [memberTexts, ih, List.map_cons]
      rfl

theorem coercedList_eq (vs : List Value) :
    coercedList vs = vs.map coerced := by
  induction vs with
  | nil => rfl
  | cons v vs ih => rw [coercedList, ih, List.map_cons]

theorem coercedMembers_eq (ms : List (Bytes × Value)) :
    coercedMembers ms = ms.map fun m => (coerce m.1, coerced m.2) := by
  induction ms with
  | nil => rfl
  | cons m ms ih =>
      obtain ⟨k, v⟩ := m
      rw [coercedMembers, ih, List.map_cons]

/-! ## Reading -/

/-- The rest of a keyword. -/
def keyword (w s : Bytes) : Option Bytes :=
  if w <+: s then some (s.drop w.length) else none

/-- A run of digits that is not empty, behind what stands for the part. -/
def run (mark s : Bytes) : Option (Bytes × Bytes) :=
  if s.takeWhile isDigit = [] then none
  else some (mark ++ s.takeWhile isDigit, s.dropWhile isDigit)

/-- The digits before the point: a zero ends them. -/
def whole : Bytes → Option (Bytes × Bytes)
  | [] => none
  | c :: s =>
      if c = byte '0' then some ([c], s) else run [] (c :: s)

/-- The point and the digits behind it, if there is one. -/
def fraction : Bytes → Option (Bytes × Bytes)
  | [] => some ([], [])
  | c :: s => if c = byte '.' then run [c] s else some ([], c :: s)

/-- The exponent, if there is one. -/
def exponent : Bytes → Option (Bytes × Bytes)
  | [] => some ([], [])
  | c :: s =>
      if c = byte 'e' ∨ c = byte 'E' then
        match s with
        | [] => none
        | d :: t =>
            if d = byte '+' ∨ d = byte '-' then run [c, d] t else run [c] s
      else some ([], c :: s)

/-- A number behind its sign. -/
def unsigned (s : Bytes) : Option (Bytes × Bytes) :=
  (whole s).bind fun w =>
    (fraction w.2).bind fun f =>
      (exponent f.2).map fun e => (w.1 ++ f.1 ++ e.1, e.2)

/-- A number. -/
def number : Bytes → Option (Bytes × Bytes)
  | [] => none
  | c :: s =>
      if c = byte '-' then (unsigned s).map fun r => (c :: r.1, r.2)
      else unsigned (c :: s)

/-- A value that does not nest. -/
def scalar (s : Bytes) : Option (Value × Bytes) :=
  match skip s with
  | [] => none
  | c :: t =>
      if c = byte '"' then (unquote t).map fun r => (.str r.1, r.2)
      else if c = byte 'n' then (keyword (ascii "ull") t).map (.null, ·)
      else if c = byte 't' then (keyword (ascii "rue") t).map (.bool true, ·)
      else if c = byte 'f' then (keyword (ascii "alse") t).map (.bool false, ·)
      else (number (c :: t)).map fun r => (.num r.1, r.2)

section Items

variable {α : Type}

/-- Items up to the closing mark, with commas in between; each takes some of
    the text. -/
def items (item : Bytes → Option (α × Bytes)) (close : UInt8) :
    Nat → Bytes → Option (List α × Bytes)
  | 0, _ => none
  | n + 1, s =>
      (item s).bind fun x =>
        match token (byte ',') x.2 with
        | some t => (items item close n t).map fun r => (x.1 :: r.1, r.2)
        | none => (token close x.2).map fun t => ([x.1], t)

/-- What stands behind an opening mark. -/
def group (item : Bytes → Option (α × Bytes)) (close : UInt8) (s : Bytes) :
    Option (List α × Bytes) :=
  match token close s with
  | some t => some ([], t)
  | none => items item close s.length s

end Items

/-- A name, a colon and a value. -/
def member (value : Bytes → Option (Value × Bytes)) (s : Bytes) :
    Option ((Bytes × Value) × Bytes) :=
  (string s).bind fun k =>
    (token (byte ':') k.2).bind fun t =>
      (value t).map fun v => ((k.1, v.1), v.2)

/-- The value at the front of a text, nested as deep as the number says. -/
def value : Nat → Bytes → Option (Value × Bytes)
  | 0, s => scalar s
  | n + 1, s =>
      match token (byte '[') s with
      | some t => (group (value n) (byte ']') t).map fun r => (.arr r.1, r.2)
      | none =>
          match token (byte '\x7b') s with
          | some t =>
              (group (member (value n)) (byte '\x7d') t).map fun r =>
                (.obj r.1, r.2)
          | none => scalar s

/-- `maxNestingDepth`. -/
def maxNestingDepth : Nat := 10000

/-- `json.NewDecoder(s).Decode`, as far as the value. -/
def decode (s : Bytes) : Option Value := (value maxNestingDepth s).map Prod.fst

/-! ## Reading a number back -/

/-- A text that does not go on with a number before it. -/
def Follows (t : Bytes) : Prop :=
  ∀ c ∈ t.head?, isDigit c = false ∧ c ≠ byte '.' ∧ c ≠ byte 'e'
    ∧ c ≠ byte 'E'

theorem takeWhile_append {ds t : Bytes} (hds : ∀ b ∈ ds, isDigit b = true)
    (ht : Follows t) :
    (ds ++ t).takeWhile isDigit = ds ∧ (ds ++ t).dropWhile isDigit = t := by
  induction ds with
  | nil =>
      cases t with
      | nil => exact ⟨rfl, rfl⟩
      | cons c t =>
          have hc : isDigit c = false := (ht c rfl).1
          simp [hc]
  | cons c ds ih =>
      have hc : isDigit c = true := hds c List.mem_cons_self
      obtain ⟨h1, h2⟩ := ih fun b hb => hds b (List.mem_cons_of_mem _ hb)
      rw [List.cons_append, List.takeWhile_cons, List.dropWhile_cons,
        if_pos hc, if_pos hc, h1, h2]
      exact ⟨rfl, rfl⟩

theorem fraction_follows {t : Bytes} (ht : Follows t) :
    fraction t = some ([], t) := by
  cases t with
  | nil => rfl
  | cons c t => exact if_neg (ht c rfl).2.1

theorem exponent_follows {t : Bytes} (ht : Follows t) :
    exponent t = some ([], t) := by
  cases t with
  | nil => rfl
  | cons c t =>
      obtain ⟨-, -, he, hE⟩ := ht c rfl
      exact if_neg (not_or.mpr ⟨he, hE⟩)

theorem unsigned_digits {s : List Char} {m : Nat} (hs : Digits s m)
    {t : Bytes} (ht : Follows t) :
    unsigned (s.map byte ++ t) = some (s.map byte, t) := by
  have hwhole : whole (s.map byte ++ t) = some (s.map byte, t) := by
    obtain ⟨c, rest, rfl⟩ := List.exists_cons_of_ne_nil hs.ne_nil
    rw [List.map_cons, List.cons_append, whole]
    by_cases hc : byte c = byte '0'
    · -- a zero in front is all there is
      have hlt := (digit_byte (hs.digits c List.mem_cons_self)).1
      have hzero : c = '0' := by
        have h := congrArg toChar hc
        rwa [toChar_byte (by omega), toChar_byte (by decide)] at h
      have hrest := hs.leading (congrArg some hzero)
      rw [List.cons.injEq] at hrest
      rw [if_pos hc, hrest.2]
      rfl
    · have hall := all_isDigit hs
      obtain ⟨htake, hdrop⟩ := takeWhile_append hall ht
      rw [List.map_cons, List.cons_append] at htake hdrop
      rw [if_neg hc, run, htake, hdrop, if_neg (List.cons_ne_nil _ _)]
      rfl
  rw [unsigned, hwhole, Option.bind_some, fraction_follows ht,
    Option.bind_some, exponent_follows ht]
  simp

/-- An integer is read to its end. -/
theorem number_decimal (n : Int) {t : Bytes} (ht : Follows t) :
    number (decimal n ++ t) = some (decimal n, t) := by
  obtain ⟨s, m, hs, ⟨htext, -⟩ | ⟨htext, -⟩⟩ := toString_int n
  · have hdec : decimal n = s.map byte := by rw [decimal, ascii, htext]
    have hread := unsigned_digits hs ht
    obtain ⟨c, rest, rfl⟩ := List.exists_cons_of_ne_nil hs.ne_nil
    have hminus : byte c ≠ byte '-' := by
      intro h
      have hdigit := (digit_byte (hs.digits c List.mem_cons_self)).2
      rw [h] at hdigit
      exact absurd hdigit (by decide)
    rw [hdec]
    rw [List.map_cons, List.cons_append] at hread ⊢
    rw [number, if_neg hminus, hread]
  · have hdec : decimal n = byte '-' :: s.map byte := by
      rw [decimal, ascii, htext, List.map_cons]
    rw [hdec, List.cons_append, number, if_pos rfl, unsigned_digits hs ht]
    rfl

/-! ## Reading a list back -/

section ItemsBack

variable {α β : Type} {item : Bytes → Option (β × Bytes)} {write : α → Bytes}
  {f : α → β} {close : UInt8} {xs : List α}

/-- **THE LOOP READS BACK** what its items read back one by one. -/
theorem items_append (hclose : skip [close] = [close])
    (hcomma : close ≠ byte ',') (hne : xs ≠ [])
    (hitem : ∀ x ∈ xs, ∀ c t, c = byte ',' ∨ c = close →
      item (write x ++ c :: t) = some (f x, c :: t))
    {n : Nat} (hn : xs.length ≤ n) (t : Bytes) :
    items item close n ([byte ','].intercalate (xs.map write) ++ close :: t)
      = some (xs.map f, t) := by
  induction xs generalizing n with
  | nil => exact absurd rfl hne
  | cons x xs ih =>
      simp only [List.length_cons] at hn
      obtain ⟨n, rfl⟩ : ∃ n', n = n' + 1 := ⟨n - 1, by omega⟩
      have hfirst := hitem x List.mem_cons_self
      by_cases hxs : xs = []
      · subst hxs
        rw [List.map_cons, List.map_nil, List.intercalate_singleton, items,
          hfirst close t (.inr rfl), Option.bind_some]
        dsimp only
        rw [token_ne hclose hcomma, token_cons hclose]
        rfl
      · have hmap : xs.map write ≠ [] := by simpa using hxs
        have hrest := ih hxs (fun y hy => hitem y (List.mem_cons_of_mem _ hy))
          (n := n) (by omega)
        rw [List.map_cons, List.intercalate_cons_of_ne_nil hmap,
          List.append_assoc, List.append_assoc, List.singleton_append, items,
          hfirst (byte ',') _ (.inl rfl), Option.bind_some]
        dsimp only
        rw [token_cons (by decide)]
        dsimp only
        rw [hrest]
        rfl

/-- Every item takes some of the text. -/
theorem length_le_intercalate (h : ∀ x ∈ xs, write x ≠ []) :
    xs.length ≤ ([byte ','].intercalate (xs.map write)).length := by
  induction xs with
  | nil => exact Nat.zero_le _
  | cons x xs ih =>
      have hpos : 1 ≤ (write x).length :=
        List.length_pos_iff.mpr (h x List.mem_cons_self)
      have hrest := ih fun y hy => h y (List.mem_cons_of_mem _ hy)
      by_cases hxs : xs = []
      · subst hxs
        simpa using hpos
      · have hmap : xs.map write ≠ [] := by simpa using hxs
        rw [List.map_cons, List.intercalate_cons_of_ne_nil hmap]
        simp only [List.length_append, List.length_cons]
        omega

/-- What is written for an item starts with something that is neither a blank
    nor the closing mark. -/
def Starts (close : UInt8) (s : Bytes) : Prop :=
  ∃ c t, s = c :: t ∧ skip [c] = [c] ∧ c ≠ close

theorem group_append (hclose : skip [close] = [close])
    (hcomma : close ≠ byte ',') (hstart : ∀ x ∈ xs, Starts close (write x))
    (hitem : ∀ x ∈ xs, ∀ c t, c = byte ',' ∨ c = close →
      item (write x ++ c :: t) = some (f x, c :: t)) (t : Bytes) :
    group item close ([byte ','].intercalate (xs.map write) ++ close :: t)
      = some (xs.map f, t) := by
  by_cases hxs : xs = []
  · subst hxs
    rw [List.map_nil, List.intercalate_nil, List.nil_append, group,
      token_cons hclose]
    rfl
  · have hnone : token close
        ([byte ','].intercalate (xs.map write) ++ close :: t) = none := by
      obtain ⟨x, ys, rfl⟩ := List.exists_cons_of_ne_nil hxs
      obtain ⟨c, r, hx, hskip, hc⟩ := hstart x List.mem_cons_self
      by_cases hys : ys = []
      · subst hys
        rw [List.map_cons, List.map_nil, List.intercalate_singleton, hx]
        exact token_ne hskip hc _
      · have hmap : ys.map write ≠ [] := by simpa using hys
        rw [List.map_cons, List.intercalate_cons_of_ne_nil hmap, hx]
        exact token_ne hskip hc _
    have hlen : xs.length
        ≤ ([byte ','].intercalate (xs.map write) ++ close :: t).length := by
      rw [List.length_append]
      refine Nat.le_trans (length_le_intercalate fun x hx => ?_)
        (Nat.le_add_right _ _)
      obtain ⟨c, r, hw, -⟩ := hstart x hx
      rw [hw]
      exact List.cons_ne_nil _ _
    rw [group, hnone]
    exact items_append hclose hcomma hxs hitem hlen t

end ItemsBack

/-! ## Reading a value back -/

/-- A value whose numbers are integers, nested no deeper than the number says.
    -/
inductive Written : Nat → Value → Prop where
  | null (n) : Written n .null
  | bool (n b) : Written n (.bool b)
  | int (n) (i : Int) : Written n (.num (decimal i))
  | str (n s) : Written n (.str s)
  | arr {n vs} : (∀ v ∈ vs, Written n v) → Written (n + 1) (.arr vs)
  | obj {n ms} : (∀ m ∈ ms, Written n m.2) → Written (n + 1) (.obj ms)

theorem skip_cons {c : UInt8} (h : skip [c] = [c]) (s : Bytes) :
    skip (c :: s) = c :: s := by
  have hc : ¬ (c = byte ' ' ∨ c = byte '\t' ∨ c = byte '\n'
      ∨ c = byte '\r') := by
    intro hc
    simp [skip, hc] at h
  simp [skip, hc]

/-- What does not start with a bracket or a brace is a scalar. -/
theorem value_of_front {c : UInt8} (h : skip [c] = [c])
    (hbracket : c ≠ byte '[') (hbrace : c ≠ byte '\x7b') (n : Nat)
    (s : Bytes) : value n (c :: s) = scalar (c :: s) := by
  cases n with
  | zero => rfl
  | succ n => rw [value, token_ne h hbracket, token_ne h hbrace]

/-- The text of an integer starts with a minus sign or a digit. -/
theorem decimal_front (n : Int) : ∃ c t, decimal n = c :: t
    ∧ (c = byte '-' ∨ isDigit c = true) := by
  obtain ⟨s, m, hs, ⟨htext, -⟩ | ⟨htext, -⟩⟩ := toString_int n
  · obtain ⟨c, rest, rfl⟩ := List.exists_cons_of_ne_nil hs.ne_nil
    refine ⟨byte c, rest.map byte, ?_, .inr ?_⟩
    · rw [decimal, ascii, htext, List.map_cons]
    · exact (digit_byte (hs.digits c List.mem_cons_self)).2
  · refine ⟨byte '-', s.map byte, ?_, .inl rfl⟩
    rw [decimal, ascii, htext, List.map_cons]

theorem ne_of_number {c d : UInt8} (h : c = byte '-' ∨ isDigit c = true)
    (hd : d ≠ byte '-' ∧ isDigit d = false) : c ≠ d := by
  rintro rfl
  rcases h with h | h
  · exact hd.1 h
  · rw [hd.2] at h
    exact absurd h (by decide)

theorem skip_of_number {c : UInt8} (h : c = byte '-' ∨ isDigit c = true) :
    skip [c] = [c] := by
  have hc : ¬ (c = byte ' ' ∨ c = byte '\t' ∨ c = byte '\n'
      ∨ c = byte '\r') := by
    rintro (hc | hc | hc | hc)
    · exact ne_of_number h (by decide) hc
    · exact ne_of_number h (by decide) hc
    · exact ne_of_number h (by decide) hc
    · exact ne_of_number h (by decide) hc
  simp [skip, hc]

/-- What is written for a value starts with no blank and closes nothing. -/
theorem starts_text {n : Nat} {v : Value} (h : Written n v) {close : UInt8}
    (hclose : close = byte ']' ∨ close = byte '\x7d') :
    Starts close (text v) := by
  have hne : ∀ c : UInt8, c ≠ byte ']' → c ≠ byte '\x7d' → c ≠ close := by
    rintro c h1 h2 rfl
    rcases hclose with hclose | hclose
    · exact h1 hclose
    · exact h2 hclose
  cases h with
  | null => exact ⟨byte 'n', _, rfl, by decide, hne _ (by decide) (by decide)⟩
  | bool n b =>
      cases b with
      | true =>
          exact ⟨byte 't', _, rfl, by decide, hne _ (by decide) (by decide)⟩
      | false =>
          exact ⟨byte 'f', _, rfl, by decide, hne _ (by decide) (by decide)⟩
  | int n i =>
      obtain ⟨c, t, hdec, hc⟩ := decimal_front i
      exact ⟨c, t, hdec, skip_of_number hc, hne c
        (ne_of_number hc (by decide)) (ne_of_number hc (by decide))⟩
  | str => exact ⟨byte '"', _, rfl, by decide, hne _ (by decide) (by decide)⟩
  | arr => exact ⟨byte '[', _, rfl, by decide, hne _ (by decide) (by decide)⟩
  | obj =>
      exact ⟨byte '\x7b', _, rfl, by decide, hne _ (by decide) (by decide)⟩

/-- A value that does not nest. -/
theorem scalar_text {c : UInt8} {t : Bytes} (h : skip [c] = [c]) :
    scalar (c :: t)
      = if c = byte '"' then (unquote t).map fun r => (.str r.1, r.2)
        else if c = byte 'n' then (keyword (ascii "ull") t).map (.null, ·)
        else if c = byte 't' then
          (keyword (ascii "rue") t).map (.bool true, ·)
        else if c = byte 'f' then
          (keyword (ascii "alse") t).map (.bool false, ·)
        else (number (c :: t)).map fun r => (.num r.1, r.2) := by
  rw [scalar, skip_cons h]

theorem keyword_append (w t : Bytes) : keyword w (w ++ t) = some t := by
  rw [keyword, if_pos (List.prefix_append w t), List.drop_left]

/-- What may follow an item does not go on with a number. -/
theorem follows_mark {close : UInt8}
    (hclose : close = byte ']' ∨ close = byte '\x7d') {c : UInt8} {t : Bytes}
    (hc : c = byte ',' ∨ c = close) : Follows (c :: t) := by
  intro d hd
  obtain rfl := Option.some.inj hd
  rcases hc with rfl | rfl
  · decide
  · rcases hclose with rfl | rfl
    · decide
    · decide

/-- **READING BACK**: the value at the front of a text is the one that was
    written, with its strings coerced. -/
theorem value_text {n : Nat} {v : Value} (h : Written n v) {t : Bytes}
    (ht : Follows t) : value n (text v ++ t) = some (coerced v, t) := by
  induction h generalizing t with
  | null n =>
      rw [show text .null ++ t = byte 'n' :: (ascii "ull" ++ t) from rfl,
        value_of_front (by decide) (by decide) (by decide),
        scalar_text (by decide), if_neg (by decide), if_pos rfl,
        keyword_append]
      rfl
  | bool n b =>
      cases b with
      | true =>
          rw [show text (.bool true) ++ t = byte 't' :: (ascii "rue" ++ t)
              from rfl,
            value_of_front (by decide) (by decide) (by decide),
            scalar_text (by decide), if_neg (by decide), if_neg (by decide),
            if_pos rfl, keyword_append]
          rfl
      | false =>
          rw [show text (.bool false) ++ t = byte 'f' :: (ascii "alse" ++ t)
              from rfl,
            value_of_front (by decide) (by decide) (by decide),
            scalar_text (by decide), if_neg (by decide), if_neg (by decide),
            if_neg (by decide), if_pos rfl, keyword_append]
          rfl
  | int n i =>
      obtain ⟨c, r, hdec, hc⟩ := decimal_front i
      have hread := number_decimal i ht
      have hskip := skip_of_number hc
      have hmark : ∀ d, d ≠ byte '-' ∧ isDigit d = false → c ≠ d :=
        fun d hd => ne_of_number hc hd
      rw [text, coerced]
      · rw [hdec, List.cons_append] at hread ⊢
        rw [value_of_front hskip (hmark _ (by decide)) (hmark _ (by decide)),
          scalar_text hskip, if_neg (hmark _ (by decide)),
          if_neg (hmark _ (by decide)), if_neg (hmark _ (by decide)),
          if_neg (hmark _ (by decide)), hread]
        rfl
      all_goals simp
  | str n s =>
      have hunquote := unquote_runes (runes s) t
      have htext : text (.str s) ++ t
          = byte '"' :: ((runes s).flatMap appendRune ++ byte '"' :: t) := by
        simp [text, appendString]
      rw [htext, value_of_front (by decide) (by decide) (by decide),
        scalar_text (by decide), if_pos rfl, hunquote, coerced, coerce]
      rfl
  | @arr n vs hvs ih =>
      have htext : text (.arr vs) ++ t = byte '['
          :: ([byte ','].intercalate (vs.map text) ++ byte ']' :: t) := by
        simp [text, texts_eq]
      have hgroup : group (value n) (byte ']')
          ([byte ','].intercalate (vs.map text) ++ byte ']' :: t)
          = some (vs.map coerced, t) :=
        group_append (by decide) (by decide)
          (fun v hv => starts_text (hvs v hv) (.inl rfl))
          (fun v hv c r hc => ih v hv (follows_mark (.inl rfl) hc)) t
      rw [htext, value, token_cons (by decide)]
      dsimp only
      rw [hgroup, coerced, coercedList_eq]
      rfl
  | @obj n ms hms ih =>
      have htext : text (.obj ms) ++ t = byte '\x7b'
          :: ([byte ','].intercalate (ms.map memberText)
            ++ byte '\x7d' :: t) := by
        simp [text, memberTexts_eq]
      have hmember : ∀ m ∈ ms, ∀ c r, c = byte ',' ∨ c = byte '\x7d' →
          member (value n) (memberText m ++ c :: r)
            = some ((coerce m.1, coerced m.2), c :: r) := by
        intro m hm c r hc
        have hline : memberText m ++ c :: r
            = appendString m.1 ++ (byte ':' :: (text m.2 ++ c :: r)) := by
          simp [memberText]
        rw [hline, member, string_append, Option.bind_some,
          token_cons (by decide), Option.bind_some,
          ih m hm (follows_mark (.inr rfl) hc)]
        rfl
      have hgroup : group (member (value n)) (byte '\x7d')
          ([byte ','].intercalate (ms.map memberText) ++ byte '\x7d' :: t)
          = some (ms.map fun m => (coerce m.1, coerced m.2), t) :=
        group_append (by decide) (by decide)
          (fun m _ => ⟨byte '"', _, rfl, by decide, by decide⟩) hmember t
      rw [htext, value, token_ne (by decide) (by decide)]
      dsimp only
      rw [token_cons (by decide)]
      dsimp only
      rw [hgroup, coerced, coercedMembers_eq]
      rfl

/-- A value and a newline, as an encoder writes them. -/
theorem decode_text {v : Value} (h : Written maxNestingDepth v) :
    decode (text v ++ [byte '\n']) = some (coerced v) := by
  have hnl : Follows [byte '\n'] := by
    intro c hc
    obtain rfl := Option.some.inj hc
    decide
  rw [decode, value_text h hnl]
  rfl

end JsonValue
