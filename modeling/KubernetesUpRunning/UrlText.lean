import Mathlib.Data.List.TakeWhile
import KubernetesUpRunning.AsciiText

/-! # The text of a URL

    What Go's `net/url` reads from a text that starts with `http://`, byte by
    byte: what stands behind the first `#` and behind the first `?` is cut off,
    the authority ends at the first slash, and the escapes of the rest are
    decoded.  The rules below say how each of these goes through an append, and
    that decoding never makes a text longer. -/

namespace UrlText

open AsciiText

/-! ## Cutting -/

/-- What stands before the first `c`: the first result of `strings.Cut`. -/
def before (c : UInt8) (s : Bytes) : Bytes := s.takeWhile (· ≠ c)

/-- What stands behind the first `c`: the second result. -/
def after (c : UInt8) (s : Bytes) : Bytes := (s.dropWhile (· ≠ c)).drop 1

theorem all_ne {c : UInt8} {s : Bytes} (h : c ∉ s) :
    ∀ b ∈ s, decide (b ≠ c) = true := by
  intro b hb
  rw [decide_eq_true_eq]
  rintro rfl
  exact h hb

/-- Without a `c` all of it stands before. -/
theorem before_of_notMem {c : UInt8} {s : Bytes} (h : c ∉ s) :
    before c s = s :=
  List.takeWhile_eq_self_iff.2 (all_ne h)

/-- A text without a `c` in front. -/
theorem before_append {c : UInt8} {s : Bytes} (h : c ∉ s) (t : Bytes) :
    before c (s ++ t) = s ++ before c t :=
  List.takeWhile_append_of_pos (all_ne h)

/-- The text before a `c`. -/
theorem before_append_cons {c : UInt8} {s : Bytes} (h : c ∉ s) (t : Bytes) :
    before c (s ++ c :: t) = s := by
  rw [before_append h]
  simp [before]

/-- A text that is not cut. -/
theorem after_of_notMem {c : UInt8} {s : Bytes} (h : c ∉ s) :
    after c s = [] := by
  have hnil : s.dropWhile (· ≠ c) = [] :=
    List.dropWhile_eq_nil_iff.2 (all_ne h)
  rw [after, hnil]
  rfl

/-- A text without a `c` in front. -/
theorem after_append {c : UInt8} {s : Bytes} (h : c ∉ s) (t : Bytes) :
    after c (s ++ t) = after c t := by
  rw [after, List.dropWhile_append_of_pos (all_ne h), after]

/-- Nothing before the first `c` is a `c`. -/
theorem notMem_before (c : UInt8) (s : Bytes) : c ∉ before c s := by
  intro h
  simpa using List.mem_takeWhile_imp h

/-- What stands behind the first `c` does not change what stands before. -/
theorem before_append_of_mem {c : UInt8} {s : Bytes} (h : c ∈ s)
    (t : Bytes) : before c (s ++ t) = before c s := by
  induction s with
  | nil => cases h
  | cons b s ih =>
      by_cases hb : b = c
      · simp [before, hb]
      · have hkeep : decide (b ≠ c) = true := by simpa using hb
        have hs : c ∈ s := by
          rcases List.mem_cons.1 h with rfl | hs
          · exact absurd rfl hb
          · exact hs
        have hi := ih hs
        simp only [before] at hi ⊢
        have hcons : ∀ l : Bytes, (b :: l).takeWhile (· ≠ c)
            = b :: l.takeWhile (· ≠ c) :=
          fun l => List.takeWhile_cons_of_pos hkeep
        rw [List.cons_append, hcons, hcons, hi]

/-- A text with a `c` gets shorter. -/
theorem length_before_lt {c : UInt8} {s : Bytes} (h : c ∈ s) :
    (before c s).length < s.length := by
  refine Nat.lt_of_le_of_ne (List.takeWhile_prefix _).length_le fun hlen => ?_
  have heq : before c s = s := (List.takeWhile_prefix _).eq_of_length hlen
  exact notMem_before c s (heq.symm ▸ h)

theorem length_before_le (c : UInt8) (s : Bytes) :
    (before c s).length ≤ s.length := (List.takeWhile_prefix _).length_le

/-! ## Escapes -/

/-- `unescape`, of a path or a fragment: an escape is a `%` and two hexadecimal
    digits, and a `%` without them is an error. -/
def unescape : Bytes → Option Bytes
  | [] => some []
  | c :: s =>
      if c = byte '%' then
        match s with
        | h :: l :: s =>
            match unhex h, unhex l with
            | some h, some l => (unescape s).map ((h * 16 + l) :: ·)
            | _, _ => none
        | _ => none
      else (unescape s).map (c :: ·)

/-- A byte that is no `%` stands for itself. -/
theorem unescape_cons {c : UInt8} (h : c ≠ byte '%') (s : Bytes) :
    unescape (c :: s) = (unescape s).map (c :: ·) := by
  rw [unescape.eq_def]
  simp only [if_neg h]

/-- A text without a `%` in front. -/
theorem unescape_append {s : Bytes} (h : byte '%' ∉ s) (t : Bytes) :
    unescape (s ++ t) = (unescape t).map (s ++ ·) := by
  induction s with
  | nil => simp
  | cons c s ih =>
      obtain ⟨hc, hs⟩ : byte '%' ≠ c ∧ byte '%' ∉ s := by simpa using h
      rw [List.cons_append, unescape_cons hc.symm, ih hs, Option.map_map]
      rfl

/-- A text without a `%` is its own decoding. -/
theorem unescape_of_notMem {s : Bytes} (h : byte '%' ∉ s) :
    unescape s = some s := by
  have := unescape_append h []
  simpa [unescape] using this

/-- Decoding in two parts, at a byte that belongs to no escape. -/
theorem unescape_append_cons {c : UInt8} (hc : c ≠ byte '%')
    (hx : unhex c = none) (s t : Bytes) :
    unescape (s ++ c :: t)
      = (unescape s).bind fun x => (unescape t).map fun y => x ++ c :: y := by
  induction s using unescape.induct with
  | case1 =>
      rw [List.nil_append, unescape_cons hc]
      simp [unescape]
  | case2 h l s h' l' hh hl ih =>
      rw [List.cons_append, List.cons_append, List.cons_append, unescape,
        unescape]
      simp only [if_true, hh, hl, ih]
      cases unescape s <;> cases unescape t <;> rfl
  | case3 h l s hbad =>
      rw [List.cons_append, List.cons_append, List.cons_append, unescape,
        unescape]
      cases hh : unhex h with
      | none => simp
      | some x =>
          cases hl : unhex l with
          | none => simp
          | some y => exact absurd hl (hbad x y hh)
  | case4 s hshort =>
      cases s with
      | nil => cases t <;> simp [unescape, hx]
      | cons h s =>
          cases s with
          | nil => simp [unescape, hx]
          | cons l s => exact absurd rfl (hshort h l s)
  | case5 d s hd ih =>
      rw [List.cons_append, unescape_cons hd, unescape_cons hd, ih]
      cases unescape s <;> cases unescape t <;> rfl

/-- Decoding makes no text longer, and one with a `%` shorter. -/
theorem length_of_unescape {s t : Bytes} (h : unescape s = some t) :
    t.length ≤ s.length ∧ (byte '%' ∈ s → t.length < s.length) := by
  induction s using unescape.induct generalizing t with
  | case1 =>
      obtain rfl : [] = t := Option.some.inj h
      exact ⟨Nat.le_refl _, fun h => by cases h⟩
  | case2 x y s x' y' hx hy ih =>
      rw [unescape] at h
      simp only [if_true, hx, hy] at h
      obtain ⟨u, hu, rfl⟩ := Option.map_eq_some_iff.1 h
      have hlen := (ih hu).1
      simp only [List.length_cons]
      exact ⟨by omega, fun _ => by omega⟩
  | case3 x y s hbad =>
      rw [unescape] at h
      cases hx : unhex x with
      | none => simp [hx] at h
      | some x' =>
          cases hy : unhex y with
          | none => simp [hx, hy] at h
          | some y' => exact absurd hy (hbad x' y' hx)
  | case4 s hshort =>
      cases s with
      | nil => simp [unescape] at h
      | cons x s =>
          cases s with
          | nil => simp [unescape] at h
          | cons y s => exact absurd rfl (hshort x y s)
  | case5 c s hc ih =>
      rw [unescape_cons hc] at h
      obtain ⟨u, hu, rfl⟩ := Option.map_eq_some_iff.1 h
      obtain ⟨hle, hlt⟩ := ih hu
      simp only [List.length_cons]
      refine ⟨by omega, fun hmem => ?_⟩
      rcases List.mem_cons.1 hmem with rfl | hmem
      · exact absurd rfl hc
      · have := hlt hmem
        omega

/-! ## Parsing -/

/-- `stringContainsCTLByte`, for one byte. -/
def isControl (b : UInt8) : Bool := b < 0x20 || b = 0x7f

/-- `url.URL`, of the scheme `http` and without a fragment.  The path is the
    decoded one. -/
structure URL where
  host : Bytes
  path : Bytes
  rawQuery : Bytes
  deriving DecidableEq, Repr

/-- `url.Parse` of a text that starts with `http://`.  The authorities it takes
    are a parameter. -/
def parse (hostOk : Bytes → Bool) (rawURL : Bytes) : Option URL :=
  let u := before (byte '#') rawURL
  let fragment := after (byte '#') rawURL
  let rest := before (byte '?') u
  let authority := before (byte '/') (rest.drop (ascii "http://").length)
  let path := rest.drop ((ascii "http://").length + authority.length)
  if u.any isControl ∨ ¬ ascii "http://" <+: rest ∨ ¬ hostOk authority
      ∨ unescape fragment = none then none
  else
    (unescape path).map fun path =>
      { host := authority, path := path, rawQuery := after (byte '?') u }

/-- The bytes that an authority and a plain path are made of. -/
def Clean (s : Bytes) : Prop :=
  ∀ b ∈ s, isControl b = false ∧ b ≠ byte '#' ∧ b ≠ byte '?' ∧ b ≠ byte '%'

/-- A plain text, byte by byte. -/
theorem clean_of_all {s : Bytes} (h : s.all fun b =>
    decide (isControl b = false ∧ b ≠ byte '#' ∧ b ≠ byte '?'
      ∧ b ≠ byte '%')) : Clean s := forall_of_all h

/-- A text behind a given address: what is parsed of it. -/
theorem parse_address (hostOk : Bytes → Bool) {host base : Bytes}
    (hh : Clean host) (hs : byte '/' ∉ host) (hok : hostOk host)
    (hb : Clean base) (hb0 : base.head? = some (byte '/')) (tail : Bytes) :
    parse hostOk (ascii "http://" ++ host ++ base ++ tail)
      = if (before (byte '#') tail).any isControl
          ∨ unescape (after (byte '#') tail) = none then none
        else
          (unescape (before (byte '?') (before (byte '#') tail))).map fun p =>
            { host := host, path := base ++ p
              rawQuery := after (byte '?') (before (byte '#') tail) } := by
  have hhttp : Clean (ascii "http://") := clean_of_all (by decide)
  have hclean : Clean (ascii "http://" ++ host ++ base) := by
    intro b hmem
    rcases List.mem_append.1 hmem with hmem | hmem
    · rcases List.mem_append.1 hmem with hmem | hmem
      · exact hhttp b hmem
      · exact hh b hmem
    · exact hb b hmem
  have hnum : byte '#' ∉ ascii "http://" ++ host ++ base :=
    fun h => (hclean _ h).2.1 rfl
  have hque : byte '?' ∉ ascii "http://" ++ host ++ base :=
    fun h => (hclean _ h).2.2.1 rfl
  have hpct : byte '%' ∉ base := fun h => (hb _ h).2.2.2 rfl
  have hctl : (ascii "http://" ++ host ++ base).any isControl = false := by
    rw [List.any_eq_false]
    exact fun b hmem => by simp [(hclean b hmem).1]
  obtain ⟨base', rfl⟩ : ∃ base', base = byte '/' :: base' := by
    cases base with
    | nil => cases hb0
    | cons b base => exact ⟨base, by rw [Option.some.inj hb0]⟩
  have hauth : ∀ t : Bytes, before (byte '/')
      ((ascii "http://" ++ host ++ byte '/' :: base' ++ t).drop
        (ascii "http://").length) = host := by
    intro t
    rw [List.append_assoc, List.append_assoc, List.drop_left,
      List.cons_append]
    exact before_append_cons hs _
  have hpath : ∀ t : Bytes,
      (ascii "http://" ++ host ++ byte '/' :: base' ++ t).drop
        ((ascii "http://").length + host.length) = byte '/' :: base' ++ t := by
    intro t
    rw [← List.length_append, List.append_assoc, List.drop_left]
  simp only [parse]
  rw [before_append hnum, before_append hque, after_append hnum,
    after_append hque, hauth, hpath, List.any_append, hctl,
    unescape_append hpct]
  simp [hok, Option.map_map, Function.comp_def]

end UrlText
