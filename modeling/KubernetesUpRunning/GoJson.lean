import KubernetesUpRunning.AssocMap
import Mathlib.Data.Rat.Defs

/-! # Untyped objects — Go's `interface{}` as decoded from JSON

    An HTTPProxy is handled as nested `map[string]interface{}` values.  `Json`
    is such a value as client-go decodes it: an integer literal is an `int64`,
    any other number a `float64` (every finite one is a rational).

    A checked assertion `x.(T)` on a map entry is `asMap`, `asSlice` or
    `asString` of the lookup; the entry may be absent, which is Go's nil. -/

namespace GoJson

open AssocMap

/-- An `interface{}` value. -/
inductive Json where
  | null
  | bool (b : Bool)
  | int (n : Int)
  | float (q : Rat)
  | str (s : String)
  | arr (xs : List Json)
  | obj (kvs : List (String × Json))

/-- A `map[string]interface{}`. -/
abbrev Fields := List (String × Json)

mutual

/-- Equality test of two values. -/
def Json.beq : Json → Json → Bool
  | .null, .null => true
  | .bool a, .bool b => decide (a = b)
  | .int a, .int b => decide (a = b)
  | .float a, .float b => decide (a = b)
  | .str a, .str b => decide (a = b)
  | .arr xs, .arr ys => Json.beqSlice xs ys
  | .obj xs, .obj ys => Json.beqMap xs ys
  | _, _ => false

/-- Equality test of two slices. -/
def Json.beqSlice : List Json → List Json → Bool
  | [], [] => true
  | x :: xs, y :: ys => Json.beq x y && Json.beqSlice xs ys
  | _, _ => false

/-- Equality test of two maps. -/
def Json.beqMap : Fields → Fields → Bool
  | [], [] => true
  | (k, x) :: xs, (l, y) :: ys =>
      decide (k = l) && Json.beq x y && Json.beqMap xs ys
  | _, _ => false

end

mutual

theorem Json.beq_iff : ∀ a b : Json, Json.beq a b = true ↔ a = b
  | .null, b => by cases b <;> simp [Json.beq]
  | .bool _, b => by cases b <;> simp [Json.beq]
  | .int _, b => by cases b <;> simp [Json.beq]
  | .float _, b => by cases b <;> simp [Json.beq]
  | .str _, b => by cases b <;> simp [Json.beq]
  | .arr xs, b => by cases b <;> simp [Json.beq, Json.beqSlice_iff xs]
  | .obj xs, b => by cases b <;> simp [Json.beq, Json.beqMap_iff xs]

theorem Json.beqSlice_iff :
    ∀ xs ys : List Json, Json.beqSlice xs ys = true ↔ xs = ys
  | [], ys => by cases ys <;> simp [Json.beqSlice]
  | x :: xs, ys => by
      cases ys <;> simp [Json.beqSlice, Json.beq_iff x, Json.beqSlice_iff xs]

theorem Json.beqMap_iff : ∀ xs ys : Fields, Json.beqMap xs ys = true ↔ xs = ys
  | [], ys => by cases ys <;> simp [Json.beqMap]
  | (k, x) :: xs, ys => by
      cases ys with
      | nil => simp [Json.beqMap]
      | cons hd tl =>
          obtain ⟨l, y⟩ := hd
          simp [Json.beqMap, Json.beq_iff x, Json.beqMap_iff xs, and_assoc]

end

instance : DecidableEq Json := fun a b =>
  decidable_of_iff _ (Json.beq_iff a b)

/-! ## Checked type assertions -/

/-- `v.(map[string]interface{})` in its two-result form. -/
def asMap : Option Json → Option Fields
  | some (.obj kvs) => some kvs
  | _ => none

/-- `v.([]interface{})` in its two-result form. -/
def asSlice : Option Json → Option (List Json)
  | some (.arr xs) => some xs
  | _ => none

/-- `v.(string)` in its two-result form. -/
def asString : Option Json → Option String
  | some (.str s) => some s
  | _ => none

@[simp] theorem asMap_obj (kvs : Fields) :
    asMap (some (.obj kvs)) = some kvs := rfl
@[simp] theorem asMap_none : asMap none = none := rfl
@[simp] theorem asSlice_arr (xs : List Json) :
    asSlice (some (.arr xs)) = some xs := rfl
@[simp] theorem asSlice_none : asSlice none = none := rfl
@[simp] theorem asString_str (s : String) :
    asString (some (.str s)) = some s := rfl

theorem asMap_eq_some {v : Option Json} {kvs : Fields} :
    asMap v = some kvs ↔ v = some (.obj kvs) := by
  rcases v with _ | j
  · simp
  · cases j <;> simp [asMap]

theorem asSlice_eq_some {v : Option Json} {xs : List Json} :
    asSlice v = some xs ↔ v = some (.arr xs) := by
  rcases v with _ | j
  · simp
  · cases j <;> simp [asSlice]

/-! ## Numbers -/

/-- `math.MinInt64`. -/
def minInt64 : Int := -9223372036854775808

/-- `math.MaxInt64`. -/
def maxInt64 : Int := 9223372036854775807

/-- `int64(f)` of a float: truncation toward zero; what does not fit becomes
    the smallest `int64`, as the amd64 conversion leaves it. -/
def int64OfFloat (q : Rat) : Int :=
  let t := q.num.tdiv q.den
  if minInt64 ≤ t ∧ t ≤ maxInt64 then t else minInt64

/-- `int32(n)` of an `int64`: the low 32 bits, signed. -/
def int32OfInt64 (n : Int) : Int := n.bmod 4294967296

end GoJson
