import Mathlib.Data.List.Basic

/-! # Association maps — Go's maps as lists of pairs

    A map is a list of key/value pairs read with `List.lookup`.  `setKey`
    overwrites the entry of a key in place, or appends one, so that writing
    back a value that is already there gives back the same list: "this write
    changes nothing" is then plain equality. -/

namespace AssocMap

variable {K V : Type} [DecidableEq K]

/-- Write one entry: in place when the key is present, else at the end. -/
def setKey (k : K) (v : V) : List (K × V) → List (K × V)
  | [] => [(k, v)]
  | (k', v') :: rest =>
      if k' = k then (k, v) :: rest else (k', v') :: setKey k v rest

/-- `reflect.DeepEqual` of two maps: the same entries, in any order. -/
def sameMap [DecidableEq V] (m m' : List (K × V)) : Bool :=
  m.all (fun e => decide (m'.lookup e.1 = m.lookup e.1))
    && m'.all (fun e => decide (m.lookup e.1 = m'.lookup e.1))

/-- Reading the key just written. -/
@[simp] theorem lookup_setKey_self (k : K) (v : V) (m : List (K × V)) :
    (setKey k v m).lookup k = some v := by
  induction m with
  | nil => simp [setKey]
  | cons hd rest ih =>
      obtain ⟨k', v'⟩ := hd
      by_cases hk : k' = k
      · simp [setKey, hk]
      · have hne : (k == k') = false := by
          simpa using fun h => hk h.symm
        simp [setKey, hk, List.lookup_cons, hne, ih]

/-- Reading any other key. -/
theorem lookup_setKey_of_ne {k k' : K} (h : k' ≠ k) (v : V)
    (m : List (K × V)) : (setKey k v m).lookup k' = m.lookup k' := by
  induction m with
  | nil =>
      have hne : (k' == k) = false := by simpa using h
      simp [setKey, List.lookup_cons, hne]
  | cons hd rest ih =>
      obtain ⟨k₀, v₀⟩ := hd
      by_cases hk : k₀ = k
      · have hne : (k' == k₀) = false := by simpa [hk] using h
        have hne' : (k' == k) = false := by simpa using h
        simp [setKey, hk, List.lookup_cons, hne']
      · simp [setKey, hk, List.lookup_cons, ih]

/-- Writing back the value that is there changes nothing. -/
theorem setKey_eq_self {k : K} {v : V} {m : List (K × V)}
    (h : m.lookup k = some v) : setKey k v m = m := by
  induction m with
  | nil => exact absurd h (by simp)
  | cons hd rest ih =>
      obtain ⟨k₀, v₀⟩ := hd
      by_cases hk : k₀ = k
      · subst hk
        have hv : v₀ = v := by simpa using h
        simp [setKey, hv]
      · have hne : (k == k₀) = false := by
          simpa using fun h => hk h.symm
        rw [List.lookup_cons, hne] at h
        simp [setKey, hk, ih h]

/-- The later of two writes to one key stays. -/
@[simp] theorem setKey_setKey (k : K) (v w : V) (m : List (K × V)) :
    setKey k w (setKey k v m) = setKey k w m := by
  induction m with
  | nil => simp [setKey]
  | cons hd rest ih =>
      obtain ⟨k₀, v₀⟩ := hd
      by_cases hk : k₀ = k
      · simp [setKey, hk]
      · simp [setKey, hk, ih]

/-- Writes to two keys that are both present commute. -/
theorem setKey_comm {k k' : K} (hne : k ≠ k') (v w : V) :
    ∀ m : List (K × V), (∃ x, m.lookup k = some x) →
      (∃ y, m.lookup k' = some y) →
      setKey k v (setKey k' w m) = setKey k' w (setKey k v m)
  | [], h, _ => by
      obtain ⟨x, hx⟩ := h
      exact absurd hx (by simp)
  | (k₀, v₀) :: rest, h, h' => by
      by_cases hk : k₀ = k
      · have hk' : k₀ ≠ k' := fun e => hne (hk.symm.trans e)
        simp [setKey, hk, hne]
      · by_cases hk' : k₀ = k'
        · have hne' : k' ≠ k := fun e => hne e.symm
          simp [setKey, hk', hne']
        · have hb : (k == k₀) = false := by simpa using fun e => hk e.symm
          have hb' : (k' == k₀) = false := by simpa using fun e => hk' e.symm
          simp only [List.lookup_cons, hb, hb'] at h h'
          simp [setKey, hk, hk', setKey_comm hne v w rest h h']

end AssocMap
