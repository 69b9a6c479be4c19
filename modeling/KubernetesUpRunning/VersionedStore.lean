import Mathlib.Data.List.Basic
import Mathlib.Logic.Function.Basic

/-! # A versioned store — optimistic concurrency

    A store maps keys to objects that carry a version.  Every write that
    changes an object gives it a version that was never used before; a write
    that changes nothing keeps the version.  An `update` names the version it
    was computed from and is refused when the stored one has moved.

    Two facts carry every argument over such a store:

    * SNAPSHOTS: an object read at some moment is, at any later moment, still
      the stored one or has a version the stored one no longer has
      (`Snapshot.advance`), so an accepted update replaced exactly the object
      that was read;
    * FIRST CHANGE WINS: of several writes made from one read, only the first
      that changes anything lands (`Since.writeAt_changed`). -/

namespace VersionedStore

variable {κ α : Type}

/-- An object with the version of its last change. -/
structure Versioned (α : Type) where
  obj : α
  version : Nat
  deriving DecidableEq

/-- A store of versioned objects. -/
abbrev Store (κ α : Type) := κ → Option (Versioned α)

/-- Why a store refuses a request. -/
inductive Refusal where
  | notFound
  | alreadyExists
  | conflict
  deriving DecidableEq

/-- The objects, versions forgotten. -/
def content (st : Store κ α) : κ → Option α :=
  fun k => (st k).map Versioned.obj

theorem content_of_some {st : Store κ α} {k : κ} {v : Versioned α}
    (h : st k = some v) : content st k = some v.obj := by
  simp [content, h]

theorem content_of_none {st : Store κ α} {k : κ} (h : st k = none) :
    content st k = none := by
  simp [content, h]

/-! ## Versions only move forward -/

/-- From one moment of a store to a later one: an object is untouched, gone,
    or carries a version handed out in between. -/
structure Advances (st : Store κ α) (rev : Nat) (st' : Store κ α)
    (rev' : Nat) : Prop where
  le : rev ≤ rev'
  fresh : ∀ k, st' k = st k ∨
    ∀ v, st' k = some v → rev < v.version ∧ v.version ≤ rev'

theorem Advances.refl (st : Store κ α) {rev rev' : Nat} (h : rev ≤ rev') :
    Advances st rev st rev' :=
  ⟨h, fun _ => Or.inl rfl⟩

/-- Every stored version has been handed out. -/
def Bounded (st : Store κ α) (rev : Nat) : Prop :=
  ∀ k v, st k = some v → v.version ≤ rev

theorem Bounded.advance {st st' : Store κ α} {rev rev' : Nat}
    (h : Bounded st rev) (ha : Advances st rev st' rev') :
    Bounded st' rev' := by
  intro k v hv
  rcases ha.fresh k with hk | hk
  · exact Nat.le_trans (h k v (hk ▸ hv)) ha.le
  · exact (hk v hv).2

/-- `v` was read from `k`: if the stored object has its version, it is `v`. -/
structure Snapshot (st : Store κ α) (rev : Nat) (k : κ)
    (v : Versioned α) : Prop where
  le : v.version ≤ rev
  same : ∀ w, st k = some w → w.version = v.version → w = v

theorem snapshot_of_get {st : Store κ α} {rev : Nat} {k : κ}
    {v : Versioned α} (hb : Bounded st rev) (h : st k = some v) :
    Snapshot st rev k v := by
  refine ⟨hb k v h, ?_⟩
  intro w hw _
  exact Option.some.inj (hw.symm.trans h)

/-- Snapshots stay snapshots. -/
theorem Snapshot.advance {st st' : Store κ α} {rev rev' : Nat} {k : κ}
    {v : Versioned α} (h : Snapshot st rev k v)
    (ha : Advances st rev st' rev') : Snapshot st' rev' k v := by
  refine ⟨Nat.le_trans h.le ha.le, ?_⟩
  intro w hw hver
  rcases ha.fresh k with hk | hk
  · exact h.same w (hk ▸ hw) hver
  · have hlt := (hk w hw).1
    have hle := h.le
    omega

/-! ## What holds of every stored object -/

/-- Every stored object is as `R` says. -/
def Holds (R : κ → α → Prop) (st : Store κ α) : Prop :=
  ∀ k v, st k = some v → R k v.obj

theorem holds_iff_content {R : κ → α → Prop} {st : Store κ α} :
    Holds R st ↔ ∀ k x, content st k = some x → R k x := by
  constructor
  · intro h k x hx
    obtain ⟨v, hv, rfl⟩ := Option.map_eq_some_iff.mp hx
    exact h k v hv
  · intro h k v hv
    exact h k v.obj (content_of_some hv)

/-- The store that holds the listed objects. -/
def storeOf [BEq κ] (l : List (κ × Versioned α)) : Store κ α :=
  fun k => l.lookup k

theorem mem_of_storeOf [BEq κ] [LawfulBEq κ] {l : List (κ × Versioned α)}
    {k : κ} {v : Versioned α} (h : storeOf l k = some v) : (k, v) ∈ l := by
  induction l with
  | nil => exact absurd h (by simp [storeOf])
  | cons hd rest ih =>
      obtain ⟨k', v'⟩ := hd
      rw [storeOf] at h
      rw [List.lookup_cons] at h
      cases hk : k == k' with
      | true =>
          rw [hk] at h
          rw [eq_of_beq hk, ← Option.some.inj h]
          exact List.mem_cons_self
      | false =>
          rw [hk] at h
          exact List.mem_cons_of_mem _ (ih h)

/-! ## What became of an object since it was read -/

/-- `k` was read as `x` with version `ver` and holds `y` now: the version is
    still `ver` exactly when nothing changed. -/
structure Since (x : α) (ver : Nat) (st : Store κ α) (k : κ) (y : α) :
    Prop where
  stored : ∃ n, st k = some ⟨y, n⟩ ∧ (n = ver ↔ y = x)

theorem Since.of_get {st : Store κ α} {k : κ} {v : Versioned α}
    (h : st k = some v) : Since v.obj v.version st k v.obj :=
  ⟨v.version, h, by simp⟩

theorem Since.content_eq {x y : α} {ver : Nat} {st : Store κ α} {k : κ}
    (h : Since x ver st k y) : content st k = some y := by
  obtain ⟨n, hk, -⟩ := h.stored
  exact content_of_some hk

/-! ## The operations -/

section Operations

variable [DecidableEq κ] [DecidableEq α]

/-- Put `new` at `k`; a change takes the next version, a non-change none. -/
def write (st : Store κ α) (rev : Nat) (k : κ) (new : Option α) :
    Store κ α × Nat :=
  if new = content st k then (st, rev)
  else (Function.update st k (new.map fun x => ⟨x, rev + 1⟩), rev + 1)

/-- Create an object under a free key. -/
def create (st : Store κ α) (rev : Nat) (k : κ) (x : α) :
    Except Refusal (Store κ α × Nat) :=
  match st k with
  | some _ => .error .alreadyExists
  | none => .ok (write st rev k (some x))

/-- Replace the object at `k` if it still has version `ver`.  What is stored
    in place of `old` is `accept old`; `none` removes it. -/
def update (st : Store κ α) (rev : Nat) (k : κ) (ver : Nat)
    (accept : α → Option α) : Except Refusal (Store κ α × Nat) :=
  match st k with
  | none => .error .notFound
  | some old =>
      if old.version = ver then .ok (write st rev k (accept old.obj))
      else .error .conflict

/-- Remove the object at `k`, whatever its version. -/
def delete (st : Store κ α) (rev : Nat) (k : κ) :
    Except Refusal (Store κ α × Nat) :=
  match st k with
  | none => .error .notFound
  | some _ => .ok (write st rev k none)

/-- A write sets the content of its key and of no other. -/
@[simp] theorem content_write (st : Store κ α) (rev : Nat) (k : κ)
    (new : Option α) :
    content (write st rev k new).1 = Function.update (content st) k new := by
  rw [write]
  by_cases h : new = content st k
  · rw [if_pos h, h, Function.update_eq_self]
  · rw [if_neg h]
    funext k'
    by_cases hk : k' = k
    · subst hk
      cases new <;> simp [content]
    · simp [content, Function.update_of_ne hk]

/-- A write of what is there changes nothing at all. -/
theorem write_eq_self {st : Store κ α} {rev : Nat} {k : κ} {new : Option α}
    (h : new = content st k) : write st rev k new = (st, rev) := by
  rw [write, if_pos h]

/-- A write leaves the other keys alone. -/
theorem write_of_ne {st : Store κ α} {rev : Nat} {k k' : κ} {new : Option α}
    (h : k' ≠ k) : (write st rev k new).1 k' = st k' := by
  rw [write]
  split
  · rfl
  · exact Function.update_of_ne h _ _

theorem advances_write (st : Store κ α) (rev : Nat) (k : κ)
    (new : Option α) :
    Advances st rev (write st rev k new).1 (write st rev k new).2 := by
  rw [write]
  split
  · exact Advances.refl st (Nat.le_refl rev)
  · refine ⟨Nat.le_succ rev, ?_⟩
    intro k'
    by_cases hk : k' = k
    · subst hk
      refine Or.inr ?_
      intro v hv
      cases new with
      | none => simp at hv
      | some x =>
          have hv' : (⟨x, rev + 1⟩ : Versioned α) = v := by simpa using hv
          subst hv'
          exact ⟨Nat.lt_succ_self rev, Nat.le_refl _⟩
    · exact Or.inl (Function.update_of_ne hk _ _)

/-- A write keeps what holds of every object, if it holds of the new one. -/
theorem holds_write {R : κ → α → Prop} {st : Store κ α} {rev : Nat} {k : κ}
    {new : Option α} (h : Holds R st) (hn : ∀ x, new = some x → R k x) :
    Holds R (write st rev k new).1 := by
  rw [holds_iff_content] at h ⊢
  intro k' x hx
  rw [content_write] at hx
  by_cases hk : k' = k
  · subst hk
    rw [Function.update_self] at hx
    exact hn x hx
  · rw [Function.update_of_ne hk] at hx
    exact h k' x hx

/-- An accepted update is a write over the version it names. -/
theorem update_ok {st : Store κ α} {rev ver : Nat} {k : κ}
    {accept : α → Option α} {r : Store κ α × Nat}
    (hu : update st rev k ver accept = .ok r) :
    ∃ old, st k = some old ∧ old.version = ver
      ∧ write st rev k (accept old.obj) = r := by
  rw [update] at hu
  cases hk : st k with
  | none => rw [hk] at hu; exact absurd hu (by simp)
  | some old =>
      rw [hk] at hu
      dsimp only at hu
      split at hu
      · rename_i hver
        exact ⟨old, rfl, hver, Except.ok.inj hu⟩
      · exact absurd hu (by simp)

/-- A creation is a write to a free key. -/
theorem create_ok {st : Store κ α} {rev : Nat} {k : κ} {x : α}
    {r : Store κ α × Nat} (hu : create st rev k x = .ok r) :
    st k = none ∧ write st rev k (some x) = r := by
  rw [create] at hu
  cases hk : st k with
  | none => rw [hk] at hu; exact ⟨rfl, Except.ok.inj hu⟩
  | some old => rw [hk] at hu; exact absurd hu (by simp)

/-- A deletion is a write of nothing. -/
theorem delete_ok {st : Store κ α} {rev : Nat} {k : κ}
    {r : Store κ α × Nat} (hu : delete st rev k = .ok r) :
    (∃ old, st k = some old) ∧ write st rev k none = r := by
  rw [delete] at hu
  cases hk : st k with
  | none => rw [hk] at hu; exact absurd hu (by simp)
  | some old => rw [hk] at hu; exact ⟨⟨old, rfl⟩, Except.ok.inj hu⟩

/-! ## Several writes from one read -/

/-- The effect of an `update`, its answer discarded. -/
def writeAt (st : Store κ α) (rev : Nat) (k : κ) (ver : Nat)
    (accept : α → Option α) : Store κ α × Nat :=
  match update st rev k ver accept with
  | .ok r => r
  | .error _ => (st, rev)

theorem writeAt_of_none {st : Store κ α} {rev : Nat} {k : κ} {ver : Nat}
    {accept : α → Option α} (h : st k = none) :
    writeAt st rev k ver accept = (st, rev) := by
  simp [writeAt, update, h]

theorem writeAt_of_current {st : Store κ α} {rev : Nat} {k : κ}
    {v : Versioned α} {accept : α → Option α} (h : st k = some v) :
    writeAt st rev k v.version accept = write st rev k (accept v.obj) := by
  simp [writeAt, update, h]

theorem writeAt_of_stale {st : Store κ α} {rev : Nat} {k : κ} {ver : Nat}
    {v : Versioned α} {accept : α → Option α} (h : st k = some v)
    (hne : v.version ≠ ver) :
    writeAt st rev k ver accept = (st, rev) := by
  simp [writeAt, update, h, hne]

theorem advances_writeAt (st : Store κ α) (rev : Nat) (k : κ) (ver : Nat)
    (accept : α → Option α) :
    Advances st rev (writeAt st rev k ver accept).1
      (writeAt st rev k ver accept).2 := by
  cases h : st k with
  | none =>
      rw [writeAt_of_none h]
      exact Advances.refl st (Nat.le_refl rev)
  | some v =>
      by_cases hver : v.version = ver
      · subst hver
        rw [writeAt_of_current h]
        exact advances_write st rev k (accept v.obj)
      · rw [writeAt_of_stale h hver]
        exact Advances.refl st (Nat.le_refl rev)

/-- A write made from the version that was read lands while nothing has
    changed. -/
theorem Since.writeAt_unchanged {x x' : α} {ver rev : Nat} {st : Store κ α}
    {k : κ} {accept : α → Option α} (h : Since x ver st k x)
    (hle : ver ≤ rev) (ha : accept x = some x') :
    Since x ver (VersionedStore.writeAt st rev k ver accept).1 k x' := by
  obtain ⟨n, hk, hn⟩ := h.stored
  have hver : n = ver := hn.mpr rfl
  subst hver
  rw [writeAt_of_current hk]
  rw [write]
  simp only [ha]
  by_cases hw : some x' = content st k
  · rw [if_pos hw]
    have hxy : x' = x := by simpa [content, hk] using hw
    exact ⟨n, by rw [hxy]; exact hk, by simp [hxy]⟩
  · rw [if_neg hw]
    have hxy : x' ≠ x := by
      intro e
      exact hw (by simp [content, hk, e])
    refine ⟨rev + 1, by simp, ?_⟩
    constructor
    · intro e
      omega
    · intro e
      exact absurd e hxy

/-- **FIRST CHANGE WINS**: once something has changed, no further write made
    from the version that was read lands. -/
theorem Since.writeAt_changed {x y : α} {ver rev : Nat} {st : Store κ α}
    {k : κ} {accept : α → Option α} (h : Since x ver st k y) (hy : y ≠ x) :
    Since x ver (VersionedStore.writeAt st rev k ver accept).1 k y := by
  obtain ⟨n, hk, hn⟩ := h.stored
  rw [writeAt_of_stale hk (fun e => hy (hn.mp e))]
  exact ⟨n, hk, hn⟩

end Operations

end VersionedStore
