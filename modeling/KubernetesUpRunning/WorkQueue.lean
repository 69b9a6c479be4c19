import Mathlib.Data.List.Nodup
import Mathlib.Logic.Function.Basic

/-! # A work queue that keeps one entry a key

    A key that is added while it is queued is queued once; a key that is added
    while somebody processes it is queued again when that is done.  A key may
    also wait, to be added later.  `Orderly` is the invariant that ties the
    three sets together: what is dirty and not in process is in the queue. -/

namespace WorkQueue

variable {K : Type}

/-- The queue: the keys in order, those that have work to be done, those in
    process, those waiting to be added, and how often each has failed. -/
structure Queue (K : Type) where
  queue : List K
  dirty : K → Bool
  processing : K → Bool
  waiting : List K
  failures : K → Nat

/-- A queue with nothing to do. -/
def Queue.empty : Queue K where
  queue := []
  dirty _ := false
  processing _ := false
  waiting := []
  failures _ := 0

/-- What is dirty and not in process is in the queue, once. -/
structure Orderly (q : Queue K) : Prop where
  queued : ∀ k, k ∈ q.queue ↔ q.dirty k = true ∧ q.processing k = false
  nodup : q.queue.Nodup

/-- Nothing is to be done for `k`, now or later. -/
structure Quiet (q : Queue K) (k : K) : Prop where
  queued : k ∉ q.queue
  processing : q.processing k = false
  waiting : k ∉ q.waiting

theorem orderly_empty : Orderly (Queue.empty : Queue K) :=
  ⟨fun k => by simp [Queue.empty], List.nodup_nil⟩

/-- In an orderly queue a quiet key is not dirty. -/
theorem Quiet.not_dirty {q : Queue K} {k : K} (h : Quiet q k)
    (ho : Orderly q) : q.dirty k = false := by
  cases hd : q.dirty k with
  | false => rfl
  | true => exact absurd ((ho.queued k).mpr ⟨hd, h.processing⟩) h.queued

section Operations

variable [DecidableEq K]

/-- There is work for `k`. -/
def Queue.add (q : Queue K) (k : K) : Queue K :=
  if q.dirty k then q
  else if q.processing k then
    { q with dirty := Function.update q.dirty k true }
  else { q with
    dirty := Function.update q.dirty k true
    queue := q.queue ++ [k] }

/-- The next key, which is in process from now on. -/
def Queue.get (q : Queue K) : Option (K × Queue K) :=
  match q.queue with
  | [] => none
  | k :: rest => some (k, { q with
      queue := rest
      dirty := Function.update q.dirty k false
      processing := Function.update q.processing k true })

/-- `k` has been processed; it is queued again when work has come in. -/
def Queue.done (q : Queue K) (k : K) : Queue K :=
  { q with
    processing := Function.update q.processing k false
    queue := if q.dirty k then q.queue ++ [k] else q.queue }

/-- `k` is to be added again after a while. -/
def Queue.addRateLimited (q : Queue K) (k : K) : Queue K :=
  { q with
    waiting := q.waiting.insert k
    failures := Function.update q.failures k (q.failures k + 1) }

/-- The failures of `k` no longer count. -/
def Queue.forget (q : Queue K) (k : K) : Queue K :=
  { q with failures := Function.update q.failures k 0 }

/-- The wait of `k` is over. -/
def Queue.due (q : Queue K) (k : K) : Queue K :=
  { q with waiting := q.waiting.erase k }.add k

variable {q : Queue K} {k k' : K}

/-! ## Adding -/

theorem dirty_add_self : (q.add k).dirty k = true := by
  rw [Queue.add]
  split
  · assumption
  · split
    · exact Function.update_self _ _ _
    · exact Function.update_self _ _ _

/-- Adding takes no work away. -/
theorem dirty_add (h : q.dirty k' = true) : (q.add k).dirty k' = true := by
  by_cases hk : k' = k
  · rw [hk]
    exact dirty_add_self
  · rw [Queue.add]
    split
    · exact h
    · split
      · exact (Function.update_of_ne hk _ _).trans h
      · exact (Function.update_of_ne hk _ _).trans h

@[simp] theorem processing_add : (q.add k).processing = q.processing := by
  rw [Queue.add]
  split
  · rfl
  · split <;> rfl

@[simp] theorem waiting_add : (q.add k).waiting = q.waiting := by
  rw [Queue.add]
  split
  · rfl
  · split <;> rfl

theorem orderly_add (h : Orderly q) (k : K) : Orderly (q.add k) := by
  rw [Queue.add]
  split
  · exact h
  · rename_i hd
    have hd' : q.dirty k = false := by simpa using hd
    have hk : k ∉ q.queue := by
      rw [h.queued, hd']
      simp
    split
    · -- the key stays with whoever processes it
      rename_i hp
      refine ⟨?_, h.nodup⟩
      intro k'
      show k' ∈ q.queue ↔ Function.update q.dirty k true k' = true
        ∧ q.processing k' = false
      by_cases hk' : k' = k
      · subst hk'
        rw [Function.update_self, hp]
        simpa using hk
      · rw [Function.update_of_ne hk']
        exact h.queued k'
    · rename_i hp
      have hp' : q.processing k = false := by simpa using hp
      constructor
      · intro k'
        show k' ∈ q.queue ++ [k] ↔ Function.update q.dirty k true k' = true
          ∧ q.processing k' = false
        by_cases hk' : k' = k
        · subst hk'
          rw [Function.update_self]
          simp [hp']
        · rw [Function.update_of_ne hk', ← h.queued]
          simp [hk']
      · show (q.queue ++ [k]).Nodup
        rw [List.nodup_append]
        refine ⟨h.nodup, List.nodup_singleton _, ?_⟩
        intro a ha b hb hab
        rw [hab, List.mem_singleton.mp hb] at ha
        exact hk ha

/-! ## Getting -/

/-- The key that is handed out was dirty and in nobody's hands. -/
theorem get_some {q' : Queue K} (h : Orderly q) (hg : q.get = some (k, q')) :
    q.processing k = false
      ∧ q'.dirty = Function.update q.dirty k false
      ∧ q'.processing = Function.update q.processing k true
      ∧ q'.waiting = q.waiting ∧ Orderly q' := by
  rw [Queue.get] at hg
  cases hq : q.queue with
  | nil => rw [hq] at hg; exact absurd hg (by simp)
  | cons k₀ rest =>
      rw [hq] at hg
      obtain ⟨rfl, rfl⟩ := Prod.mk.inj (Option.some.inj hg)
      have hmem : k₀ ∈ q.queue := by
        rw [hq]
        exact List.mem_cons_self
      have hnd := h.nodup
      rw [hq, List.nodup_cons] at hnd
      refine ⟨((h.queued k₀).mp hmem).2, rfl, rfl, rfl, ?_, hnd.2⟩
      intro k'
      show k' ∈ rest ↔ Function.update q.dirty k₀ false k' = true
        ∧ Function.update q.processing k₀ true k' = false
      by_cases hk' : k' = k₀
      · subst hk'
        rw [Function.update_self, Function.update_self]
        simpa using hnd.1
      · rw [Function.update_of_ne hk', Function.update_of_ne hk',
          ← h.queued, hq]
        simp [hk']

/-! ## Finishing -/

theorem orderly_done (h : Orderly q) (hp : q.processing k = true) :
    Orderly (q.done k) := by
  have hk : k ∉ q.queue := by
    rw [h.queued, hp]
    simp
  constructor
  · intro k'
    show k' ∈ (if q.dirty k then q.queue ++ [k] else q.queue)
      ↔ q.dirty k' = true ∧ Function.update q.processing k false k' = false
    by_cases hk' : k' = k
    · subst hk'
      rw [Function.update_self]
      split
      · rename_i hd
        simp [hd]
      · rename_i hd
        simpa [hd] using hk
    · rw [Function.update_of_ne hk', ← h.queued]
      split
      · simp [hk']
      · rfl
  · show (if q.dirty k then q.queue ++ [k] else q.queue).Nodup
    split
    · rw [List.nodup_append]
      refine ⟨h.nodup, List.nodup_singleton _, ?_⟩
      intro a ha b hb hab
      rw [hab, List.mem_singleton.mp hb] at ha
      exact hk ha
    · exact h.nodup

theorem orderly_addRateLimited (h : Orderly q) (k : K) :
    Orderly (q.addRateLimited k) := ⟨h.queued, h.nodup⟩

theorem orderly_forget (h : Orderly q) (k : K) : Orderly (q.forget k) :=
  ⟨h.queued, h.nodup⟩

/-! ## Waiting -/

theorem orderly_due (h : Orderly q) (k : K) : Orderly (q.due k) := by
  have h' : Orderly { q with waiting := q.waiting.erase k } :=
    ⟨h.queued, h.nodup⟩
  exact orderly_add h' k

@[simp] theorem processing_due : (q.due k).processing = q.processing :=
  processing_add

/-- A key that waits is dirty when its wait is over. -/
theorem owed_due (h : q.dirty k' = true ∨ k' ∈ q.waiting) :
    (q.due k).dirty k' = true ∨ k' ∈ (q.due k).waiting := by
  by_cases hk : k' = k
  · rw [hk]
    exact Or.inl dirty_add_self
  · rcases h with h | h
    · exact Or.inl (dirty_add h)
    · refine Or.inr ?_
      show k' ∈ ({ q with waiting := q.waiting.erase k }.add k).waiting
      rw [waiting_add]
      exact (List.mem_erase_of_ne hk).mpr h

end Operations

end WorkQueue
