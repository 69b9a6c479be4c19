import KubernetesUpRunning.MemqClients

/-! # The statistics of the broker

    `Stats` holds the lock of the broker for reading from its start to its
    end, which keeps `CreateQueue`, `DeleteQueue` and `DrainQueue` out, and
    reads one queue after the other under the lock of that queue, in any order.
    `PutMessage` and `GetMessage` go on in between.  This file adds callers of
    `Stats` to the clients of the broker and shows that the counters of every
    queue, and of every entry of every response, are conserved. -/

namespace MemqStats

open Linearizability MemqBroker

/-! ## Stats -/

/-- `memq.Stat`. -/
structure Stat where
  name : String
  depth : Int
  enqueued : Int
  dequeued : Int
  drained : Int
deriving DecidableEq, Repr

/-- `memq.Stats`. -/
structure Stats where
  kind : String
  queues : List Stat
deriving DecidableEq, Repr

/-- `newStats`. -/
def newStats : Stats := ⟨"stats", []⟩

/-- The entry of a queue. -/
def statOf (name : String) (q : Queue) : Stat :=
  ⟨name, q.depth, q.enqueued, q.dequeued, q.drained⟩

/-- An entry, with the queue it was read from and the time. -/
structure Entry where
  stat : Stat
  pointer : Pointer
  time : Nat

/-- A `Stats` call that is under way, with the entries so far. -/
structure Reading where
  began : Nat
  entries : List Entry

/-- A `Stats` call that has returned. -/
structure Response where
  began : Nat
  ended : Nat
  entries : List Entry

/-- What a list of entries comes to. -/
def statsOf (entries : List Entry) : Stats :=
  { newStats with queues := newStats.queues ++ entries.map Entry.stat }

def Response.stats (r : Response) : Stats := statsOf r.entries

/-- The names that have been read. -/
def names (entries : List Entry) : List String :=
  entries.map fun e => e.stat.name

/-- The clients of the broker, the callers of `Stats`, the brokers there have
    been (one for each section), and the responses, latest first. -/
structure State (ι κ : Type) where
  base : MemqClients.State ι
  reader : κ → Option Reading
  past : Nat → Broker
  responses : List Response

def start (ι κ : Type) : State ι κ :=
  ⟨MemqClients.start ι, fun _ => none, fun _ => newBroker, []⟩

/-- The operations that take the lock of the broker for writing. -/
def NeedsLock : Call → Prop
  | .createQueue _ => True
  | .deleteQueue _ => True
  | .drainQueue _ => True
  | .putMessage _ _ => False
  | .getMessage _ => False

section Steps

variable {ι κ : Type} [DecidableEq ι] [DecidableEq κ]

/-- Nobody holds the lock of the broker for reading. -/
def State.Free (s : State ι κ) : Prop := ∀ j, s.reader j = none

/-- The state after a section of a client. -/
def State.client (s : State ι κ) (u : MemqClients.State ι) : State ι κ :=
  { s with base := u, past := Function.update s.past u.clock u.broker }

/-- The state after a section that leaves the broker as it is. -/
def State.tick (s : State ι κ) : State ι κ :=
  s.client { s.base with clock := s.base.clock + 1 }

/-- One section of one operation. -/
inductive Step (s : State ι κ) : State ι κ → Prop
  | client (u : MemqClients.State ι) (hu : MemqClients.Step s.base u)
      (hlock : ∀ d, u.done = d :: s.base.done → NeedsLock d.call → s.Free) :
      Step s (s.client u)
  | begin (j : κ) (hj : s.reader j = none) :
      Step s { s.tick with
        reader := Function.update s.reader j (some ⟨s.base.clock, []⟩) }
  | read (j : κ) (x : Reading) (name : String) (p : Pointer)
      (hj : s.reader j = some x) (hp : s.base.broker.queues name = some p)
      (hnew : name ∉ names x.entries) :
      Step s { s.tick with
        reader := Function.update s.reader j (some { x with
          entries := x.entries
            ++ [⟨statOf name (s.base.broker.heap p), p, s.base.clock⟩] }) }
  | finish (j : κ) (x : Reading) (hj : s.reader j = some x)
      (hall : ∀ name p, s.base.broker.queues name = some p →
        name ∈ names x.entries) :
      Step s { s.tick with
        reader := Function.update s.reader j none
        responses := ⟨x.began, s.base.clock, x.entries⟩ :: s.responses }

/-- Runs of the clients and the callers of `Stats`. -/
abbrev Runs : State ι κ → State ι κ → Prop := Relation.ReflTransGen Step

end Steps

/-! ## One queue -/

/-- The counters of a queue are conserved. -/
structure Conserved (q : Queue) : Prop where
  depth : q.depth = q.messages.length
  balance : q.enqueued = q.dequeued + q.drained + q.depth
  dequeued : 0 ≤ q.dequeued
  drained : 0 ≤ q.drained

theorem Conserved.depth_nonneg {q : Queue} (h : Conserved q) :
    0 ≤ q.depth := by
  have hd := h.depth
  omega

/-- No counter has gone back. -/
structure Later (q q' : Queue) : Prop where
  enqueued : q.enqueued ≤ q'.enqueued
  dequeued : q.dequeued ≤ q'.dequeued
  drained : q.drained ≤ q'.drained

theorem Later.refl (q : Queue) : Later q q :=
  ⟨Int.le_refl _, Int.le_refl _, Int.le_refl _⟩

theorem conserved_newQueue (name : String) : Conserved (newQueue name) :=
  ⟨rfl, rfl, Int.le_refl 0, Int.le_refl 0⟩

section Queue

variable {q : Queue} (h : Conserved q)
include h

theorem conserved_drain : Conserved q.drain ∧ Later q q.drain := by
  obtain ⟨hd, hb, hdeq, hdrn⟩ := h
  refine ⟨⟨rfl, ?_, hdeq, ?_⟩, ⟨Int.le_refl _, Int.le_refl _, ?_⟩⟩
  · show q.enqueued = q.dequeued + (q.drained + q.depth) + 0
    omega
  · show 0 ≤ q.drained + q.depth
    omega
  · show q.drained ≤ q.drained + q.depth
    omega

theorem conserved_putMessage (m : Message) :
    Conserved (q.putMessage m) ∧ Later q (q.putMessage m) := by
  obtain ⟨hd, hb, hdeq, hdrn⟩ := h
  refine ⟨⟨?_, ?_, hdeq, hdrn⟩, ⟨?_, Int.le_refl _, Int.le_refl _⟩⟩
  · show q.depth + 1 = ((q.messages ++ [m]).length : Int)
    rw [List.length_append, List.length_singleton]
    omega
  · show q.enqueued + 1 = q.dequeued + q.drained + (q.depth + 1)
    omega
  · show q.enqueued ≤ q.enqueued + 1
    omega

theorem conserved_getMessage :
    Conserved q.getMessage.2 ∧ Later q q.getMessage.2 := by
  obtain ⟨hd, hb, hdeq, hdrn⟩ := h
  rw [Queue.getMessage]
  cases hm : q.messages with
  | nil => exact ⟨⟨hd, hb, hdeq, hdrn⟩, Later.refl q⟩
  | cons m rest =>
      rw [hm, List.length_cons] at hd
      refine ⟨⟨?_, ?_, ?_, hdrn⟩, ⟨Int.le_refl _, ?_, Int.le_refl _⟩⟩
      · show q.depth - 1 = (rest.length : Int)
        omega
      · show q.enqueued = q.dequeued + 1 + q.drained + (q.depth - 1)
        omega
      · show 0 ≤ q.dequeued + 1
        omega
      · show q.dequeued ≤ q.dequeued + 1
        omega

end Queue

/-! ## One section -/

/-- What the last section of an operation does to the broker. -/
inductive Section (b : Broker) : Call → Broker → Prop
  | createQueue (name : String) :
      Section b (.createQueue name) (b.createQueue name).2
  | deleteQueue (name : String) :
      Section b (.deleteQueue name) (b.deleteQueue name).2
  | drainQueue (name : String) :
      Section b (.drainQueue name) (b.drainQueue name).2
  | missing (call : Call) (h : ¬ NeedsLock call) : Section b call b
  | putMessage (queue body : String) (p : Pointer)
      (message : Except MemqError Message) :
      Section b (.putMessage queue body) (b.putMessage p message).2
  | getMessage (queue : String) (p : Pointer) :
      Section b (.getMessage queue) (b.getMessage p).2

/-- A section of a client is a lookup or the last one of its operation. -/
theorem section_of_step {ι : Type} [DecidableEq ι] {s u : MemqClients.State ι}
    (h : MemqClients.Step s u) :
    u.clock = s.clock + 1
      ∧ ((u.broker = s.broker ∧ u.done = s.done)
        ∨ ∃ d, u.done = d :: s.done ∧ d.ended = s.clock
          ∧ Section s.broker d.call u.broker) := by
  have hlookup : ∀ (i : ι) (call : Call) (found : Pointer → MemqClients.Client),
      ¬ NeedsLock call →
      (s.lookup i call found).clock = s.clock + 1
        ∧ (((s.lookup i call found).broker = s.broker
            ∧ (s.lookup i call found).done = s.done)
          ∨ ∃ d, (s.lookup i call found).done = d :: s.done
            ∧ d.ended = s.clock
            ∧ Section s.broker d.call (s.lookup i call found).broker) := by
    intro i call found hcall
    rw [MemqClients.State.lookup]
    cases s.broker.getQueue call.queue with
    | error e => exact ⟨rfl, Or.inr ⟨_, rfl, rfl, .missing call hcall⟩⟩
    | ok p => exact ⟨rfl, Or.inl ⟨rfl, rfl⟩⟩
  cases h with
  | createQueue i name hi => exact ⟨rfl, Or.inr ⟨_, rfl, rfl, .createQueue name⟩⟩
  | deleteQueue i name hi => exact ⟨rfl, Or.inr ⟨_, rfl, rfl, .deleteQueue name⟩⟩
  | drainQueue i name hi => exact ⟨rfl, Or.inr ⟨_, rfl, rfl, .drainQueue name⟩⟩
  | findPut i queue body hi => exact hlookup i (.putMessage queue body) _ id
  | findGet i queue hi => exact hlookup i (.getMessage queue) _ id
  | putMessage i began queue body p read now hi =>
      exact ⟨rfl, Or.inr ⟨_, rfl, rfl, .putMessage queue body p _⟩⟩
  | getMessage i began queue p hi =>
      exact ⟨rfl, Or.inr ⟨_, rfl, rfl, .getMessage queue p⟩⟩

/-- The counters of all queues ever made are conserved, `n` operations have
    been completed, and the names lead to queues that were made. -/
structure Sane (b : Broker) (n : Nat) : Prop where
  conserved : ∀ p, Conserved (b.heap p)
  bounded : ∀ p, (b.heap p).enqueued ≤ n
  below : ∀ name p, b.queues name = some p → p < b.next

/-- No counter of a queue that was made has gone back. -/
structure Advance (b b' : Broker) : Prop where
  next : b.next ≤ b'.next
  later : ∀ p, p < b.next → Later (b.heap p) (b'.heap p)

theorem Advance.refl (b : Broker) : Advance b b :=
  ⟨Nat.le_refl _, fun _ _ => Later.refl _⟩

theorem Sane.mono {b : Broker} {n n' : Nat} (h : Sane b n) (hn : n ≤ n') :
    Sane b n' := by
  refine ⟨h.conserved, fun p => ?_, h.below⟩
  have hb := h.bounded p
  omega

section Broker

variable {b : Broker} {n : Nat} (h : Sane b n)
include h

/-- One queue is written. -/
theorem sane_write {p : Pointer} {q : Queue} (hq : Conserved q)
    (hle : q.enqueued ≤ n + 1) (hl : Later (b.heap p) q) :
    Sane (b.write p q) (n + 1) ∧ Advance b (b.write p q) := by
  refine ⟨⟨?_, ?_, h.below⟩, Nat.le_refl _, ?_⟩
  · intro p'
    show Conserved (Function.update b.heap p q p')
    by_cases hp : p' = p
    · rw [hp, Function.update_self]
      exact hq
    · rw [Function.update_of_ne hp]
      exact h.conserved p'
  · intro p'
    show (Function.update b.heap p q p').enqueued ≤ ((n + 1 : Nat) : Int)
    by_cases hp : p' = p
    · rw [hp, Function.update_self]
      omega
    · rw [Function.update_of_ne hp]
      have hb := h.bounded p'
      omega
  · intro p' _
    show Later _ (Function.update b.heap p q p')
    by_cases hp : p' = p
    · rw [hp, Function.update_self]
      exact hl
    · rw [Function.update_of_ne hp]
      exact Later.refl _

/-- A queue is made where none has been. -/
theorem sane_createQueue (name : String) :
    Sane (b.createQueue name).2 (n + 1)
      ∧ Advance b (b.createQueue name).2 := by
  rw [Broker.createQueue]
  cases hq : b.queues name with
  | some p => exact ⟨h.mono (Nat.le_succ n), Advance.refl b⟩
  | none =>
      have hheap : ∀ p, p ≠ b.next →
          Function.update b.heap b.next (newQueue name) p = b.heap p :=
        fun p hp => Function.update_of_ne hp _ _
      refine ⟨⟨?_, ?_, ?_⟩, Nat.le_succ _, ?_⟩
      · intro p
        by_cases hp : p = b.next
        · rw [hp]
          show Conserved (Function.update b.heap b.next _ b.next)
          rw [Function.update_self]
          exact conserved_newQueue name
        · show Conserved (Function.update b.heap b.next _ p)
          rw [hheap p hp]
          exact h.conserved p
      · intro p
        show (Function.update b.heap b.next (newQueue name) p).enqueued
          ≤ ((n + 1 : Nat) : Int)
        by_cases hp : p = b.next
        · rw [hp, Function.update_self]
          exact Int.natCast_nonneg (n + 1)
        · rw [hheap p hp]
          have hb := h.bounded p
          omega
      · intro name' p hp
        show p < b.next + 1
        rcases of_update hp with ⟨-, hnew⟩ | ⟨-, hold⟩
        · rw [← Option.some.inj hnew]
          exact Nat.lt_succ_self _
        · exact Nat.lt_succ_of_lt (h.below name' p hold)
      · intro p hp
        show Later _ (Function.update b.heap b.next _ p)
        rw [hheap p (Nat.ne_of_lt hp)]
        exact Later.refl _

theorem sane_deleteQueue (name : String) :
    Sane (b.deleteQueue name).2 (n + 1)
      ∧ Advance b (b.deleteQueue name).2 := by
  rw [Broker.deleteQueue]
  cases hq : b.queues name with
  | none => exact ⟨h.mono (Nat.le_succ n), Advance.refl b⟩
  | some p =>
      have hsane := h.mono (Nat.le_succ n)
      refine ⟨⟨hsane.conserved, hsane.bounded, ?_⟩, Nat.le_refl _,
        fun _ _ => Later.refl _⟩
      intro name' p' hp'
      rcases of_update hp' with ⟨-, hnew⟩ | ⟨-, hold⟩
      · exact absurd hnew (by simp)
      · exact h.below name' p' hold

/-- **ONE SECTION** keeps the counters, and none goes back. -/
theorem sane_section {call : Call} {b' : Broker} (hs : Section b call b') :
    Sane b' (n + 1) ∧ Advance b b' := by
  have hstay : Sane b (n + 1) ∧ Advance b b :=
    ⟨h.mono (Nat.le_succ n), Advance.refl b⟩
  cases hs with
  | createQueue name => exact sane_createQueue h name
  | deleteQueue name => exact sane_deleteQueue h name
  | drainQueue name =>
      rw [Broker.drainQueue]
      cases b.queues name with
      | none => exact hstay
      | some p =>
          have hb := h.bounded p
          obtain ⟨hc, hl⟩ := conserved_drain (h.conserved p)
          exact sane_write h hc (show (b.heap p).enqueued ≤ n + 1 by omega) hl
  | missing call hcall => exact hstay
  | putMessage queue body p message =>
      cases message with
      | error e => exact hstay
      | ok m =>
          have hb := h.bounded p
          obtain ⟨hc, hl⟩ := conserved_putMessage (h.conserved p) m
          exact sane_write h hc
            (show (b.heap p).enqueued + 1 ≤ n + 1 by omega) hl
  | getMessage queue p =>
      have hb := h.bounded p
      obtain ⟨hc, hl⟩ := conserved_getMessage (h.conserved p)
      rw [Broker.getMessage]
      rw [Queue.getMessage] at hc hl ⊢
      cases hm : (b.heap p).messages with
      | nil => exact hstay
      | cons m rest =>
          rw [hm] at hc hl
          exact sane_write h hc (show (b.heap p).enqueued ≤ n + 1 by omega) hl

end Broker

/-- Only `DeleteQueue` takes a name away. -/
theorem queues_of_section {b b' : Broker} {call : Call}
    (hs : Section b call b') {name : String} {p : Pointer}
    (hp : b.queues name = some p) :
    b'.queues name = some p ∨ call = .deleteQueue name := by
  cases hs with
  | createQueue n =>
      refine Or.inl ?_
      rw [Broker.createQueue]
      cases hn : b.queues n with
      | some p' => exact hp
      | none =>
          show Function.update b.queues n _ name = some p
          rw [Function.update_of_ne]
          · exact hp
          · rintro rfl
            rw [hn] at hp
            exact absurd hp (by simp)
  | deleteQueue n =>
      by_cases hn : n = name
      · exact Or.inr (congrArg Call.deleteQueue hn)
      · refine Or.inl ?_
        rw [Broker.deleteQueue]
        cases b.queues n with
        | none => exact hp
        | some p' =>
            show Function.update b.queues n none name = some p
            rw [Function.update_of_ne (Ne.symm hn)]
            exact hp
  | drainQueue n =>
      refine Or.inl ?_
      rw [Broker.drainQueue]
      cases b.queues n <;> exact hp
  | missing call hcall => exact Or.inl hp
  | putMessage queue body p' message =>
      refine Or.inl ?_
      cases message <;> exact hp
  | getMessage queue p' =>
      refine Or.inl ?_
      rw [Broker.getMessage]
      split <;> exact hp

/-- Names lead where they led, and nothing is drained. -/
structure Calm (b b' : Broker) : Prop where
  queues : b'.queues = b.queues
  drained : ∀ p, (b'.heap p).drained = (b.heap p).drained

theorem Calm.refl (b : Broker) : Calm b b := ⟨rfl, fun _ => rfl⟩

theorem Calm.trans {b b' b'' : Broker} (h : Calm b b') (h' : Calm b' b'') :
    Calm b b'' :=
  ⟨h'.queues.trans h.queues, fun p => (h'.drained p).trans (h.drained p)⟩

theorem calm_write {b : Broker} {p : Pointer} {q : Queue}
    (h : q.drained = (b.heap p).drained) : Calm b (b.write p q) := by
  refine ⟨rfl, fun p' => ?_⟩
  show (Function.update b.heap p q p').drained = _
  by_cases hp : p' = p
  · rw [hp, Function.update_self]
    exact h
  · rw [Function.update_of_ne hp]

/-- A section without the lock of the broker is calm. -/
theorem calm_of_section {b b' : Broker} {call : Call} (hs : Section b call b')
    (hcall : ¬ NeedsLock call) : Calm b b' := by
  cases hs with
  | createQueue n => exact absurd trivial hcall
  | deleteQueue n => exact absurd trivial hcall
  | drainQueue n => exact absurd trivial hcall
  | missing call h => exact Calm.refl b
  | putMessage queue body p message =>
      cases message with
      | error e => exact Calm.refl b
      | ok m => exact calm_write rfl
  | getMessage queue p =>
      rw [Broker.getMessage, Queue.getMessage]
      cases (b.heap p).messages with
      | nil => exact Calm.refl b
      | cons m rest => exact calm_write rfl

/-! ## Entries -/

/-- The counters of an entry are conserved. -/
structure Balanced (e : Stat) : Prop where
  balance : e.enqueued = e.dequeued + e.drained + e.depth
  depth : 0 ≤ e.depth
  dequeued : 0 ≤ e.dequeued
  drained : 0 ≤ e.drained

/-- The counters are between zero and `n`. -/
structure Within (n : Nat) (q : Queue) : Prop where
  depth : 0 ≤ q.depth ∧ q.depth ≤ n
  enqueued : 0 ≤ q.enqueued ∧ q.enqueued ≤ n
  dequeued : 0 ≤ q.dequeued ∧ q.dequeued ≤ n
  drained : 0 ≤ q.drained ∧ q.drained ≤ n

theorem Conserved.within {q : Queue} {n : Nat} (h : Conserved q)
    (hle : q.enqueued ≤ n) : Within n q := by
  have hnonneg := h.depth_nonneg
  obtain ⟨-, hb, hdeq, hdrn⟩ := h
  exact ⟨by omega, by omega, by omega, by omega⟩

/-- No counter has gone back from one entry to the other. -/
structure NotAfter (e e' : Stat) : Prop where
  enqueued : e.enqueued ≤ e'.enqueued
  dequeued : e.dequeued ≤ e'.dequeued
  drained : e.drained ≤ e'.drained

theorem balanced_statOf {q : Queue} (h : Conserved q) (name : String) :
    Balanced (statOf name q) :=
  ⟨h.balance, h.depth_nonneg, h.dequeued, h.drained⟩

theorem Later.stat {q q' : Queue} (h : Later q q') (e : Stat) (name : String)
    (he : NotAfter e (statOf name q)) : NotAfter e (statOf name q') :=
  ⟨Int.le_trans he.enqueued h.enqueued, Int.le_trans he.dequeued h.dequeued,
    Int.le_trans he.drained h.drained⟩

/-- The entry is balanced and its queue has not gone back behind it. -/
structure Fits (b : Broker) (e : Entry) : Prop where
  made : e.pointer < b.next
  balanced : Balanced e.stat
  behind : NotAfter e.stat (statOf e.stat.name (b.heap e.pointer))

theorem Fits.advance {b b' : Broker} {e : Entry} (h : Fits b e)
    (ha : Advance b b') : Fits b' e :=
  ⟨Nat.lt_of_lt_of_le h.made ha.next, h.balanced,
    (ha.later _ h.made).stat _ _ h.behind⟩

/-- The entry that is read now. -/
theorem fits_read {b : Broker} {n : Nat} (h : Sane b n) {name : String}
    {p : Pointer} (hp : b.queues name = some p) (t : Nat) :
    Fits b ⟨statOf name (b.heap p), p, t⟩ :=
  ⟨h.below name p hp, balanced_statOf (h.conserved p) name,
    Int.le_refl _, Int.le_refl _, Int.le_refl _⟩

/-! ## The invariant of a run -/

/-- The queue of that name was deleted after the time `t`. -/
def DeletedAfter (ds : List (Done Call Result)) (name : String) (t : Nat) :
    Prop :=
  ∃ d ∈ ds, d.call = .deleteQueue name ∧ t < d.ended

/-- It was deleted between two times. -/
def DeletedBetween (ds : List (Done Call Result)) (name : String)
    (t t' : Nat) : Prop :=
  ∃ d ∈ ds, d.call = .deleteQueue name ∧ t < d.ended ∧ d.ended < t'

theorem DeletedAfter.mono {ds ds' : List (Done Call Result)} {name : String}
    {t : Nat} (h : DeletedAfter ds name t) (hsub : ∀ d ∈ ds, d ∈ ds') :
    DeletedAfter ds' name t := by
  obtain ⟨d, hd, hrest⟩ := h
  exact ⟨d, hsub d hd, hrest⟩

theorem DeletedBetween.mono {ds ds' : List (Done Call Result)} {name : String}
    {t t' : Nat} (h : DeletedBetween ds name t t')
    (hsub : ∀ d ∈ ds, d ∈ ds') : DeletedBetween ds' name t t' := by
  obtain ⟨d, hd, hrest⟩ := h
  exact ⟨d, hsub d hd, hrest⟩

section Runs

variable {ι κ : Type} {s t : State ι κ}

/-- A `Stats` call, under way or over. -/
def State.Started (s : State ι κ) (x : Reading) : Prop :=
  (∃ j, s.reader j = some x)
    ∨ ∃ r ∈ s.responses, x = ⟨r.began, r.entries⟩

/-- What holds in every state of a run.  `locked` is the lock of the broker;
    `found` and `leads` say which queue an entry was read from. -/
structure Inv (s : State ι κ) : Prop where
  sane : Sane s.base.broker s.base.done.length
  times : ∀ d ∈ s.base.done, d.ended < s.base.clock
  began : ∀ x, s.Started x → x.began < s.base.clock
  fits : ∀ x, s.Started x → ∀ e ∈ x.entries, Fits s.base.broker e
  locked : ∀ j x, s.reader j = some x →
    ∀ d ∈ s.base.done, NeedsLock d.call → d.ended < x.began
  leads : ∀ j x, s.reader j = some x → ∀ e ∈ x.entries,
    s.base.broker.queues e.stat.name = some e.pointer
  found : ∀ r ∈ s.responses, r.ended < s.base.clock ∧ ∀ e ∈ r.entries,
    s.base.broker.queues e.stat.name = some e.pointer
      ∨ DeletedAfter s.base.done e.stat.name r.ended
  ordered : ∀ r ∈ s.responses, ∀ x, s.Started x → r.ended < x.began →
    ∀ e ∈ r.entries, ∀ e' ∈ x.entries, e'.stat.name = e.stat.name →
      NotAfter e.stat e'.stat
        ∨ DeletedBetween s.base.done e.stat.name r.ended x.began
  kept : ∀ r ∈ s.responses, ∀ r' ∈ s.responses, r.ended < r'.began →
    ∀ e ∈ r.entries, e.stat.name ∈ names r'.entries
      ∨ DeletedBetween s.base.done e.stat.name r.ended r'.began

theorem inv_start : Inv (start ι κ) := by
  have hnone : ∀ x, ¬ (start ι κ).Started x := by
    rintro x (⟨j, hj⟩ | ⟨r, hr, -⟩)
    · exact absurd hj (by simp [start])
    · exact absurd hr List.not_mem_nil
  refine ⟨⟨fun _ => conserved_newQueue "", fun _ => Int.le_refl 0, ?_⟩,
    ?_, ?_, ?_, ?_, ?_, ?_, ?_, ?_⟩
  · intro name p hp
    exact absurd hp (by simp [start, MemqClients.start, newBroker])
  · exact fun d hd => absurd hd List.not_mem_nil
  · exact fun x hx => absurd hx (hnone x)
  · exact fun x hx => absurd hx (hnone x)
  · exact fun j x hj => absurd hj (by simp [start])
  · exact fun j x hj => absurd hj (by simp [start])
  · exact fun r hr => absurd hr List.not_mem_nil
  · exact fun r hr => absurd hr List.not_mem_nil
  · exact fun r hr => absurd hr List.not_mem_nil

/-- A deletion that came after a response came before a call under way: the
    call has held the lock ever since it began. -/
theorem Inv.between (h : Inv s) {j : κ} {x : Reading}
    (hj : s.reader j = some x) {name : String} {n : Nat}
    (hdel : DeletedAfter s.base.done name n) :
    DeletedBetween s.base.done name n x.began := by
  obtain ⟨d, hd, hcall, hlt⟩ := hdel
  refine ⟨d, hd, hcall, hlt, h.locked j x hj d hd ?_⟩
  rw [hcall]
  trivial

section Clients

variable [DecidableEq ι]

/-- A section of a client. -/
theorem inv_client (h : Inv s) {u : MemqClients.State ι}
    (hu : MemqClients.Step s.base u)
    (hlock : ∀ d, u.done = d :: s.base.done → NeedsLock d.call → s.Free) :
    Inv (s.client u) := by
  obtain ⟨hclock, hsec⟩ := section_of_step hu
  -- the broker moves on, and a name goes only by a deletion that is recorded
  have hsane : Sane u.broker u.done.length := by
    rcases hsec with ⟨hb, hd⟩ | ⟨d, hd, -, hs⟩
    · rw [hb, hd]
      exact h.sane
    · rw [hd]
      exact (sane_section h.sane hs).1
  have hadv : Advance s.base.broker u.broker := by
    rcases hsec with ⟨hb, -⟩ | ⟨d, -, -, hs⟩
    · rw [hb]
      exact Advance.refl _
    · exact (sane_section h.sane hs).2
  have hsub : ∀ d ∈ s.base.done, d ∈ u.done := by
    rcases hsec with ⟨-, hd⟩ | ⟨d, hd, -, -⟩
    · rw [hd]
      exact fun _ hx => hx
    · rw [hd]
      exact fun _ hx => List.mem_cons_of_mem _ hx
  have hnew : ∀ d ∈ u.done, d ∈ s.base.done
      ∨ (d.ended = s.base.clock ∧ u.done = d :: s.base.done) := by
    intro d hd
    rcases hsec with ⟨-, hsame⟩ | ⟨d', hcons, hended, -⟩
    · rw [hsame] at hd
      exact Or.inl hd
    · rw [hcons] at hd
      rcases List.mem_cons.mp hd with rfl | hold
      · exact Or.inr ⟨hended, hcons⟩
      · exact Or.inl hold
  have hqueues : ∀ name p, s.base.broker.queues name = some p →
      u.broker.queues name = some p
        ∨ ∃ d ∈ u.done, d.call = .deleteQueue name
          ∧ d.ended = s.base.clock := by
    intro name p hp
    rcases hsec with ⟨hb, -⟩ | ⟨d, hd, hended, hs⟩
    · rw [hb]
      exact Or.inl hp
    · refine (queues_of_section hs hp).imp_right fun hcall => ?_
      exact ⟨d, hd ▸ List.mem_cons_self, hcall, hended⟩
  refine ⟨hsane, ?_, ?_, ?_, ?_, ?_, ?_, ?_, ?_⟩
  · -- an operation that ends now ends at the old time
    intro d hd
    show d.ended < u.clock
    rw [hclock]
    rcases hnew d hd with hold | ⟨hended, -⟩
    · exact Nat.lt_succ_of_lt (h.times d hold)
    · omega
  · intro x hx
    show x.began < u.clock
    rw [hclock]
    exact Nat.lt_succ_of_lt (h.began x hx)
  · exact fun x hx e he => (h.fits x hx e he).advance hadv
  · -- no operation that needs the lock ends while a call holds it
    intro j x hj d hd hneeds
    rcases hnew d hd with hold | ⟨-, hcons⟩
    · exact h.locked j x hj d hold hneeds
    · exact absurd ((hlock d hcons hneeds j).symm.trans hj) (by simp)
  · -- so its names still lead where they led
    intro j x hj e he
    rcases hqueues _ _ (h.leads j x hj e he) with hp | ⟨d, hd, hcall, hended⟩
    · exact hp
    · rcases hnew d hd with hold | ⟨-, hcons⟩
      · exact absurd (h.times d hold) (by omega)
      · have hfree := hlock d hcons (by rw [hcall]; trivial) j
        exact absurd (hfree.symm.trans hj) (by simp)
  · intro r hr
    obtain ⟨hended, hfound⟩ := h.found r hr
    refine ⟨?_, fun e he => ?_⟩
    · show r.ended < u.clock
      omega
    · rcases hfound e he with hp | hdel
      · refine (hqueues _ _ hp).imp_right ?_
        rintro ⟨d, hd, hcall, hd'⟩
        exact ⟨d, hd, hcall, by omega⟩
      · exact Or.inr (hdel.mono hsub)
  · intro r hr x hx hlt e he e' he' hname
    exact (h.ordered r hr x hx hlt e he e' he' hname).imp_right fun hdel =>
      hdel.mono hsub
  · intro r hr r' hr' hlt e he
    exact (h.kept r hr r' hr' hlt e he).imp_right fun hdel => hdel.mono hsub

end Clients

/-- What a section of `Stats` keeps: the broker and the completed operations
    are as they were. -/
theorem inv_tick (h : Inv s) : Inv s.tick := by
  refine ⟨h.sane, ?_, ?_, h.fits, h.locked, h.leads, ?_, h.ordered, h.kept⟩
  · exact fun d hd => Nat.lt_succ_of_lt (h.times d hd)
  · exact fun x hx => Nat.lt_succ_of_lt (h.began x hx)
  · intro r hr
    obtain ⟨hended, hfound⟩ := h.found r hr
    exact ⟨Nat.lt_succ_of_lt hended, hfound⟩

variable [DecidableEq κ]

/-- A call begins. -/
theorem inv_begin (h : Inv s) (j : κ) :
    Inv { s.tick with
      reader := Function.update s.reader j (some ⟨s.base.clock, []⟩) } := by
  have ht := inv_tick h
  have hold : ∀ j' x, Function.update s.reader j (some ⟨s.base.clock, []⟩) j'
      = some x → s.reader j' = some x ∨ x = ⟨s.base.clock, []⟩ := by
    intro j' x hx
    rcases of_update hx with ⟨-, hnew⟩ | ⟨-, hold⟩
    · exact Or.inr (Option.some.inj hnew).symm
    · exact Or.inl hold
  have hstarted : ∀ x, State.Started { s.tick with
      reader := Function.update s.reader j (some ⟨s.base.clock, []⟩) } x →
      s.Started x ∨ x = ⟨s.base.clock, []⟩ := by
    rintro x (⟨j', hx⟩ | hx)
    · exact (hold j' x hx).imp_left fun hx => Or.inl ⟨j', hx⟩
    · exact Or.inl (Or.inr hx)
  refine ⟨ht.sane, ht.times, ?_, ?_, ?_, ?_, ht.found, ?_, ht.kept⟩
  · intro x hx
    rcases hstarted x hx with hx | rfl
    · exact ht.began x hx
    · exact Nat.lt_succ_self _
  · intro x hx e he
    rcases hstarted x hx with hx | rfl
    · exact h.fits x hx e he
    · exact absurd he List.not_mem_nil
  · intro j' x hx d hd hneeds
    rcases hold j' x hx with hx | rfl
    · exact h.locked j' x hx d hd hneeds
    · exact h.times d hd
  · intro j' x hx e he
    rcases hold j' x hx with hx | rfl
    · exact h.leads j' x hx e he
    · exact absurd he List.not_mem_nil
  · intro r hr x hx hlt e he e' he' hname
    rcases hstarted x hx with hx | rfl
    · exact h.ordered r hr x hx hlt e he e' he' hname
    · exact absurd he' List.not_mem_nil

/-- A call reads a queue. -/
theorem inv_read (h : Inv s) {j : κ} {x : Reading} {name : String}
    {p : Pointer} (hj : s.reader j = some x)
    (hp : s.base.broker.queues name = some p) :
    Inv { s.tick with
      reader := Function.update s.reader j (some { x with
        entries := x.entries
          ++ [⟨statOf name (s.base.broker.heap p), p, s.base.clock⟩] }) } := by
  have ht := inv_tick h
  set e₀ : Entry := ⟨statOf name (s.base.broker.heap p), p, s.base.clock⟩
    with he₀
  set y : Reading := { x with entries := x.entries ++ [e₀] } with hy
  have hmem : ∀ e ∈ y.entries, e ∈ x.entries ∨ e = e₀ := by
    intro e he
    rcases List.mem_append.mp he with he | he
    · exact Or.inl he
    · exact Or.inr (List.mem_singleton.mp he)
  have hold : ∀ j' z, Function.update s.reader j (some y) j' = some z →
      s.reader j' = some z ∨ (j' = j ∧ z = y) := by
    intro j' z hz
    rcases of_update hz with ⟨hjj, hnew⟩ | ⟨-, hold⟩
    · exact Or.inr ⟨hjj, (Option.some.inj hnew).symm⟩
    · exact Or.inl hold
  have hstarted : ∀ z, State.Started { s.tick with
      reader := Function.update s.reader j (some y) } z →
      s.Started z ∨ z = y := by
    rintro z (⟨j', hz⟩ | hz)
    · exact (hold j' z hz).imp (fun hz => Or.inl ⟨j', hz⟩) fun hz => hz.2
    · exact Or.inl (Or.inr hz)
  have hx : s.Started x := Or.inl ⟨j, hj⟩
  refine ⟨ht.sane, ht.times, ?_, ?_, ?_, ?_, ht.found, ?_, ht.kept⟩
  · intro z hz
    rcases hstarted z hz with hz | rfl
    · exact ht.began z hz
    · exact ht.began x hx
  · intro z hz e he
    rcases hstarted z hz with hz | rfl
    · exact h.fits z hz e he
    · rcases hmem e he with he | rfl
      · exact h.fits x hx e he
      · exact fits_read h.sane hp _
  · intro j' z hz
    rcases hold j' z hz with hz | ⟨rfl, rfl⟩
    · exact h.locked j' z hz
    · exact h.locked j' x hj
  · intro j' z hz e he
    rcases hold j' z hz with hz | ⟨rfl, rfl⟩
    · exact h.leads j' z hz e he
    · rcases hmem e he with he | rfl
      · exact h.leads j' x hj e he
      · exact hp
  · intro r hr z hz hlt e he e' he' hname
    rcases hstarted z hz with hz | rfl
    · exact h.ordered r hr z hz hlt e he e' he' hname
    · rcases hmem e' he' with he' | rfl
      · exact h.ordered r hr x hx hlt e he e' he' hname
      · -- the queue is still the one of the response, or it was deleted
        obtain ⟨-, hfound⟩ := h.found r hr
        have hname' : name = e.stat.name := hname
        rcases hfound e he with hq | hdel
        · rw [← hname', hp] at hq
          obtain rfl := Option.some.inj hq
          have hfit := h.fits ⟨r.began, r.entries⟩ (Or.inr ⟨r, hr, rfl⟩) e he
          exact Or.inl ⟨hfit.behind.enqueued, hfit.behind.dequeued,
            hfit.behind.drained⟩
        · exact Or.inr (h.between hj hdel)

/-- A call returns. -/
theorem inv_finish (h : Inv s) {j : κ} {x : Reading} (hj : s.reader j = some x)
    (hall : ∀ name p, s.base.broker.queues name = some p →
      name ∈ names x.entries) :
    Inv { s.tick with
      reader := Function.update s.reader j none
      responses := ⟨x.began, s.base.clock, x.entries⟩ :: s.responses } := by
  have ht := inv_tick h
  set r₀ : Response := ⟨x.began, s.base.clock, x.entries⟩ with hr₀
  have hold : ∀ j' z, Function.update s.reader j none j' = some z →
      s.reader j' = some z := by
    intro j' z hz
    rcases of_update hz with ⟨-, hnew⟩ | ⟨-, hold⟩
    · exact absurd hnew (by simp)
    · exact hold
  have hx : s.Started x := Or.inl ⟨j, hj⟩
  have hstarted : ∀ z, State.Started { s.tick with
      reader := Function.update s.reader j none
      responses := r₀ :: s.responses } z → s.Started z := by
    rintro z (⟨j', hz⟩ | ⟨r, hr, rfl⟩)
    · exact Or.inl ⟨j', hold j' z hz⟩
    · rcases List.mem_cons.mp hr with rfl | hr
      · exact hx
      · exact Or.inr ⟨r, hr, rfl⟩
  -- nothing that has started comes after a response given now
  have hlate : ∀ z, s.Started z → ¬ r₀.ended < z.began := by
    intro z hz hlt
    have hb := h.began z hz
    have he : r₀.ended = s.base.clock := rfl
    omega
  refine ⟨ht.sane, ht.times, ?_, ?_, ?_, ?_, ?_, ?_, ?_⟩
  · exact fun z hz => ht.began z (hstarted z hz)
  · exact fun z hz => h.fits z (hstarted z hz)
  · exact fun j' z hz => h.locked j' z (hold j' z hz)
  · exact fun j' z hz => h.leads j' z (hold j' z hz)
  · intro r hr
    rcases List.mem_cons.mp hr with rfl | hr
    · exact ⟨Nat.lt_succ_self _, fun e he => Or.inl (h.leads j x hj e he)⟩
    · exact ht.found r hr
  · intro r hr z hz
    rcases List.mem_cons.mp hr with rfl | hr
    · exact fun hlt => absurd hlt (hlate z (hstarted z hz))
    · exact h.ordered r hr z (hstarted z hz)
  · intro r hr r' hr' hlt e he
    rcases List.mem_cons.mp hr with rfl | hr
    · refine absurd hlt (hlate ⟨r'.began, r'.entries⟩ ?_)
      exact hstarted _ (Or.inr ⟨r', hr', rfl⟩)
    · rcases List.mem_cons.mp hr' with rfl | hr'
      · rcases (h.found r hr).2 e he with hp | hdel
        · exact Or.inl (hall _ _ hp)
        · exact Or.inr (h.between hj hdel)
      · exact h.kept r hr r' hr' hlt e he

variable [DecidableEq ι]

/-- **ONE SECTION** keeps the invariant. -/
theorem inv_step (h : Inv s) (hst : Step s t) : Inv t := by
  cases hst with
  | client u hu hlock => exact inv_client h hu hlock
  | begin j hj => exact inv_begin h j
  | read j x name p hj hp hnew => exact inv_read h hj hp
  | finish j x hj hall => exact inv_finish h hj hall

/-- **A RUN** keeps the invariant. -/
theorem inv_of_runs (h : Runs (start ι κ) s) : Inv s := by
  induction h with
  | refl => exact inv_start
  | tail _ hst ih => exact inv_step ih hst

/-! ## Conservation -/

/-- **CONSERVATION**: in every state of every run the counters of every queue
    ever made are conserved and between zero and the number of completed
    operations, every entry of every response is balanced, and from one
    response to a later one no counter of a name that was not deleted in
    between goes back. -/
theorem conserved_of_runs (h : Runs (start ι κ) s) :
    (∀ p, Conserved (s.base.broker.heap p)
        ∧ Within s.base.done.length (s.base.broker.heap p))
      ∧ (∀ r ∈ s.responses, ∀ e ∈ r.stats.queues, Balanced e)
      ∧ (∀ r ∈ s.responses, ∀ r' ∈ s.responses, r.ended < r'.began →
        ∀ e ∈ r.stats.queues,
          ¬ DeletedBetween s.base.done e.name r.ended r'.began →
          (∃ e' ∈ r'.stats.queues, e'.name = e.name)
            ∧ ∀ e' ∈ r'.stats.queues, e'.name = e.name → NotAfter e e') := by
  have hinv := inv_of_runs h
  have hstats : ∀ (r : Response), ∀ e ∈ r.stats.queues,
      ∃ x ∈ r.entries, x.stat = e := by
    intro r e he
    exact List.mem_map.mp he
  refine ⟨fun p => ⟨hinv.sane.conserved p,
    (hinv.sane.conserved p).within (hinv.sane.bounded p)⟩, ?_, ?_⟩
  · intro r hr e he
    obtain ⟨x, hx, rfl⟩ := hstats r e he
    exact (hinv.fits ⟨r.began, r.entries⟩ (Or.inr ⟨r, hr, rfl⟩) x hx).balanced
  · intro r hr r' hr' hlt e he hkept
    obtain ⟨x, hx, rfl⟩ := hstats r e he
    constructor
    · have hname := (hinv.kept r hr r' hr' hlt x hx).resolve_right hkept
      obtain ⟨x', hx', hn⟩ := List.mem_map.mp hname
      exact ⟨x'.stat, List.mem_map_of_mem hx', hn⟩
    · intro e' he' hn
      obtain ⟨x', hx', rfl⟩ := hstats r' e' he'
      exact (hinv.ordered r hr ⟨r'.began, r'.entries⟩ (Or.inr ⟨r', hr', rfl⟩)
        hlt x hx x' hx' hn).resolve_right hkept

end Runs

/-! ## One caller of `Stats` -/

section OneCaller

variable {ι : Type}

/-- A call has begun. -/
def begun (s : State ι Unit) : State ι Unit :=
  { s.tick with
    reader := Function.update s.reader () (some ⟨s.base.clock, []⟩) }

/-- What a call has read after one more queue. -/
def reading (s : State ι Unit) (x : Reading) (e : String × Pointer) :
    Reading :=
  { x with entries := x.entries
      ++ [⟨statOf e.1 (s.base.broker.heap e.2), e.2, s.base.clock⟩] }

/-- The call has read a queue. -/
def afterRead (s : State ι Unit) (x : Reading) (e : String × Pointer) :
    State ι Unit :=
  { s.tick with reader := Function.update s.reader () (some (reading s x e)) }

theorem afterRead_reader (s : State ι Unit) (x : Reading)
    (e : String × Pointer) :
    (afterRead s x e).reader () = some (reading s x e) :=
  Function.update_self () _ s.reader

/-- The call has returned. -/
def afterCall (s : State ι Unit) (x : Reading) : State ι Unit :=
  { s.tick with
    reader := Function.update s.reader () none
    responses := ⟨x.began, s.base.clock, x.entries⟩ :: s.responses }

/-- A call reads one queue and returns. -/
def callOne (s : State ι Unit) (e : String × Pointer) : State ι Unit :=
  let s₁ := begun s
  afterCall (afterRead s₁ ⟨s.base.clock, []⟩ e)
    (reading s₁ ⟨s.base.clock, []⟩ e)

theorem runs_callOne [DecidableEq ι] {s : State ι Unit} {e : String × Pointer}
    (hj : s.reader () = none) (he : s.base.broker.queues e.1 = some e.2)
    (hall : ∀ name p, s.base.broker.queues name = some p → name = e.1) :
    Runs s (callOne s e) := by
  have hbegun : Runs s (begun s) := .single (.begin () hj)
  have hread : Runs s (afterRead (begun s) ⟨s.base.clock, []⟩ e) :=
    .tail hbegun (.read () ⟨s.base.clock, []⟩ e.1 e.2
      (Function.update_self () _ s.reader) he List.not_mem_nil)
  refine .tail hread (.finish () _ (afterRead_reader _ _ _)
    fun name p hp => ?_)
  rw [hall name p hp]
  simp [names, reading, statOf]

end OneCaller

/-! ## Two puts during a call -/

/-- The queues a and b have been made. -/
def twoQueues : State Unit Unit :=
  let s := start Unit Unit
  let s := s.client (s.base.complete () 0 (.createQueue "a")
    (s.base.broker.createQueue "a"))
  s.client (s.base.complete () 1 (.createQueue "b")
    (s.base.broker.createQueue "b"))

/-- A `Stats` call has read a. -/
def readA : State Unit Unit :=
  let s := { twoQueues.tick with
    reader := Function.update twoQueues.reader () (some ⟨2, []⟩) }
  { s.tick with reader := Function.update s.reader () (some ⟨2,
    [] ++ [⟨statOf "a" (s.base.broker.heap 0), 0, 3⟩]⟩) }

/-- A client puts a message into the queue. -/
def putTo (queue : String) (p : Pointer) (s : State Unit Unit) :
    State Unit Unit :=
  let began := s.base.clock
  let s := s.client (s.base.lookup () (.putMessage queue "x")
    (.putting began queue "x"))
  s.client (s.base.complete () began (.putMessage queue "x")
    (s.base.broker.putMessage p
      (newMessage (.ok (Vector.replicate 16 7)) 0 "x")))

/-- The client has put a message into a and then one into b. -/
def bothPut : State Unit Unit := putTo "b" 1 (putTo "a" 0 readA)

/-- The call with what it has read of a and of b. -/
def readBoth : Reading := ⟨2, [⟨statOf "a" (newQueue "a"), 0, 3⟩]
  ++ [⟨statOf "b" (bothPut.base.broker.heap 1), 1, 8⟩]⟩

/-- The call has read b. -/
def readB : State Unit Unit :=
  { bothPut.tick with
    reader := Function.update bothPut.reader () (some readBoth) }

/-- The call has returned. -/
def tornCall : State Unit Unit :=
  { readB.tick with
    reader := Function.update readB.reader () none
    responses := ⟨2, 9, readBoth.entries⟩ :: readB.responses }

theorem names_twoQueues {name : String} {p : Pointer}
    (h : twoQueues.base.broker.queues name = some p) :
    name = "a" ∨ name = "b" := by
  have hq : twoQueues.base.broker.queues = Function.update
      (Function.update (fun _ => none) "a" (some 0)) "b" (some 1) := rfl
  rw [hq] at h
  by_cases hb : name = "b"
  · exact Or.inr hb
  · by_cases ha : name = "a"
    · exact Or.inl ha
    · rw [Function.update_of_ne hb, Function.update_of_ne ha] at h
      exact absurd h (by simp)

/-- A put takes no lock that a call holds. -/
theorem runs_putTo {queue : String} {p : Pointer} {s : State Unit Unit}
    (hidle : s.base.client () = .idle)
    (hp : s.base.broker.queues queue = some p) :
    Runs s (putTo queue p s) := by
  have hfound : s.base.lookup () (.putMessage queue "x")
      (.putting s.base.clock queue "x") = { s.base with
        client := Function.update s.base.client ()
          (.putting s.base.clock queue "x" p)
        clock := s.base.clock + 1 } := by
    have hget : s.base.broker.getQueue queue = .ok p := by
      rw [Broker.getQueue, hp]
    simp only [MemqClients.State.lookup, Call.queue, hget]
  have hfirst : Step s (s.client (s.base.lookup () (.putMessage queue "x")
      (.putting s.base.clock queue "x"))) := by
    refine .client _ (.findPut () queue "x" hidle) fun d hd => ?_
    rw [hfound] at hd
    exact absurd hd.symm (List.cons_ne_self d _)
  refine .tail (.single hfirst) (.client _
    (.putMessage () s.base.clock queue "x" p _ 0 ?_) fun d hd hneeds => ?_)
  · show (s.base.lookup () (.putMessage queue "x")
      (.putting s.base.clock queue "x")).client ()
      = .putting s.base.clock queue "x" p
    rw [hfound]
    exact Function.update_self () _ s.base.client
  · rw [← (List.cons.inj hd).1] at hneeds
    exact hneeds.elim

theorem runs_tornCall : Runs (start Unit Unit) tornCall := by
  have hmade : Runs (start Unit Unit) twoQueues :=
    .tail (.single (.client _ (.createQueue () "a" rfl) fun _ _ _ _ => rfl))
      (.client _ (.createQueue () "b" rfl) fun _ _ _ _ => rfl)
  have hread : Runs (start Unit Unit) readA :=
    .tail (.tail hmade (.begin () rfl))
      (.read () ⟨2, []⟩ "a" 0 rfl rfl List.not_mem_nil)
  have hput : Runs (start Unit Unit) bothPut :=
    (hread.trans (runs_putTo rfl rfl)).trans (runs_putTo rfl rfl)
  have hboth : Runs (start Unit Unit) readB :=
    .tail hput (.read () ⟨2, [⟨statOf "a" (newQueue "a"), 0, 3⟩]⟩ "b" 1
      rfl rfl (by decide))
  refine .tail hboth (.finish () readBoth rfl fun name p hp => ?_)
  rcases names_twoQueues hp with rfl | rfl
  · decide
  · decide

/-! ## A queue that is deleted while it is held -/

/-- A client puts `body` into a, as far as finding the queue. -/
def findA (i : Bool) (body : String) (s : State Bool Unit) :
    State Bool Unit :=
  s.client (s.base.lookup i (.putMessage "a" body)
    (.putting s.base.clock "a" body))

/-- The client that began its put at `began` and found the queue at `p` ends
    it. -/
def endPut (i : Bool) (began : Nat) (body : String) (p : Pointer)
    (s : State Bool Unit) : State Bool Unit :=
  s.client (s.base.complete i began (.putMessage "a" body)
    (s.base.broker.putMessage p
      (newMessage (.ok (Vector.replicate 16 7)) 0 body)))

/-- The queue a has been made, and a client that is to put into it has found
    it. -/
def heldA : State Bool Unit :=
  let s := start Bool Unit
  findA true "x" (s.client (s.base.complete false 0 (.createQueue "a")
    (s.base.broker.createQueue "a")))

/-- A call of `Stats` has returned, the other client has put a message, and a
    second call has returned. -/
def calledTwice : State Bool Unit :=
  callOne (endPut false 5 "y" 0 (findA false "y" (callOne heldA ("a", 0))))
    ("a", 0)

/-- The queue has been deleted. -/
def deletedA : State Bool Unit :=
  calledTwice.client (calledTwice.base.complete false calledTwice.base.clock
    (.deleteQueue "a") (calledTwice.base.broker.deleteQueue "a"))

/-- The client that held it has put its message. -/
def putOrphan : State Bool Unit := endPut true 1 "x" 0 deletedA

theorem queues_heldA {name : String} {p : Pointer}
    (h : heldA.base.broker.queues name = some p) : name = "a" := by
  have hq : heldA.base.broker.queues
      = Function.update (fun _ => none) "a" (some 0) := rfl
  rw [hq] at h
  by_contra hne
  rw [Function.update_of_ne hne] at h
  exact absurd h (by simp)

/-- Ending a put takes no lock that a call holds. -/
theorem step_endPut {i : Bool} {began : Nat} {body : String} {p : Pointer}
    {s : State Bool Unit} (h : s.base.client i = .putting began "a" body p) :
    Step s (endPut i began body p s) := by
  refine .client _ (.putMessage i began "a" body p _ 0 h) fun d hd hneeds => ?_
  rw [← (List.cons.inj hd).1] at hneeds
  exact hneeds.elim

theorem runs_putOrphan : Runs (start Bool Unit) putOrphan := by
  have hheld : Runs (start Bool Unit) heldA :=
    .tail (.single (.client _ (.createQueue false "a" rfl) fun _ _ _ _ => rfl))
      (.client _ (.findPut true "a" "x" rfl)
        fun d hd => absurd hd.symm (List.cons_ne_self d _))
  have hfirst : Runs (start Bool Unit) (callOne heldA ("a", 0)) :=
    hheld.trans (runs_callOne rfl rfl fun _ _ h => queues_heldA h)
  have hput : Runs (start Bool Unit)
      (endPut false 5 "y" 0 (findA false "y" (callOne heldA ("a", 0)))) :=
    .tail (.tail hfirst (.client _ (.findPut false "a" "y" rfl)
      fun d hd => absurd hd.symm (List.cons_ne_self d _))) (step_endPut rfl)
  have hsecond : Runs (start Bool Unit) calledTwice :=
    hput.trans (runs_callOne rfl rfl fun _ _ h => queues_heldA h)
  exact .tail (.tail hsecond (.client _ (.deleteQueue false "a" rfl)
    fun _ _ _ _ => rfl)) (step_endPut rfl)

/-- The two calls read a before and after the first put; the second message
    went to a queue that no name leads to, and is counted there. -/
theorem conserved_putOrphan :
    putOrphan.base.broker.queues "a" = none
      ∧ statOf "a" (putOrphan.base.broker.heap 0) = ⟨"a", 2, 2, 0, 0⟩
      ∧ (putOrphan.responses.map fun r => r.stats.queues)
        = [[⟨"a", 1, 1, 0, 0⟩], [⟨"a", 0, 0, 0, 0⟩]]
      ∧ Conserved (putOrphan.base.broker.heap 0)
      ∧ (∀ r ∈ putOrphan.responses, ∀ e ∈ r.stats.queues, Balanced e)
      ∧ NotAfter ⟨"a", 0, 0, 0, 0⟩ ⟨"a", 1, 1, 0, 0⟩ := by
  obtain ⟨hqueues, hbalanced, hordered⟩ := conserved_of_runs runs_putOrphan
  refine ⟨rfl, by decide, by decide, (hqueues 0).1, hbalanced, ?_⟩
  -- the only deletion came after the second call
  have hlater : ¬ DeletedBetween putOrphan.base.done "a" 4 7 := by
    rintro ⟨d, hd, hcall, -, hended⟩
    have hall : ∀ d ∈ putOrphan.base.done, d.call = .deleteQueue "a" →
        10 ≤ d.ended := by
      decide
    exact absurd hended (Nat.not_lt.mpr (Nat.le_trans (by decide)
      (hall d hd hcall)))
  exact (hordered _ (List.mem_cons_of_mem _ List.mem_cons_self) _
    List.mem_cons_self (by decide) ⟨"a", 0, 0, 0, 0⟩ List.mem_cons_self
      hlater).2 ⟨"a", 1, 1, 0, 0⟩ List.mem_cons_self rfl

end MemqStats
