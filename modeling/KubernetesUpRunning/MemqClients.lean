import KubernetesUpRunning.MemqBroker
import Mathlib.Logic.Relation

/-! # Clients of the broker

    Any number of clients call the broker at the same time; one step is one
    section under a lock.  Between the sections of `PutMessage` and
    `GetMessage` the queue that was looked up may be deleted, and the client
    goes on with a queue that no name leads to any more.  Such an operation
    takes effect right before the deletion, which came after its lookup. -/

namespace MemqClients

open Linearizability MemqBroker

/-! ## Steps -/

/-- A client: between two operations, or past the lookup of `PutMessage` or of
    `GetMessage`, with what it found. -/
inductive Client where
  | idle
  | putting (began : Nat) (queue body : String) (p : Pointer)
  | getting (began : Nat) (queue : String) (p : Pointer)

/-- Since when a client has held which queue, under which name. -/
def Client.holds : Client → Option (Nat × String × Pointer)
  | .idle => none
  | .putting began queue _ p => some (began, queue, p)
  | .getting began queue p => some (began, queue, p)

/-- The broker, the clients, how many sections there have been, and the
    completed operations, latest first. -/
structure State (ι : Type) where
  broker : Broker
  client : ι → Client
  clock : Nat
  done : List (Done Call Result)

/-- A new broker and its clients. -/
def start (ι : Type) : State ι := ⟨newBroker, fun _ => .idle, 0, []⟩

section Steps

variable {ι : Type} [DecidableEq ι]

/-- The last section of an operation, with its result. -/
def State.complete (s : State ι) (i : ι) (began : Nat) (call : Call)
    (r : Result × Broker) : State ι where
  broker := r.2
  client := Function.update s.client i .idle
  clock := s.clock + 1
  done := ⟨began, s.clock, call, r.1⟩ :: s.done

/-- The first section of `PutMessage` and `GetMessage`. -/
def State.lookup (s : State ι) (i : ι) (call : Call)
    (found : Pointer → Client) : State ι :=
  match s.broker.getQueue call.queue with
  | .error e => s.complete i s.clock call (.error e, s.broker)
  | .ok p => { s with
      client := Function.update s.client i (found p)
      clock := s.clock + 1 }

/-- One section of one operation. -/
inductive Step (s : State ι) : State ι → Prop
  | createQueue (i : ι) (name : String) (hi : s.client i = .idle) :
      Step s (s.complete i s.clock (.createQueue name)
        (s.broker.createQueue name))
  | deleteQueue (i : ι) (name : String) (hi : s.client i = .idle) :
      Step s (s.complete i s.clock (.deleteQueue name)
        (s.broker.deleteQueue name))
  | drainQueue (i : ι) (name : String) (hi : s.client i = .idle) :
      Step s (s.complete i s.clock (.drainQueue name)
        (s.broker.drainQueue name))
  | findPut (i : ι) (queue body : String) (hi : s.client i = .idle) :
      Step s (s.lookup i (.putMessage queue body)
        (.putting s.clock queue body))
  | findGet (i : ι) (queue : String) (hi : s.client i = .idle) :
      Step s (s.lookup i (.getMessage queue) (.getting s.clock queue))
  | putMessage (i : ι) (began : Nat) (queue body : String) (p : Pointer)
      (read : Except String (Vector UInt8 16)) (now : Nat)
      (hi : s.client i = .putting began queue body p) :
      Step s (s.complete i began (.putMessage queue body)
        (s.broker.putMessage p (newMessage read now body)))
  | getMessage (i : ι) (began : Nat) (queue : String) (p : Pointer)
      (hi : s.client i = .getting began queue p) :
      Step s (s.complete i began (.getMessage queue) (s.broker.getMessage p))

/-- Runs of the clients. -/
abbrev Runs : State ι → State ι → Prop := Relation.ReflTransGen Step

end Steps

/-! ## What the names lead to -/

/-- The messages behind every name. -/
def contents (b : Broker) : Queues := fun name =>
  (b.queues name).map fun p => (b.heap p).messages

theorem contents_none {b : Broker} {name : String}
    (h : b.queues name = none) : contents b name = none := by
  rw [contents, h]
  rfl

theorem contents_some {b : Broker} {name : String} {p : Pointer}
    (h : b.queues name = some p) :
    contents b name = some (b.heap p).messages := by
  rw [contents, h]
  rfl

/-- A queue that one name leads to is written. -/
theorem contents_write {b : Broker} {name : String} {p : Pointer}
    (h : b.queues name = some p)
    (hone : ∀ n, b.queues n = some p → n = name) (q : Queue) :
    contents (b.write p q)
      = Function.update (contents b) name (some q.messages) := by
  funext n
  by_cases hn : n = name
  · rw [hn, Function.update_self]
    show (b.queues name).map _ = _
    rw [h]
    show some (Function.update b.heap p q p).messages = _
    rw [Function.update_self]
  · rw [Function.update_of_ne hn]
    show (b.queues n).map _ = (b.queues n).map _
    cases hp : b.queues n with
    | none => rfl
    | some p' =>
        have hp' : p' ≠ p := by
          rintro rfl
          exact hn (hone n hp)
        show some (Function.update b.heap p q p').messages = _
        rw [Function.update_of_ne hp']
        rfl

/-- A queue that is made is empty. -/
theorem contents_createQueue {b : Broker} {name : String}
    (hbelow : ∀ n p, b.queues n = some p → p < b.next)
    (hname : b.queues name = none) :
    contents (b.createQueue name).2
      = Function.update (contents b) name (some []) := by
  rw [Broker.createQueue, hname]
  funext n
  by_cases hn : n = name
  · subst hn
    simp [contents, newQueue]
  · rw [Function.update_of_ne hn]
    show (Function.update b.queues name _ n).map _ = (b.queues n).map _
    rw [Function.update_of_ne hn]
    cases hp : b.queues n with
    | none => rfl
    | some p =>
        show some (Function.update b.heap b.next _ p).messages = _
        rw [Function.update_of_ne (Nat.ne_of_lt (hbelow n p hp))]
        rfl

theorem contents_deleteQueue {b : Broker} {name : String} {p : Pointer}
    (hp : b.queues name = some p) :
    contents (b.deleteQueue name).2
      = Function.update (contents b) name none := by
  rw [Broker.deleteQueue, hp]
  funext n
  by_cases hn : n = name
  · subst hn
    simp [contents]
  · simp [contents, Function.update_of_ne hn]

/-- A queue that no name leads to is written. -/
theorem contents_write_closed {b : Broker} {p : Pointer}
    (hno : ∀ n, b.queues n ≠ some p) (q : Queue) :
    contents (b.write p q) = contents b := by
  funext n
  show (b.queues n).map _ = (b.queues n).map _
  cases hp : b.queues n with
  | none => rfl
  | some p' =>
      have hp' : p' ≠ p := by
        rintro rfl
        exact hno n hp
      show some (Function.update b.heap p q p').messages = _
      rw [Function.update_of_ne hp']
      rfl

/-- What a closed queue has come to hold is what its name led to. -/
def Shows (nameOf : Pointer → String) (b : Broker) (p : Pointer)
    (q : Queues) : Prop :=
  q (nameOf p) = some (b.heap p).messages

/-! ## The timeline of a run -/

/-- The pointers of the queues that were deleted. -/
abbrev closed (t : List (Slot Pointer Call Result)) : List Pointer :=
  t.filterMap Slot.closes

/-- The timeline explains the broker: it leads from no queues to the present
    ones, and every queue that was made is behind its name or was deleted
    once. -/
structure Sound (nameOf : Pointer → String)
    (t : List (Slot Pointer Call Result)) (b : Broker) : Prop where
  legal : LegalSlots Answers (Shows nameOf b) (fun _ => none) t (contents b)
  once : (closed t).Nodup
  closing : ∀ slot ∈ t, ∀ p, slot.closes = some p →
    slot.own.call = .deleteQueue (nameOf p) ∧ slot.own.result = .nil
  named : ∀ name p, b.queues name = some p →
    nameOf p = name ∧ p < b.next ∧ p ∉ closed t
  made : ∀ p, p < b.next → b.queues (nameOf p) = some p ∨ p ∈ closed t
  past : ∀ p ∈ closed t, p < b.next

/-- The timeline holds the completed operations, at times that have been. -/
structure Timely {ι : Type} (t : List (Slot Pointer Call Result))
    (s : State ι) : Prop where
  timed : Timed t
  past : ∀ slot ∈ t, slot.time < s.clock
  perm : (order t).Perm s.done

/-- What a client holds was there when it looked it up: it was deleted later if
    at all. -/
def Held {ι : Type} (nameOf : Pointer → String)
    (t : List (Slot Pointer Call Result)) (s : State ι) : Prop :=
  ∀ i began name p, (s.client i).holds = some (began, name, p) →
    nameOf p = name ∧ p < s.broker.next ∧ began < s.clock
      ∧ ∀ slot ∈ t, slot.closes = some p → began ≤ slot.time

/-- There is a timeline that explains the state. -/
def Explained {ι : Type} (s : State ι) : Prop :=
  ∃ nameOf t, Sound nameOf t s.broker ∧ Timely t s ∧ Held nameOf t s

theorem explained_start (ι : Type) : Explained (start ι) := by
  refine ⟨fun _ => "", [], ?_, ?_, ?_⟩
  · refine ⟨?_, List.nodup_nil, ?_, ?_, ?_, ?_⟩
    · exact .nil _
    · intro slot h
      exact absurd h List.not_mem_nil
    · intro name p h
      exact absurd h (by simp [start, newBroker])
    · intro p h
      exact absurd h (Nat.not_lt_zero p)
    · intro p h
      exact absurd h List.not_mem_nil
  · refine ⟨⟨List.Pairwise.nil, ?_⟩, ?_, List.Perm.refl _⟩
    · intro slot h
      exact absurd h List.not_mem_nil
    · intro slot h
      exact absurd h List.not_mem_nil
  · intro i began name p h
    exact absurd h (by simp [start, Client.holds])

/-! ## The broker -/

section Broker

variable {nameOf : Pointer → String} {t : List (Slot Pointer Call Result)}
  {b : Broker}

/-- One name leads to a queue at most. -/
theorem Sound.name_unique (h : Sound nameOf t b) {name n : String} {p : Pointer}
    (hp : b.queues name = some p) (hn : b.queues n = some p) : n = name :=
  (h.named n p hn).1.symm.trans (h.named name p hp).1

/-- An operation takes effect on the queues that are there. -/
theorem sound_now (h : Sound nameOf t b) {b' : Broker}
    {slot : Slot Pointer Call Result} (hcloses : slot.closes = none)
    (hlate : slot.late = [])
    (hown : Answers (contents b) slot.own.call slot.own.result (contents b'))
    (hqueues : b'.queues = b.queues) (hnext : b'.next = b.next)
    (hheap : ∀ p ∈ closed t, b'.heap p = b.heap p) :
    Sound nameOf (t ++ [slot]) b' := by
  have hclosed : closed (t ++ [slot]) = closed t := by
    simp [closed, hcloses]
  refine ⟨?_, ?_, ?_, ?_, ?_, ?_⟩
  · refine legalSlots_snoc (legalSlots_mono h.legal ?_) hlate ?_ hown
    · intro p hp q hq
      rw [Shows, hheap p hp]
      exact hq
    · intro p hp
      rw [hcloses] at hp
      exact absurd hp (by simp)
  · rw [hclosed]
    exact h.once
  · intro sl hsl p hp
    rcases List.mem_append.mp hsl with ht | he
    · exact h.closing sl ht p hp
    · rw [List.mem_singleton.mp he, hcloses] at hp
      exact absurd hp (by simp)
  · rw [hclosed, hqueues, hnext]
    exact h.named
  · rw [hclosed, hqueues, hnext]
    exact h.made
  · rw [hclosed, hnext]
    exact h.past

/-- A queue is made under a name that led nowhere. -/
theorem sound_create (h : Sound nameOf t b) {name : String}
    (hname : b.queues name = none) {slot : Slot Pointer Call Result}
    (hcloses : slot.closes = none) (hlate : slot.late = [])
    (hcall : slot.own.call = .createQueue name)
    (hresult : slot.own.result = .nil) :
    Sound (Function.update nameOf b.next name) (t ++ [slot])
      (b.createQueue name).2 := by
  have hmade : (b.createQueue name).2 = {
      queues := Function.update b.queues name (some b.next)
      heap := Function.update b.heap b.next (newQueue name)
      next := b.next + 1 } := by
    rw [Broker.createQueue, hname]
  have hclosed : closed (t ++ [slot]) = closed t := by
    simp [closed, hcloses]
  -- nothing that was there before is at the new pointer
  have hne : ∀ p, p < b.next → p ≠ b.next := fun p hp => Nat.ne_of_lt hp
  refine ⟨?_, ?_, ?_, ?_, ?_, ?_⟩
  · rw [contents_createQueue (fun n p hp => (h.named n p hp).2.1) hname]
    refine legalSlots_snoc (legalSlots_mono h.legal ?_) hlate ?_ ?_
    · intro p hp q hq
      have hp' := hne p (h.past p hp)
      rw [hmade]
      show q (Function.update nameOf b.next name p)
        = some (Function.update b.heap b.next _ p).messages
      rw [Function.update_of_ne hp', Function.update_of_ne hp']
      exact hq
    · intro p hp
      rw [hcloses] at hp
      exact absurd hp (by simp)
    · rw [hcall, hresult]
      exact .created (contents_none hname)
  · rw [hclosed]
    exact h.once
  · intro sl hsl p hp
    rcases List.mem_append.mp hsl with ht | he
    · have hp' := hne p (h.past p (List.mem_filterMap.mpr ⟨sl, ht, hp⟩))
      rw [Function.update_of_ne hp']
      exact h.closing sl ht p hp
    · rw [List.mem_singleton.mp he, hcloses] at hp
      exact absurd hp (by simp)
  · rw [hclosed, hmade]
    intro n p hp
    dsimp only at hp ⊢
    rcases of_update hp with ⟨rfl, hnew⟩ | ⟨-, hold⟩
    · obtain rfl := Option.some.inj hnew
      refine ⟨Function.update_self _ _ _, Nat.lt_succ_self _, fun hmem => ?_⟩
      exact Nat.lt_irrefl _ (h.past _ hmem)
    · obtain ⟨hnm, hlt, hopen⟩ := h.named n p hold
      rw [Function.update_of_ne (hne p hlt)]
      exact ⟨hnm, Nat.lt_succ_of_lt hlt, hopen⟩
  · rw [hclosed, hmade]
    intro p hp
    rcases Nat.lt_succ_iff_lt_or_eq.mp hp with hlt | rfl
    · rw [Function.update_of_ne (hne p hlt)]
      rcases h.made p hlt with hopen | hcl
      · refine Or.inl ?_
        show Function.update b.queues name _ (nameOf p) = some p
        rw [Function.update_of_ne]
        · exact hopen
        · intro hnm
          rw [hnm, hname] at hopen
          exact absurd hopen (by simp)
      · exact Or.inr hcl
    · refine Or.inl ?_
      rw [Function.update_self]
      exact Function.update_self _ _ _
  · rw [hclosed, hmade]
    intro p hp
    exact Nat.lt_succ_of_lt (h.past p hp)

/-- A name leads nowhere any more: the queue behind it is closed. -/
theorem sound_delete (h : Sound nameOf t b) {name : String} {p : Pointer}
    (hp : b.queues name = some p) {slot : Slot Pointer Call Result}
    (hcloses : slot.closes = some p) (hlate : slot.late = [])
    (hcall : slot.own.call = .deleteQueue name)
    (hresult : slot.own.result = .nil) :
    Sound nameOf (t ++ [slot]) (b.deleteQueue name).2 := by
  have hdeleted : (b.deleteQueue name).2
      = { b with queues := Function.update b.queues name none } := by
    rw [Broker.deleteQueue, hp]
  have hclosed : closed (t ++ [slot]) = closed t ++ [p] := by
    simp [closed, hcloses]
  obtain ⟨hname, hlt, hopen⟩ := h.named name p hp
  refine ⟨?_, ?_, ?_, ?_, ?_, ?_⟩
  · rw [contents_deleteQueue hp]
    refine legalSlots_snoc (legalSlots_mono h.legal ?_) hlate ?_ ?_
    · intro p' _ q hq
      rw [hdeleted]
      exact hq
    · intro p' hp'
      rw [hcloses] at hp'
      obtain rfl := Option.some.inj hp'
      rw [hdeleted, Shows, hname]
      exact contents_some hp
    · rw [hcall, hresult]
      exact .deleted (contents_some hp)
  · rw [hclosed, List.nodup_append]
    refine ⟨h.once, List.nodup_singleton _, ?_⟩
    intro p₁ hp₁ p₂ hp₂ he
    rw [he, List.mem_singleton.mp hp₂] at hp₁
    exact hopen hp₁
  · intro sl hsl p' hp'
    rcases List.mem_append.mp hsl with ht | he
    · exact h.closing sl ht p' hp'
    · rw [List.mem_singleton.mp he] at hp' ⊢
      rw [hcloses] at hp'
      obtain rfl := Option.some.inj hp'
      rw [hname]
      exact ⟨hcall, hresult⟩
  · rw [hclosed, hdeleted]
    intro n p' hp'
    dsimp only at hp' ⊢
    rcases of_update hp' with ⟨-, hnew⟩ | ⟨hn, hold⟩
    · exact absurd hnew (by simp)
    · obtain ⟨hnm, hlt', hopen'⟩ := h.named n p' hold
      refine ⟨hnm, hlt', ?_⟩
      rw [List.mem_append, List.mem_singleton]
      rintro (hcl | rfl)
      · exact hopen' hcl
      · exact hn (h.name_unique hp hold)
  · rw [hclosed, hdeleted]
    intro p' hp'
    by_cases hpp : p' = p
    · rw [hpp]
      exact Or.inr (List.mem_append_right _ (List.mem_singleton_self p))
    · rcases h.made p' hp' with hopen' | hcl
      · refine Or.inl ?_
        show Function.update b.queues name none (nameOf p') = some p'
        rw [Function.update_of_ne]
        · exact hopen'
        · intro hnm
          rw [hnm, hp] at hopen'
          exact hpp (Option.some.inj hopen').symm
      · exact Or.inr (List.mem_append_left _ hcl)
  · rw [hclosed, hdeleted]
    intro p' hp'
    rcases List.mem_append.mp hp' with hcl | he
    · exact h.past p' hcl
    · rw [List.mem_singleton.mp he]
      exact hlt

/-- An operation on a queue that was deleted takes effect right before the
    deletion. -/
theorem sound_late (h : Sound nameOf t b) {p : Pointer} (hp : p ∈ closed t)
    {d : Done Call Result} {q : Queue}
    (hd : ∀ c : Queues, c (nameOf p) = some (b.heap p).messages →
      Answers c d.call d.result
        (Function.update c (nameOf p) (some q.messages))) :
    Sound nameOf (receive p d t) (b.write p q) := by
  have hno : ∀ n, b.queues n ≠ some p := by
    intro n hn
    exact (h.named n p hn).2.2 hp
  have hclosed : closed (receive p d t) = closed t := closes_receive_all p d t
  refine ⟨?_, ?_, ?_, ?_, ?_, ?_⟩
  · rw [contents_write_closed hno]
    refine legalSlots_receive h.legal ?_ ?_
    · intro p' hp' c hc
      show c (nameOf p') = some (Function.update b.heap p q p').messages
      rw [Function.update_of_ne hp']
      exact hc
    · intro slot hslot hcl c c' hc hown
      refine ⟨_, hd c hc, ?_, ?_⟩
      · show Function.update c (nameOf p) (some q.messages) (nameOf p)
          = some (Function.update b.heap p q p).messages
        rw [Function.update_self, Function.update_self]
      · -- the deletion leaves the same, whatever the queue holds
        obtain ⟨hcall, hresult⟩ := h.closing slot hslot p hcl
        rw [hcall, hresult] at hown ⊢
        cases hown with
        | deleted hc' =>
            have hdel := Answers.deleted (q := Function.update c (nameOf p)
              (some q.messages)) (Function.update_self _ _ _)
            rwa [Function.update_idem] at hdel
  · rw [hclosed]
    exact h.once
  · intro slot' hslot' p' hp'
    obtain ⟨slot, hslot, rfl⟩ := mem_receive hslot'
    rw [closes_receive] at hp'
    rw [own_receive]
    exact h.closing slot hslot p' hp'
  · rw [hclosed]
    exact h.named
  · rw [hclosed]
    exact h.made
  · rw [hclosed]
    exact h.past

end Broker

/-! ## Time and the clients -/

section Clients

variable {ι : Type} [DecidableEq ι] {s : State ι}
  {nameOf nameOf' : Pointer → String} {t : List (Slot Pointer Call Result)}
  {i : ι} {began : Nat} {call : Call} {r : Result × Broker}

/-- The slot of an operation that completes and takes effect now. -/
def State.slot (s : State ι) (closes : Option Pointer) (began : Nat)
    (call : Call) (result : Result) : Slot Pointer Call Result :=
  ⟨s.clock, closes, [], ⟨began, s.clock, call, result⟩⟩

theorem timely_now (h : Timely t s) (hb : began ≤ s.clock)
    (closes : Option Pointer) :
    Timely (t ++ [s.slot closes began call r.1])
      (s.complete i began call r) := by
  refine ⟨timed_snoc h.timed ?_ ?_, ?_, ?_⟩
  · intro slot hslot
    exact Nat.le_of_lt (h.past slot hslot)
  · intro d hd
    rw [List.mem_singleton.mp hd]
    exact ⟨hb, Nat.le_refl _⟩
  · intro slot hslot
    show slot.time < s.clock + 1
    rcases List.mem_append.mp hslot with ht | he
    · exact Nat.lt_succ_of_lt (h.past slot ht)
    · rw [List.mem_singleton.mp he]
      exact Nat.lt_succ_self _
  · rw [order_snoc]
    exact (List.perm_append_singleton _ _).trans (h.perm.cons _)

theorem timely_late (h : Timely t s) {p : Pointer} (honce : (closed t).Nodup)
    (hp : p ∈ closed t)
    (hb : ∀ slot ∈ t, slot.closes = some p → began ≤ slot.time)
    (i : ι) (call : Call) (r : Result × Broker) :
    Timely (receive p ⟨began, s.clock, call, r.1⟩ t)
      (s.complete i began call r) := by
  refine ⟨timed_receive h.timed ?_ hb, ?_, ?_⟩
  · intro slot hslot
    exact Nat.le_of_lt (h.past slot hslot)
  · intro slot' hslot'
    obtain ⟨slot, hslot, rfl⟩ := mem_receive hslot'
    rw [time_receive]
    exact Nat.lt_succ_of_lt (h.past slot hslot)
  · exact (order_receive honce hp).trans (h.perm.cons _)

/-- What the other clients hold. -/
theorem holds_complete {j : ι} {x : Nat × String × Pointer}
    (h : ((s.complete i began call r).client j).holds = some x) :
    (s.client j).holds = some x := by
  have h' : (Function.update s.client i .idle j).holds = some x := h
  by_cases hj : j = i
  · rw [hj, Function.update_self] at h'
    exact absurd h' (by simp [Client.holds])
  · rwa [Function.update_of_ne hj] at h'

theorem held_now (h : Held nameOf t s)
    (hname : ∀ p, p < s.broker.next → nameOf' p = nameOf p)
    (hnext : s.broker.next ≤ r.2.next) (closes : Option Pointer) :
    Held nameOf' (t ++ [s.slot closes began call r.1])
      (s.complete i began call r) := by
  intro j b name p hj
  obtain ⟨hnm, hlt, hb, hclosed⟩ := h j b name p (holds_complete hj)
  refine ⟨(hname p hlt).trans hnm, Nat.lt_of_lt_of_le hlt hnext,
    Nat.lt_succ_of_lt hb, ?_⟩
  intro slot hslot hcl
  rcases List.mem_append.mp hslot with ht | he
  · exact hclosed slot ht hcl
  · rw [List.mem_singleton.mp he]
    exact Nat.le_of_lt hb

theorem held_late (h : Held nameOf t s) (hnext : s.broker.next ≤ r.2.next)
    (p : Pointer) (d : Done Call Result) :
    Held nameOf (receive p d t) (s.complete i began call r) := by
  intro j b name p' hj
  obtain ⟨hnm, hlt, hb, hclosed⟩ := h j b name p' (holds_complete hj)
  refine ⟨hnm, Nat.lt_of_lt_of_le hlt hnext, Nat.lt_succ_of_lt hb, ?_⟩
  intro slot' hslot' hcl
  obtain ⟨slot, hslot, rfl⟩ := mem_receive hslot'
  rw [closes_receive] at hcl
  rw [time_receive]
  exact hclosed slot hslot hcl

/-! ## Operations -/

/-- An operation that takes effect now. -/
theorem explained_now (hs : Sound nameOf t s.broker) (ht : Timely t s)
    (hh : Held nameOf t s) (hb : began ≤ s.clock)
    (hans : Answers (contents s.broker) call r.1 (contents r.2))
    (hqueues : r.2.queues = s.broker.queues) (hnext : r.2.next = s.broker.next)
    (hheap : ∀ p ∈ closed t, r.2.heap p = s.broker.heap p) :
    Explained (s.complete i began call r) :=
  ⟨nameOf, t ++ [s.slot none began call r.1],
    sound_now hs rfl rfl hans hqueues hnext hheap, timely_now ht hb none,
    held_now hh (fun _ _ => rfl) (Nat.le_of_eq hnext.symm) none⟩

/-- An operation that leaves everything as it is. -/
theorem explained_same (h : Explained s) {result : Result}
    (hans : Answers (contents s.broker) call result (contents s.broker)) :
    Explained (s.complete i s.clock call (result, s.broker)) := by
  obtain ⟨nameOf, t, hs, ht, hh⟩ := h
  exact explained_now hs ht hh (Nat.le_refl _) hans rfl rfl fun _ _ => rfl

theorem explained_createQueue (h : Explained s) (name : String) :
    Explained (s.complete i s.clock (.createQueue name)
      (s.broker.createQueue name)) := by
  cases hname : s.broker.queues name with
  | some p =>
      have hold : s.broker.createQueue name
          = (.error .alreadyExist, s.broker) := by
        rw [Broker.createQueue, hname]
      rw [hold]
      exact explained_same h (.present (contents_some hname))
  | none =>
      obtain ⟨nameOf, t, hs, ht, hh⟩ := h
      have hnil : (s.broker.createQueue name).1 = .nil := by
        rw [Broker.createQueue, hname]
      have hnext : (s.broker.createQueue name).2.next = s.broker.next + 1 := by
        rw [Broker.createQueue, hname]
      refine ⟨_, _, sound_create hs hname rfl rfl rfl hnil,
        timely_now ht (Nat.le_refl _) none, held_now hh ?_ ?_ none⟩
      · intro p hp
        exact Function.update_of_ne (Nat.ne_of_lt hp) _ _
      · rw [hnext]
        exact Nat.le_succ _

theorem explained_deleteQueue (h : Explained s) (name : String) :
    Explained (s.complete i s.clock (.deleteQueue name)
      (s.broker.deleteQueue name)) := by
  cases hname : s.broker.queues name with
  | none =>
      have hold : s.broker.deleteQueue name
          = (.error .notExist, s.broker) := by
        rw [Broker.deleteQueue, hname]
      rw [hold]
      exact explained_same h (.missing (by simp) (contents_none hname))
  | some p =>
      obtain ⟨nameOf, t, hs, ht, hh⟩ := h
      have hnil : (s.broker.deleteQueue name).1 = .nil := by
        rw [Broker.deleteQueue, hname]
      have hnext : (s.broker.deleteQueue name).2.next = s.broker.next := by
        rw [Broker.deleteQueue, hname]
      exact ⟨_, _, sound_delete hs hname rfl rfl rfl hnil,
        timely_now ht (Nat.le_refl _) (some p),
        held_now hh (fun _ _ => rfl) (Nat.le_of_eq hnext.symm) (some p)⟩

/-- A queue that a name leads to is written now. -/
theorem explained_write (hs : Sound nameOf t s.broker) (ht : Timely t s)
    (hh : Held nameOf t s) (hb : began ≤ s.clock) {name : String} {p : Pointer}
    (hp : s.broker.queues name = some p) {q : Queue} {result : Result}
    (hans : Answers (contents s.broker) call result
      (Function.update (contents s.broker) name (some q.messages))) :
    Explained (s.complete i began call (result, s.broker.write p q)) := by
  refine explained_now hs ht hh hb ?_ rfl rfl ?_
  · rw [contents_write hp (fun n hn => hs.name_unique hp hn)]
    exact hans
  · intro p' hp'
    refine Function.update_of_ne ?_ _ _
    rintro rfl
    exact (hs.named name p' hp).2.2 hp'

theorem explained_drainQueue (h : Explained s) (name : String) :
    Explained (s.complete i s.clock (.drainQueue name)
      (s.broker.drainQueue name)) := by
  cases hname : s.broker.queues name with
  | none =>
      have hold : s.broker.drainQueue name
          = (.error .notExist, s.broker) := by
        rw [Broker.drainQueue, hname]
      rw [hold]
      exact explained_same h (.missing (by simp) (contents_none hname))
  | some p =>
      have hdrained : s.broker.drainQueue name
          = (.nil, s.broker.write p (s.broker.heap p).drain) := by
        rw [Broker.drainQueue, hname]
      rw [hdrained]
      obtain ⟨nameOf, t, hs, ht, hh⟩ := h
      exact explained_write hs ht hh (Nat.le_refl _) hname
        (.drained (contents_some hname))

/-- A lookup, after which the client holds what it found. -/
theorem explained_lookup (h : Explained s)
    (hcall : ∀ name, call ≠ .createQueue name) {found : Pointer → Client}
    (hfound : ∀ p, (found p).holds = some (s.clock, call.queue, p)) :
    Explained (s.lookup i call found) := by
  cases hname : s.broker.queues call.queue with
  | none =>
      have hmiss : s.lookup i call found
          = s.complete i s.clock call (.error .notExist, s.broker) := by
        rw [State.lookup, Broker.getQueue, hname]
      rw [hmiss]
      exact explained_same h (.missing hcall (contents_none hname))
  | some p =>
      have hfind : s.lookup i call found = { s with
          client := Function.update s.client i (found p)
          clock := s.clock + 1 } := by
        rw [State.lookup, Broker.getQueue, hname]
      rw [hfind]
      obtain ⟨nameOf, t, hs, ht, hh⟩ := h
      refine ⟨nameOf, t, hs, ⟨ht.timed, ?_, ht.perm⟩, ?_⟩
      · intro slot hslot
        exact Nat.lt_succ_of_lt (ht.past slot hslot)
      · intro j b name p' hj
        have hj' : (Function.update s.client i (found p) j).holds
            = some (b, name, p') := hj
        by_cases hji : j = i
        · -- the queue that was found has not been deleted
          rw [hji, Function.update_self, hfound] at hj'
          obtain ⟨rfl, rfl, rfl⟩ := Option.some.inj hj'
          obtain ⟨hnm, hlt, hopen⟩ := hs.named _ p hname
          refine ⟨hnm, hlt, Nat.lt_succ_self _, ?_⟩
          intro slot hslot hcl
          exact absurd (List.mem_filterMap.mpr ⟨slot, hslot, hcl⟩) hopen
        · rw [Function.update_of_ne hji] at hj'
          obtain ⟨hnm, hlt, hb, hclosed⟩ := hh j b name p' hj'
          exact ⟨hnm, hlt, Nat.lt_succ_of_lt hb, hclosed⟩

/-- The second section works on the queue that was looked up, wherever that has
    gone to. -/
theorem explained_use (h : Explained s) {name : String} {p : Pointer}
    (hi : (s.client i).holds = some (began, name, p)) {q : Queue}
    {result : Result}
    (hans : ∀ c : Queues, c name = some (s.broker.heap p).messages →
      Answers c call result (Function.update c name (some q.messages))) :
    Explained (s.complete i began call (result, s.broker.write p q)) := by
  obtain ⟨nameOf, t, hs, ht, hh⟩ := h
  obtain ⟨rfl, hlt, hb, hbefore⟩ := hh i began name p hi
  rcases hs.made p hlt with hopen | hclosed
  · exact explained_write hs ht hh (Nat.le_of_lt hb) hopen
      (hans _ (contents_some hopen))
  · exact ⟨nameOf, _, sound_late hs hclosed hans,
      timely_late ht hs.once hclosed hbefore i call
        (result, s.broker.write p q), held_late hh (Nat.le_refl _) p _⟩

theorem write_heap (b : Broker) (p : Pointer) : b.write p (b.heap p) = b := by
  rw [Broker.write, Function.update_eq_self]

theorem explained_putMessage (h : Explained s) {queue body : String}
    {p : Pointer} (hi : s.client i = .putting began queue body p)
    (read : Except String (Vector UInt8 16)) (now : Nat) :
    Explained (s.complete i began (.putMessage queue body)
      (s.broker.putMessage p (newMessage read now body))) := by
  have hholds : (s.client i).holds = some (began, queue, p) := by
    rw [hi]
    rfl
  cases hm : newMessage read now body with
  | error e =>
      obtain ⟨text, rfl⟩ := error_newMessage hm
      have hsame : s.broker.putMessage p (.error (.rand text))
          = (.error (.rand text), s.broker.write p (s.broker.heap p)) := by
        rw [write_heap]
        rfl
      rw [hsame]
      refine explained_use h hholds ?_
      intro c hc
      rw [← hc, Function.update_eq_self]
      exact .noRandom hc
  | ok m =>
      refine explained_use h hholds ?_
      intro c hc
      exact .put hc (body_newMessage hm)

theorem explained_getMessage (h : Explained s) {queue : String} {p : Pointer}
    (hi : s.client i = .getting began queue p) :
    Explained (s.complete i began (.getMessage queue)
      (s.broker.getMessage p)) := by
  have hholds : (s.client i).holds = some (began, queue, p) := by
    rw [hi]
    rfl
  cases hq : (s.broker.heap p).messages with
  | nil =>
      have hempty : s.broker.getMessage p
          = (.error .emptyQueue, s.broker.write p (s.broker.heap p)) := by
        rw [write_heap, Broker.getMessage, Queue.getMessage, hq]
      rw [hempty]
      refine explained_use h hholds ?_
      intro c hc
      rw [← hc, Function.update_eq_self]
      rw [hq] at hc
      exact .empty hc
  | cons m rest =>
      have hpop : s.broker.getMessage p = (.message m, s.broker.write p
          { s.broker.heap p with
            messages := rest
            depth := (s.broker.heap p).depth - 1
            dequeued := (s.broker.heap p).dequeued + 1 }) := by
        rw [Broker.getMessage, Queue.getMessage, hq]
      rw [hpop]
      refine explained_use h hholds ?_
      intro c hc
      rw [hq] at hc
      exact .got hc

theorem explained_step {s' : State ι} (h : Explained s) (hs : Step s s') :
    Explained s' := by
  cases hs with
  | createQueue i name _ => exact explained_createQueue h name
  | deleteQueue i name _ => exact explained_deleteQueue h name
  | drainQueue i name _ => exact explained_drainQueue h name
  | findPut i queue body _ => exact explained_lookup h (by simp) fun _ => rfl
  | findGet i queue _ => exact explained_lookup h (by simp) fun _ => rfl
  | putMessage i began queue body p read now hi =>
      exact explained_putMessage h hi read now
  | getMessage i began queue p hi => exact explained_getMessage h hi

theorem explained_of_runs (h : Runs (start ι) s) : Explained s := by
  induction h with
  | refl => exact explained_start ι
  | tail _ hs ih => exact explained_step ih hs

/-- **LINEARIZABILITY**.  However the sections of any number of clients follow
    each other, the completed operations can be put into an order that respects
    real time and in which a sequential map from names to FIFO queues gives all
    their results.  In that order the messages of every queue come out in the
    order in which they went in, none of them twice, and between two points at
    which a queue is neither drained nor deleted, what was in it and what was
    put in is what was taken out and what is in it. -/
theorem linearized_of_runs (h : Runs (start ι) s) :
    ∃ ds, LinearizedBy Answers (fun _ => none) s.done ds
      ∧ ∀ name,
        List.Sublist (ds.filterMap (leaving name)) (ds.filterMap (entering name))
        ∧ ∀ before during after, ds = before ++ during ++ after →
          (∀ d ∈ during, ¬ Discards name d) →
          ∃ q q', Legal Answers (fun _ => none) before q
            ∧ Legal Answers q during q'
            ∧ q.messages name ++ during.filterMap (entering name)
              = during.filterMap (leaving name) ++ q'.messages name := by
  obtain ⟨nameOf, t, hs, ht, -⟩ := explained_of_runs h
  have hlegal := legal_order hs.legal
  refine ⟨order t, ⟨ht.perm, realTime_order ht.timed, _, hlegal⟩, ?_⟩
  intro name
  constructor
  · exact leaving_sublist hlegal name
  · intro before during after hsplit hkept
    rw [hsplit] at hlegal
    obtain ⟨q', hleft, -⟩ := legal_split hlegal
    obtain ⟨q, hbefore, hduring⟩ := legal_split hleft
    exact ⟨q, q', hbefore, hduring, messages_of_legal hduring hkept⟩

end Clients

/-! ## A message put into a queue that is gone -/

/-- The first client makes a queue and looks it up, to put a message into it. -/
def lateFound : State Bool :=
  let s := (start Bool).complete false 0 (.createQueue "jobs")
    (newBroker.createQueue "jobs")
  s.lookup false (.putMessage "jobs" "x") (.putting s.clock "jobs" "x")

/-- The second one deletes it and makes one of the same name. -/
def lateMadeAgain : State Bool :=
  let s := lateFound.complete true 2 (.deleteQueue "jobs")
    (lateFound.broker.deleteQueue "jobs")
  s.complete true 3 (.createQueue "jobs") (s.broker.createQueue "jobs")

/-- The first one puts its message, into the queue that is gone, and the second
    one gets none. -/
def latePut : State Bool :=
  let s := lateMadeAgain.complete false 1 (.putMessage "jobs" "x")
    (lateMadeAgain.broker.putMessage 0
      (newMessage (.ok (Vector.replicate 16 7)) 0 "x"))
  let s := s.lookup true (.getMessage "jobs") (.getting s.clock "jobs")
  s.complete true 5 (.getMessage "jobs") (s.broker.getMessage 1)

theorem runs_latePut : Runs (start Bool) latePut := by
  have hfound : Runs (start Bool) lateFound :=
    .tail (.single (.createQueue false "jobs" rfl)) (.findPut false "jobs" "x" rfl)
  have hagain : Runs (start Bool) lateMadeAgain :=
    .tail (.tail hfound (.deleteQueue true "jobs" rfl)) (.createQueue true "jobs" rfl)
  exact .tail (.tail (.tail hagain
    (.putMessage false 1 "jobs" "x" 0 (.ok (Vector.replicate 16 7)) 0 rfl))
    (.findGet true "jobs" rfl)) (.getMessage true 5 "jobs" 1 rfl)

/-- The message that was put late is accounted for: it went with the queue that
    was deleted. -/
theorem linearized_latePut :
    (latePut.done.map fun d => d.result)
        = [.error .emptyQueue, .message ⟨"message",
            "07070707070707070707070707070707", "x", 0⟩, .nil, .nil, .nil]
      ∧ ∃ ds, LinearizedBy Answers (fun _ => none) latePut.done ds := by
  refine ⟨by decide +kernel, ?_⟩
  obtain ⟨ds, hds, -⟩ := linearized_of_runs runs_latePut
  exact ⟨ds, hds⟩

end MemqClients
