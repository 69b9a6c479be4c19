import KubernetesUpRunning.Linearizability
import Mathlib.Logic.Function.Basic

/-! # The MemQ broker

    The broker maps names to pointers to queues.  Its operations are made of
    sections under a lock: `CreateQueue`, `DeleteQueue` and `DrainQueue` of one,
    `PutMessage` and `GetMessage` of two, the lookup under the lock of the
    broker and the use of the queue under its own.  What the broker is for is
    said by `Answers`, a sequential map from names to FIFO queues. -/

namespace MemqBroker

open Linearizability

/-! ## Messages and queues -/

/-- `memq.Message`. -/
structure Message where
  kind : String
  id : String
  body : String
  created : Nat
deriving DecidableEq, Repr

/-- The errors of the broker; the last is that of `rand.Read`. -/
inductive MemqError where
  | emptyQueue
  | notExist
  | alreadyExist
  | rand (text : String)
deriving DecidableEq, Repr

/-- `hex.EncodeToString`. -/
def encodeToString (bytes : List UInt8) : String :=
  String.ofList (bytes.flatMap fun x =>
    [Nat.digitChar (x.toNat / 16), Nat.digitChar (x.toNat % 16)])

/-- A name made of 16 random bytes, if they can be read. -/
def uuid (read : Except String (Vector UInt8 16)) : Except MemqError String :=
  match read with
  | .error text => .error (.rand text)
  | .ok bytes => .ok (encodeToString bytes.toList)

/-- A message, with the random bytes that were read and the time. -/
def newMessage (read : Except String (Vector UInt8 16)) (now : Nat)
    (body : String) : Except MemqError Message :=
  match uuid read with
  | .error e => .error e
  | .ok id => .ok { kind := "message", id, body, created := now }

theorem body_newMessage {read : Except String (Vector UInt8 16)} {now : Nat}
    {body : String} {m : Message} (h : newMessage read now body = .ok m) :
    m.body = body := by
  rw [newMessage] at h
  cases hid : uuid read with
  | error e =>
      rw [hid] at h
      exact absurd h (by simp)
  | ok id =>
      rw [hid] at h
      rw [← Except.ok.inj h]

/-- A message is lacking only for want of random bytes. -/
theorem error_newMessage {read : Except String (Vector UInt8 16)} {now : Nat}
    {body : String} {e : MemqError} (h : newMessage read now body = .error e) :
    ∃ text, e = .rand text := by
  cases read with
  | error text => exact ⟨text, (Except.error.inj h).symm⟩
  | ok bytes => exact absurd h (by simp [newMessage, uuid])

/-- `Queue`, under its lock. -/
structure Queue where
  depth : Int
  enqueued : Int
  dequeued : Int
  drained : Int
  messages : List Message
deriving DecidableEq, Repr

/-- The name is not kept. -/
def newQueue (_ : String) : Queue := ⟨0, 0, 0, 0, []⟩

/-- The section of `DrainQueue` under the lock of the queue. -/
def Queue.drain (q : Queue) : Queue :=
  { q with messages := [], drained := q.drained + q.depth, depth := 0 }

/-- The second section of `PutMessage`. -/
def Queue.putMessage (q : Queue) (m : Message) : Queue :=
  { q with
    messages := q.messages ++ [m]
    depth := q.depth + 1
    enqueued := q.enqueued + 1 }

/-- The second section of `GetMessage`. -/
def Queue.getMessage (q : Queue) : Except MemqError Message × Queue :=
  match q.messages with
  | [] => (.error .emptyQueue, q)
  | m :: rest => (.ok m, { q with
      messages := rest
      depth := q.depth - 1
      dequeued := q.dequeued + 1 })

/-! ## The broker -/

/-- What is in a map after one entry was written: the new value at its key, the
    old ones elsewhere. -/
theorem of_update {κ α : Type} [DecidableEq κ] {f : κ → α} {k k' : κ} {x y : α}
    (h : Function.update f k x k' = y) :
    (k' = k ∧ x = y) ∨ (k' ≠ k ∧ f k' = y) := by
  by_cases hk : k' = k
  · subst hk
    exact Or.inl ⟨rfl, (Function.update_self _ _ _).symm.trans h⟩
  · exact Or.inr ⟨hk, (Function.update_of_ne hk _ _).symm.trans h⟩

/-- `*Queue`. -/
abbrev Pointer := Nat

/-- The map of the broker, the queues that were ever made, and the next
    pointer. -/
structure Broker where
  queues : String → Option Pointer
  heap : Pointer → Queue
  next : Pointer

/-- `NewBroker`. -/
def newBroker : Broker := ⟨fun _ => none, fun _ => newQueue "", 0⟩

/-- What an operation returns: nil, a message, or an error. -/
inductive Result where
  | nil
  | message (m : Message)
  | error (e : MemqError)
deriving DecidableEq, Repr

def Broker.createQueue (b : Broker) (name : String) : Result × Broker :=
  match b.queues name with
  | some _ => (.error .alreadyExist, b)
  | none => (.nil, {
      queues := Function.update b.queues name (some b.next)
      heap := Function.update b.heap b.next (newQueue name)
      next := b.next + 1 })

def Broker.deleteQueue (b : Broker) (name : String) : Result × Broker :=
  match b.queues name with
  | none => (.error .notExist, b)
  | some _ => (.nil, { b with queues := Function.update b.queues name none })

/-- The queue behind a pointer becomes `q`. -/
def Broker.write (b : Broker) (p : Pointer) (q : Queue) : Broker :=
  { b with heap := Function.update b.heap p q }

def Broker.drainQueue (b : Broker) (name : String) : Result × Broker :=
  match b.queues name with
  | none => (.error .notExist, b)
  | some p => (.nil, b.write p (b.heap p).drain)

/-- The first section of `PutMessage` and `GetMessage`. -/
def Broker.getQueue (b : Broker) (name : String) : Except MemqError Pointer :=
  match b.queues name with
  | none => .error .notExist
  | some p => .ok p

/-- `PutMessage` from the message on: the second section, with the queue that
    the first one found. -/
def Broker.putMessage (b : Broker) (p : Pointer)
    (message : Except MemqError Message) : Result × Broker :=
  match message with
  | .error e => (.error e, b)
  | .ok m => (.message m, b.write p ((b.heap p).putMessage m))

/-- The second section of `GetMessage`, with the queue that the first one
    found. -/
def Broker.getMessage (b : Broker) (p : Pointer) : Result × Broker :=
  match (b.heap p).getMessage with
  | (.error e, _) => (.error e, b)
  | (.ok m, q) => (.message m, b.write p q)

/-! ## A sequential map from names to FIFO queues -/

/-- The operations. -/
inductive Call where
  | createQueue (name : String)
  | deleteQueue (name : String)
  | drainQueue (name : String)
  | putMessage (queue body : String)
  | getMessage (queue : String)
deriving DecidableEq, Repr

/-- The messages of every queue that exists, first in first. -/
abbrev Queues := String → Option (List Message)

/-- The queue of the operation. -/
def Call.queue : Call → String
  | .createQueue name => name
  | .deleteQueue name => name
  | .drainQueue name => name
  | .putMessage queue _ => queue
  | .getMessage queue => queue

/-- `Answers q call r q'`: on the queues `q`, one operation at a time, `call`
    returns `r` and leaves `q'`. -/
inductive Answers (q : Queues) : Call → Result → Queues → Prop
  | created {name : String} (h : q name = none) :
      Answers q (.createQueue name) .nil (Function.update q name (some []))
  | present {name : String} {ms : List Message} (h : q name = some ms) :
      Answers q (.createQueue name) (.error .alreadyExist) q
  | deleted {name : String} {ms : List Message} (h : q name = some ms) :
      Answers q (.deleteQueue name) .nil (Function.update q name none)
  | drained {name : String} {ms : List Message} (h : q name = some ms) :
      Answers q (.drainQueue name) .nil (Function.update q name (some []))
  | put {name body : String} {ms : List Message} {m : Message}
      (h : q name = some ms) (hm : m.body = body) :
      Answers q (.putMessage name body) (.message m)
        (Function.update q name (some (ms ++ [m])))
  | noRandom {name body text : String} {ms : List Message}
      (h : q name = some ms) :
      Answers q (.putMessage name body) (.error (.rand text)) q
  | got {name : String} {ms : List Message} {m : Message}
      (h : q name = some (m :: ms)) :
      Answers q (.getMessage name) (.message m)
        (Function.update q name (some ms))
  | empty {name : String} (h : q name = some []) :
      Answers q (.getMessage name) (.error .emptyQueue) q
  | missing {call : Call} (hc : ∀ name, call ≠ .createQueue name)
      (h : q call.queue = none) : Answers q call (.error .notExist) q

/-! ## First in, first out -/

/-- The message that the operation puts into the queue. -/
def entering (name : String) (d : Done Call Result) : Option Message :=
  match d.call, d.result with
  | .putMessage queue _, .message m => if queue = name then some m else none
  | _, _ => none

/-- The message that the operation takes from the queue. -/
def leaving (name : String) (d : Done Call Result) : Option Message :=
  match d.call, d.result with
  | .getMessage queue, .message m => if queue = name then some m else none
  | _, _ => none

/-- The operation drains or deletes the queue. -/
def Discards (name : String) (d : Done Call Result) : Prop :=
  (d.call = .drainQueue name ∨ d.call = .deleteQueue name) ∧ d.result = .nil

/-- The messages in a queue. -/
def Queues.messages (q : Queues) (name : String) : List Message :=
  (q name).getD []

/-- What one operation does to the messages of a queue. -/
theorem messages_of_answers {q q' : Queues} {d : Done Call Result}
    (h : Answers q d.call d.result q') (name : String) :
    (Discards name d ∧ entering name d = none ∧ leaving name d = none
        ∧ q'.messages name = [])
      ∨ (¬ Discards name d ∧ q.messages name ++ (entering name d).toList
          = (leaving name d).toList ++ q'.messages name) := by
  obtain ⟨began, ended, call, result⟩ := d
  dsimp only at h
  unfold entering leaving Discards Queues.messages
  cases h with
  | created h =>
      rename_i n
      refine Or.inr ⟨by simp, ?_⟩
      by_cases hn : name = n
      · subst hn
        simp [h]
      · simp [Function.update_of_ne hn]
  | present h => exact Or.inr ⟨by simp, by simp⟩
  | deleted h =>
      rename_i n _
      by_cases hn : n = name
      · subst hn
        exact Or.inl ⟨by simp, rfl, rfl, by simp⟩
      · refine Or.inr ⟨by simpa using hn, ?_⟩
        simp [Function.update_of_ne (Ne.symm hn)]
  | drained h =>
      rename_i n _
      by_cases hn : n = name
      · subst hn
        exact Or.inl ⟨by simp, rfl, rfl, by simp⟩
      · refine Or.inr ⟨by simpa using hn, ?_⟩
        simp [Function.update_of_ne (Ne.symm hn)]
  | put h hm =>
      rename_i n _ _ _
      refine Or.inr ⟨by simp, ?_⟩
      by_cases hn : n = name
      · subst hn
        simp [h]
      · simp [hn, Function.update_of_ne (Ne.symm hn)]
  | noRandom h => exact Or.inr ⟨by simp, by simp⟩
  | got h =>
      rename_i n _ _
      refine Or.inr ⟨by simp, ?_⟩
      by_cases hn : n = name
      · subst hn
        simp [h]
      · simp [hn, Function.update_of_ne (Ne.symm hn)]
  | empty h => exact Or.inr ⟨by simp, by simp⟩
  | missing hc h =>
      refine Or.inr ⟨by simp, ?_⟩
      cases call <;> simp

/-- As long as a queue is neither drained nor deleted, the messages that were
    in it, followed by those put in, are those taken out, followed by those that
    are in it now. -/
theorem messages_of_legal {q q' : Queues} {ds : List (Done Call Result)}
    {name : String} (h : Legal Answers q ds q')
    (hkept : ∀ d ∈ ds, ¬ Discards name d) :
    q.messages name ++ ds.filterMap (entering name)
      = ds.filterMap (leaving name) ++ q'.messages name := by
  induction h with
  | nil q => simp
  | @cons q₀ q₁ q₂ d ds hd _ ih =>
      have hrest := ih fun d' hd' => hkept d' (List.mem_cons_of_mem _ hd')
      rcases messages_of_answers hd name with ⟨hdis, -⟩ | ⟨-, hone⟩
      · exact absurd hdis (hkept d List.mem_cons_self)
      · calc q₀.messages name ++ (d :: ds).filterMap (entering name)
            = (q₀.messages name ++ (entering name d).toList)
                ++ ds.filterMap (entering name) := by
              rw [List.append_assoc]
              cases he : entering name d <;> simp [he]
          _ = (leaving name d).toList ++ (q₁.messages name
                ++ ds.filterMap (entering name)) := by
              rw [hone, List.append_assoc]
          _ = (d :: ds).filterMap (leaving name) ++ q₂.messages name := by
              rw [hrest, ← List.append_assoc]
              cases he : leaving name d <;> simp [he]

/-- Messages come out in the order in which they went in, none of them
    twice. -/
theorem leaving_sublist {q q' : Queues} {ds : List (Done Call Result)}
    (h : Legal Answers q ds q') (name : String) :
    List.Sublist (ds.filterMap (leaving name))
      (q.messages name ++ ds.filterMap (entering name)) := by
  induction h with
  | nil q => simp
  | @cons q₀ q₁ q₂ d ds hd _ ih =>
      rcases messages_of_answers hd name with ⟨-, he, hl, hq⟩ | ⟨-, hone⟩
      · rw [List.filterMap_cons_none he, List.filterMap_cons_none hl]
        rw [hq, List.nil_append] at ih
        exact ih.trans (List.sublist_append_right _ _)
      · have hleft : (d :: ds).filterMap (leaving name)
            = (leaving name d).toList ++ ds.filterMap (leaving name) := by
          cases he : leaving name d <;> simp [he]
        have hright : q₀.messages name ++ (d :: ds).filterMap (entering name)
            = (leaving name d).toList ++ (q₁.messages name
              ++ ds.filterMap (entering name)) := by
          rw [← List.append_assoc, ← hone, List.append_assoc]
          cases he : entering name d <;> simp [he]
        rw [hleft, hright]
        exact (List.Sublist.refl _).append ih

end MemqBroker
