import KubernetesUpRunning.MemqBroker

/-! # A keygen worker that draws from a queue

    One worker process: `startWork` of the MemQ worker, the `Dequeue` of its
    client, and the handler of the server, which looks the queue up and then
    takes a message from it.  The queue is named by a string that the URL
    carries as it is.  `Life` is the course of one worker, with what happened so
    far; what is proved here holds of one worker whatever the others do. -/

namespace MemqWorker

open MemqBroker

/-- `keygen.Config`. -/
structure Config where
  enable : Bool
  numToGen : Int
  timeToRun : Int
  memQServer : String
  memQQueue : String
  exitOnComplete : Bool
  exitCode : Int
deriving DecidableEq, Repr

/-! ## A Dequeue request -/

/-- The body of a reply. -/
inductive Body where
  | empty
  | text (s : String)
  | json (m : Message)
deriving DecidableEq, Repr

/-- A reply of the server. -/
structure Reply where
  status : Nat
  body : Body
deriving DecidableEq, Repr

/-- The texts of the errors of the broker. -/
def errorText : MemqError → String
  | .emptyQueue => "empty queue"
  | .notExist => "does not exist"
  | .alreadyExist => "already exists"
  | .rand text => text

/-- `Server.Dequeue` without a name. -/
def emptyNameReply : Reply := ⟨400, .text "empty name"⟩

/-- `Server.Dequeue` after `GetMessage`. -/
def dequeueReply : Except MemqError Message → Reply
  | .error .emptyQueue => ⟨204, .empty⟩
  | .error e => ⟨400, .text (errorText e)⟩
  | .ok m => ⟨200, .json m⟩

/-- The errors of the client: the request failed, the server reported an
    error, or the body is no message. -/
inductive ClientError where
  | request (text : String)
  | http (status : Nat)
  | decode
deriving DecidableEq, Repr

/-- `Client.Dequeue` after the request. -/
def clientDequeue (r : Reply) : Except ClientError (Option Message) :=
  if 300 ≤ r.status then .error (.http r.status)
  else if r.status = 204 then .ok none
  else
    match r.body with
    | .json m => .ok (some m)
    | _ => .error .decode

/-- **THE TWO ENDS AGREE**: a message comes through, an empty queue comes out as
    nothing without an error, and every other error as one. -/
theorem clientDequeue_dequeueReply (x : Except MemqError Message) :
    clientDequeue (dequeueReply x) = match x with
      | .ok m => .ok (some m)
      | .error .emptyQueue => .ok none
      | .error _ => .error (.http 400) := by
  cases x with
  | ok m => rfl
  | error e => cases e <;> rfl

theorem clientDequeue_emptyNameReply :
    clientDequeue emptyNameReply = .error (.http 400) := rfl

/-! ## The worker -/

/-- What the worker does next. -/
inductive Next where
  | retry
  | exit (code : Int)
  | itemDone
deriving DecidableEq, Repr

/-- The body of the loop of `startWork`, after `Dequeue`. -/
def afterDequeue (c : Config) : Except ClientError (Option Message) → Next
  | .error _ => .retry
  | .ok none => if c.exitOnComplete then .exit c.exitCode else .retry
  | .ok (some _) => .itemDone

/-- Where the worker is: at the head of the loop, in `Dequeue` (before its
    request gets to the server, in `GetMessage` with the queue found, with the
    reply on its way), back from it, asleep, or gone. -/
inductive Phase where
  | ready
  | calling
  | serving (p : Pointer)
  | answered (r : Reply)
  | returned (x : Except ClientError (Option Message))
  | sleeping
  | exited (code : Int)

/-- What happens to a worker: it calls `Dequeue`, the server takes a message
    out for it, `Dequeue` returns a message, nothing or an error, `itemDone` is
    called, the process exits. -/
inductive Event where
  | call
  | took (m : Message)
  | got (m : Message)
  | empty
  | failed
  | itemDone
  | exit
deriving DecidableEq, Repr

/-- The return of `Dequeue`. -/
def returnEvent : Except ClientError (Option Message) → Event
  | .ok (some m) => .got m
  | .ok none => .empty
  | .error _ => .failed

/-- The message that the server takes out. -/
def tookEvent : Except MemqError Message → List Event
  | .ok m => [.took m]
  | .error _ => []

/-- One step of a worker that nobody cancels, on the broker. -/
inductive Local (c : Config) (b : Broker) :
    Phase → List Event → Phase → Broker → Prop
  -- `isDone` finds the context open
  | call : Local c b .ready [.call] .calling b
  -- the request fails before the server has seen it
  | unsent (text : String) :
      Local c b .calling [.failed] (.returned (.error (.request text))) b
  -- the handler, up to the lookup of the queue in `GetMessage`
  | unnamed (h : c.memQQueue = "") :
      Local c b .calling [] (.answered emptyNameReply) b
  | missing {e : MemqError} (h : c.memQQueue ≠ "")
      (he : b.getQueue c.memQQueue = .error e) :
      Local c b .calling [] (.answered (dequeueReply (.error e))) b
  | found {p : Pointer} (h : c.memQQueue ≠ "")
      (hp : b.getQueue c.memQQueue = .ok p) :
      Local c b .calling [] (.serving p) b
  -- the second section of `GetMessage`, wherever the queue has gone to
  | getMessage (p : Pointer) :
      Local c b (.serving p) (tookEvent (b.heap p).getMessage.1)
        (.answered (dequeueReply (b.heap p).getMessage.1)) (b.getMessage p).2
  | returned (r : Reply) :
      Local c b (.answered r) [returnEvent (clientDequeue r)]
        (.returned (clientDequeue r)) b
  -- the three ends of the body of the loop
  | retry {x : Except ClientError (Option Message)}
      (h : afterDequeue c x = .retry) :
      Local c b (.returned x) [] .sleeping b
  | exit {x : Except ClientError (Option Message)} {code : Int}
      (h : afterDequeue c x = .exit code) :
      Local c b (.returned x) [.exit] (.exited code) b
  | itemDone {x : Except ClientError (Option Message)}
      (h : afterDequeue c x = .itemDone) :
      Local c b (.returned x) [.itemDone] .ready b
  | wake : Local c b .sleeping [] .ready b

/-- The course of a worker: what has happened to it, and where it is. -/
inductive Life (c : Config) : List Event → Phase → Prop
  | start : Life c [] .ready
  | step {es es' : List Event} {ph ph' : Phase} {b b' : Broker}
      (h : Life c es ph) (hs : Local c b ph es' ph' b') :
      Life c (es ++ es') ph'

/-! ## Messages on their way -/

/-- The messages that the server took out. -/
def Event.took? : Event → Option Message
  | .took m => some m
  | _ => none

/-- The messages that `Dequeue` returned. -/
def Event.got? : Event → Option Message
  | .got m => some m
  | _ => none

/-- The message that `Dequeue` returns for this outcome. -/
def carried : Except ClientError (Option Message) → List Message
  | .ok (some m) => [m]
  | _ => []

/-- The message in a reply on its way. -/
def Phase.inflight : Phase → List Message
  | .answered r => carried (clientDequeue r)
  | _ => []

/-- The message that waits for its `itemDone`. -/
def Phase.pending : Phase → List Message
  | .returned x => carried x
  | _ => []

theorem took_tookEvent (x : Except MemqError Message) :
    (tookEvent x).filterMap Event.took?
      = carried (clientDequeue (dequeueReply x)) := by
  rw [clientDequeue_dequeueReply]
  cases x with
  | ok m => rfl
  | error e => cases e <;> rfl

theorem carried_of_next {c : Config} {x : Except ClientError (Option Message)}
    {n : Next} (h : afterDequeue c x = n) :
    (n = .itemDone ∧ ∃ m, x = .ok (some m))
      ∨ (n ≠ .itemDone ∧ carried x = []) := by
  subst h
  rcases x with e | _ | m
  · exact Or.inr ⟨by simp [afterDequeue], rfl⟩
  · refine Or.inr ⟨?_, rfl⟩
    rw [afterDequeue]
    split <;> simp
  · exact Or.inl ⟨rfl, m, rfl⟩

/-- The worker exits on an empty queue only, and if it is told to. -/
theorem exit_of_next {c : Config} {code : Int}
    {x : Except ClientError (Option Message)}
    (h : afterDequeue c x = .exit code) :
    c.exitOnComplete = true ∧ x = .ok none := by
  rcases x with e | _ | m
  · exact absurd h (by simp [afterDequeue])
  · refine ⟨?_, rfl⟩
    by_contra hx
    exact absurd h (by simp [afterDequeue, hx])
  · exact absurd h (by simp [afterDequeue])

theorem carried_dequeueReply_error (e : MemqError) :
    carried (clientDequeue (dequeueReply (.error e))) = [] := by
  cases e <;> rfl

/-- One step: what was on its way and what is taken out is what is returned and
    what is on its way then. -/
theorem tooks_of_local {c : Config} {b b' : Broker} {es : List Event}
    {ph ph' : Phase} (h : Local c b ph es ph' b') :
    ph.inflight ++ es.filterMap Event.took?
      = es.filterMap Event.got? ++ ph'.inflight := by
  cases h with
  | call => rfl
  | unsent text => rfl
  | unnamed h => rfl
  | missing h he => exact (carried_dequeueReply_error _).symm
  | found h hp => rfl
  | getMessage p =>
      show [] ++ (tookEvent (b.heap p).getMessage.1).filterMap Event.took?
        = (tookEvent (b.heap p).getMessage.1).filterMap Event.got?
          ++ carried (clientDequeue (dequeueReply (b.heap p).getMessage.1))
      rw [took_tookEvent]
      cases (b.heap p).getMessage.1 <;> rfl
  | returned r =>
      show carried (clientDequeue r) ++ _ = _
      rcases clientDequeue r with e | _ | m <;> rfl
  | retry h => rfl
  | exit h => rfl
  | itemDone h => rfl
  | wake => rfl

/-- **NO MESSAGE IS LOST** on the way: what was taken out for the worker is what
    `Dequeue` returned to it, and then what is on its way. -/
theorem tooks_of_life {c : Config} {es : List Event} {ph : Phase}
    (h : Life c es ph) :
    es.filterMap Event.took? = es.filterMap Event.got? ++ ph.inflight := by
  induction h with
  | start => rfl
  | @step es es' ph ph' b b' _ hs ih =>
      calc (es ++ es').filterMap Event.took?
          = es.filterMap Event.got?
              ++ (ph.inflight ++ es'.filterMap Event.took?) := by
            rw [List.filterMap_append, ih, List.append_assoc]
        _ = (es ++ es').filterMap Event.got? ++ ph'.inflight := by
            rw [tooks_of_local hs, List.filterMap_append, List.append_assoc]

/-! ## Items -/

/-- One step: each message that is returned waits for one `itemDone`. -/
theorem items_of_local {c : Config} {b b' : Broker} {es : List Event}
    {ph ph' : Phase} (h : Local c b ph es ph' b') :
    ph.pending.length + (es.filterMap Event.got?).length
      = es.count .itemDone + ph'.pending.length := by
  cases h with
  | call => rfl
  | unsent text => rfl
  | unnamed h => rfl
  | missing h he => rfl
  | found h hp => rfl
  | getMessage p => cases (b.heap p).getMessage.1 <;> rfl
  | returned r =>
      show 0 + _ = _ + (carried (clientDequeue r)).length
      rcases clientDequeue r with e | _ | m <;> rfl
  | retry h =>
      rcases carried_of_next h with ⟨hn, -⟩ | ⟨-, hnone⟩
      · exact absurd hn (by simp)
      · show (carried _).length + 0 = 0
        rw [hnone]
        rfl
  | exit h =>
      rcases carried_of_next h with ⟨hn, -⟩ | ⟨-, hnone⟩
      · exact absurd hn (by simp)
      · show (carried _).length + 0 = 0
        rw [hnone]
        rfl
  | itemDone h =>
      rcases carried_of_next h with ⟨-, m, rfl⟩ | ⟨hn, -⟩
      · rfl
      · exact absurd rfl hn
  | wake => rfl

/-- **ITEMS**: the calls of `itemDone` are as many as the messages returned, but
    for one that waits. -/
theorem items_of_life {c : Config} {es : List Event} {ph : Phase}
    (h : Life c es ph) :
    (es.filterMap Event.got?).length
      = es.count .itemDone + ph.pending.length := by
  induction h with
  | start => rfl
  | step _ hs ih =>
      have hone := items_of_local hs
      rw [List.filterMap_append, List.length_append, List.count_append]
      omega

/-- The events between a return of `Dequeue` and the next call or the exit. -/
def inside : Event → Bool
  | .call => false
  | .exit => false
  | _ => true

/-- What has happened since `Dequeue` returned a message. -/
inductive Since : List Event → Phase → Prop
  | waiting (m : Message) : Since [] (.returned (.ok (some m)))
  | item : Since [.itemDone] .ready
  | past (e : Event) (rest : List Event) (ph : Phase)
      (he : inside e = false) : Since (.itemDone :: e :: rest) ph

theorem since_local {c : Config} {b b' : Broker} {post es : List Event}
    {ph ph' : Phase} (h : Since post ph) (hs : Local c b ph es ph' b') :
    Since (post ++ es) ph' := by
  cases h with
  | waiting m =>
      -- with a message in hand there is one way on
      cases hs with
      | retry h =>
          rcases carried_of_next h with ⟨hn, -⟩ | ⟨-, hnone⟩
          · exact absurd hn (by simp)
          · exact absurd hnone (by simp [carried])
      | exit h =>
          rcases carried_of_next h with ⟨hn, -⟩ | ⟨-, hnone⟩
          · exact absurd hn (by simp)
          · exact absurd hnone (by simp [carried])
      | itemDone h => exact .item
  | item =>
      cases hs with
      | call => exact .past .call [] .calling rfl
  | past e rest ph he => exact .past e (rest ++ es) ph' he

/-- A message is returned alone, and then waits. -/
theorem got_of_local {c : Config} {b b' : Broker} {es : List Event}
    {ph ph' : Phase} (h : Local c b ph es ph' b') {m : Message}
    (hm : .got m ∈ es) :
    es = [.got m] ∧ ph' = .returned (.ok (some m)) := by
  cases h with
  | call => exact absurd hm (by simp)
  | unsent text => exact absurd hm (by simp)
  | unnamed h => exact absurd hm List.not_mem_nil
  | missing h he => exact absurd hm List.not_mem_nil
  | found h hp => exact absurd hm List.not_mem_nil
  | getMessage p =>
      revert hm
      cases (b.heap p).getMessage.1 <;> simp [tookEvent]
  | returned r =>
      have hr : returnEvent (clientDequeue r) = .got m :=
        (List.mem_singleton.mp hm).symm
      rcases hx : clientDequeue r with e | _ | m'
      · rw [hx] at hr
        exact absurd hr (by simp [returnEvent])
      · rw [hx] at hr
        exact absurd hr (by simp [returnEvent])
      · rw [hx] at hr
        obtain rfl := Event.got.inj hr
        exact ⟨rfl, rfl⟩
  | retry h => exact absurd hm List.not_mem_nil
  | exit h => exact absurd hm (by simp)
  | itemDone h => exact absurd hm (by simp)
  | wake => exact absurd hm List.not_mem_nil

/-- **EACH MESSAGE ONCE**: every message that `Dequeue` returns is followed by
    one `itemDone`, and then by a call or the exit. -/
theorem since_of_life {c : Config} {es : List Event} {ph : Phase}
    (h : Life c es ph) {pre post : List Event} {m : Message}
    (he : es = pre ++ .got m :: post) : Since post ph := by
  induction h generalizing post with
  | start => exact absurd he (by simp)
  | @step es es' ph ph' b b' _ hs ih =>
      -- the message is returned in this step, and nothing else happens in it
      have hnow : ∀ l, es' = l ++ .got m :: post → Since post ph' := by
        intro l hl
        obtain ⟨hone, rfl⟩ := got_of_local hs (m := m) (by rw [hl]; simp)
        have hlen : (l ++ .got m :: post).length = 1 := by rw [← hl, hone]; rfl
        rw [List.length_append, List.length_cons] at hlen
        obtain rfl : post = [] := List.length_eq_zero_iff.mp (by omega)
        exact .waiting m
      -- or in one before: then the induction says what has happened since
      rcases List.append_eq_append_iff.mp he with ⟨l, -, hl⟩ | ⟨l, hl, hrest⟩
      · exact hnow l hl
      · cases l with
        | nil => exact hnow [] hrest.symm
        | cons e l =>
            obtain ⟨rfl, rfl⟩ := List.cons.inj hrest
            exact since_local (ih hl) hs

theorem Since.takeWhile_inside {post : List Event} {ph : Phase}
    (h : Since post ph) :
    post = [] ∨ post.takeWhile inside = [.itemDone] := by
  cases h with
  | waiting m => exact Or.inl rfl
  | item => exact Or.inr rfl
  | past e rest ph he =>
      refine Or.inr ?_
      rw [List.takeWhile_cons_of_pos rfl,
        List.takeWhile_cons_of_neg (by simp [he])]

end MemqWorker
