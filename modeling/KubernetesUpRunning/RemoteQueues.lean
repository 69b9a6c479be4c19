import KubernetesUpRunning.MemqClients
import KubernetesUpRunning.MessageBody

/-! # The queues, as their clients see them

    A call of `kuard/pkg/memq/client` is a request that may never arrive, a
    handler that works on the broker among others, and an answer that may never
    come back.  A handler goes on when its client has given up.  With names
    that both ends agree on, the server is still one map from names to FIFO
    queues: the answered calls, and those that took effect without an answer,
    can be put into an order that respects real time and in which that map
    gives every answer.  The broker gives the order (`MemqClients`), and the
    calls go on around its operations. -/

namespace RemoteQueues

open AsciiText JsonText Linearizability MemqBroker MessageBody QueueNames
open UrlText
open MemqClients (State)
open MemqWorker (ClientError Reply emptyNameReply)

/-! ## The map, in the words of the client -/

/-- A name that client and server agree on. -/
def Agreed (queue : Bytes) : Prop :=
  Plain queue ∧ ∀ c ∈ queue, isControl c = false

/-- A call of a client. -/
structure ClientCall where
  op : Op
  queue : Bytes

/-- What a call returns. -/
abbrev Returned := Except ClientError (Option Message)

/-- The operation of the broker that a handler calls. -/
def brokerCall (h : Handler) (qName body : Bytes) : Call :=
  match h with
  | .createQueue => .createQueue (goString qName)
  | .deleteQueue => .deleteQueue (goString qName)
  | .drainQueue => .drainQueue (goString qName)
  | .dequeue => .getMessage (goString qName)
  | .enqueue => .putMessage (goString qName) (goString body)

/-- The operation that a call stands for. -/
def ClientCall.operation (c : ClientCall) : Call :=
  brokerCall c.op.handler c.queue c.op.body

/-- A result, as the client returns it: a message with its strings coerced to
    UTF-8, nothing from an empty queue, and otherwise the status. -/
def seen : Result → Returned
  | .nil => .ok none
  | .message m => .ok (some (coerced m))
  | .error .emptyQueue => .ok none
  | .error _ => .error (.http 400)

/-- `Remote q c x q'`: on the queues `q`, one call at a time, `c` leaves `q'`
    and returns `x`, or it takes effect without an answer. -/
inductive Remote (q : Queues) :
    ClientCall → Option Returned → Queues → Prop
  | answered {c : ClientCall} {r : Result} {q' : Queues}
      (h : Answers q c.operation r q') : Remote q c (some (seen r)) q'
  | unanswered {c : ClientCall} {r : Result} {q' : Queues}
      (h : Answers q c.operation r q') : Remote q c none q'

/-! ## The handlers -/

/-- The reply of a handler to what the broker has returned. -/
def replyTo (h : Handler) (r : Result) : Reply :=
  match h, r with
  | .dequeue, .error .emptyQueue => ⟨204, .empty⟩
  | _, r => replyOf r

/-- An operation of the broker with nobody in between. -/
def alone (t : Moment) (b : Broker) : Call → Result × Broker
  | .createQueue name => b.createQueue name
  | .deleteQueue name => b.deleteQueue name
  | .drainQueue name => b.drainQueue name
  | .putMessage queue body =>
      match b.getQueue queue with
      | .error e => (.error e, b)
      | .ok p => b.putMessage p (newMessage t.read t.now body)
  | .getMessage queue =>
      match b.getQueue queue with
      | .error e => (.error e, b)
      | .ok p => b.getMessage p

theorem getQueue_error {b : Broker} {name : String} {e : MemqError}
    (h : b.getQueue name = .error e) : e = .notExist := by
  rw [Broker.getQueue] at h
  split at h
  · exact (Except.error.inj h).symm
  · exact absurd h (by simp)

/-- **A HANDLER ALONE** is its operation of the broker and the reply to it. -/
theorem serve_eq (h : Handler) (t : Moment) (b : Broker) {qName : Bytes}
    (body : Bytes) (hq : qName ≠ []) :
    h.serve t b qName body
      = (replyTo h (alone t b (brokerCall h qName body)).1,
        (alone t b (brokerCall h qName body)).2) := by
  cases h with
  | createQueue => exact if_neg hq
  | deleteQueue => exact if_neg hq
  | drainQueue => exact if_neg hq
  | enqueue =>
      refine (if_neg hq).trans ?_
      rw [brokerCall, alone]
      cases b.getQueue (goString qName) with
      | error e => rfl
      | ok p => rfl
  | dequeue =>
      refine (if_neg hq).trans ?_
      rw [brokerCall, alone]
      cases hg : b.getQueue (goString qName) with
      | error e =>
          obtain rfl := getQueue_error hg
          rfl
      | ok p =>
          cases hm : (b.heap p).messages with
          | nil => simp [Broker.getMessage, Queue.getMessage, hm, replyTo]
          | cons m rest =>
              simp [Broker.getMessage, Queue.getMessage, hm, replyTo]

/-- What a client returns after a reply. -/
def returned (k : TimeText) (op : Op) (r : Reply) : Returned :=
  match op.returned r with
  | .ok (some m) =>
      match decode k (serveJSON k m) with
      | some m => .ok (some m)
      | none => .error .decode
  | x => x

/-- A message comes back through JSON. -/
theorem returned_message (k : TimeText) {op : Op} (m : Message)
    (h : (∃ data, op = .enqueue data) ∨ op = .dequeue) :
    returned k op (replyTo op.handler (.message m)) = seen (.message m) := by
  have hback : op.returned (replyTo op.handler (.message m)) = .ok (some m) := by
    rcases h with ⟨data, rfl⟩ | rfl
    · rfl
    · rfl
  rw [returned, hback]
  dsimp only
  rw [decode_serveJSON]
  rfl

/-- **WHAT COMES BACK** of an operation is its result as the client sees it. -/
theorem returned_replyTo (k : TimeText) {c : ClientCall} {r : Result}
    {q q' : Queues} (h : Answers q c.operation r q') :
    returned k c.op (replyTo c.op.handler r) = seen r := by
  obtain ⟨op, queue⟩ := c
  cases op with
  | createQueue =>
      have hop : Answers q (.createQueue (goString queue)) r q' := h
      cases hop <;> rfl
  | deleteQueue =>
      have hop : Answers q (.deleteQueue (goString queue)) r q' := h
      cases hop <;> rfl
  | drainQueue =>
      have hop : Answers q (.drainQueue (goString queue)) r q' := h
      cases hop <;> rfl
  | enqueue data =>
      have hop : Answers q (.putMessage (goString queue) (goString data)) r q'
        := h
      cases hop with
      | put hq hm => rw [returned_message]; exact Or.inl ⟨data, rfl⟩
      | noRandom hq => rfl
      | missing hc hq => rfl
  | dequeue =>
      have hop : Answers q (.getMessage (goString queue)) r q' := h
      cases hop with
      | got hq => rw [returned_message]; exact Or.inr rfl
      | empty hq => rfl
      | missing hc hq => rfl

/-! ## Requests under way -/

/-- How far a request has come: sent, worked on by a handler, replied to, or
    answered. -/
inductive Phase where
  | sent
  | serving (h : Handler)
  | replied (r : Reply)
  | answered

/-- A request, with the number of sections there had been when it was sent. -/
structure Request where
  began : Nat
  call : ClientCall
  phase : Phase

/-- The server, where handler `n` works on request `n`, the requests, and the
    calls that have returned, latest first. -/
structure Net where
  server : State Nat
  request : Nat → Option Request
  next : Nat
  returned : List (Done ClientCall Returned)

def start : Net := ⟨MemqClients.start Nat, fun _ => none, 0, []⟩

/-- A client makes a call. -/
def Net.send (s : Net) (c : ClientCall) : Net :=
  { s with
    request := Function.update s.request s.next
      (some ⟨s.server.clock, c, .sent⟩)
    next := s.next + 1 }

/-- The request has come further. -/
def Net.become (s : Net) (n : Nat) (x : Request) (p : Phase) : Net :=
  { s with request := Function.update s.request n (some { x with phase := p }) }

/-- How far a handler has come: it has replied when its operation of the broker
    is over. -/
def phaseOf (h : Handler) (u : State Nat) (n : Nat) : Phase :=
  match u.client n, u.done with
  | .idle, d :: _ => .replied (replyTo h d.result)
  | _, _ => .serving h

/-- The handler has gone through a section. -/
def Net.handled (s : Net) (n : Nat) (x : Request) (h : Handler)
    (u : State Nat) : Net :=
  { s.become n x (phaseOf h u n) with server := u }

/-- The first section of an operation. -/
def enter (u : State Nat) (n : Nat) : Call → State Nat
  | .createQueue name =>
      u.complete n u.clock (.createQueue name) (u.broker.createQueue name)
  | .deleteQueue name =>
      u.complete n u.clock (.deleteQueue name) (u.broker.deleteQueue name)
  | .drainQueue name =>
      u.complete n u.clock (.drainQueue name) (u.broker.drainQueue name)
  | .putMessage queue body =>
      u.lookup n (.putMessage queue body) (.putting u.clock queue body)
  | .getMessage queue => u.lookup n (.getMessage queue) (.getting u.clock queue)

/-- The request arrives: at its handler, or somewhere else. -/
def Net.arrive (site : Site) (s : Net) (n : Nat) (x : Request) : Net :=
  match site.land (site.client.request x.call.queue x.call.op) with
  | none => s
  | some (.answered r) => s.become n x (.replied r)
  | some (.handler h qName) =>
      if qName = [] then s.become n x (.replied emptyNameReply)
      else s.handled n x h (enter s.server n (brokerCall h qName
        (site.client.request x.call.queue x.call.op).body))

/-- The reply arrives, and the call returns.  It has ended with the last
    section before. -/
def Net.answer (k : TimeText) (s : Net) (n : Nat) (x : Request) (r : Reply) :
    Net :=
  { s.become n x .answered with
    returned := ⟨x.began, s.server.clock - 1, x.call,
      RemoteQueues.returned k x.call.op r⟩ :: s.returned }

/-- One step: a call is made, a request arrives, a handler goes through its
    second section, or a reply arrives.  What is lost takes no further step. -/
inductive Step (site : Site) (k : TimeText) (s : Net) : Net → Prop
  | send (c : ClientCall) (h : Agreed c.queue) : Step site k s (s.send c)
  | arrive (n : Nat) (x : Request) (hx : s.request n = some x)
      (hp : x.phase = .sent) : Step site k s (s.arrive site n x)
  | put (n : Nat) (x : Request) (h : Handler) (began : Nat)
      (queue body : String) (p : Pointer)
      (read : Except String (Vector UInt8 16)) (now : Nat)
      (hx : s.request n = some x) (hp : x.phase = .serving h)
      (hc : s.server.client n = .putting began queue body p) :
      Step site k s (s.handled n x h (s.server.complete n began
        (.putMessage queue body)
        (s.server.broker.putMessage p (newMessage read now body))))
  | get (n : Nat) (x : Request) (h : Handler) (began : Nat) (queue : String)
      (p : Pointer) (hx : s.request n = some x) (hp : x.phase = .serving h)
      (hc : s.server.client n = .getting began queue p) :
      Step site k s (s.handled n x h (s.server.complete n began
        (.getMessage queue) (s.server.broker.getMessage p)))
  | answer (n : Nat) (x : Request) (r : Reply) (hx : s.request n = some x)
      (hp : x.phase = .replied r) : Step site k s (s.answer k n x r)

/-- Runs of the clients and the server. -/
abbrev Runs (site : Site) (k : TimeText) : Net → Net → Prop :=
  Relation.ReflTransGen (Step site k)

/-! ## What a request waits for -/

/-- The handler has looked the queue up, after the request was sent. -/
def Past (c : MemqClients.Client) (x : Request) : Prop :=
  match c with
  | .idle => False
  | .putting began queue body _ =>
      x.call.operation = .putMessage queue body ∧ x.began ≤ began
  | .getting began queue _ =>
      x.call.operation = .getMessage queue ∧ x.began ≤ began

/-- Where the handler of a request is. -/
def AtWork (c : MemqClients.Client) (x : Request) : Prop :=
  match x.phase with
  | .serving h => h = x.call.op.handler ∧ Past c x
  | _ => c = .idle

/-- `d` is the operation of the broker that was made for the request, and the
    reply to it is on its way. -/
structure Waits (u : State Nat) (x : Request) (d : Done Call Result) :
    Prop where
  phase : x.phase = .replied (replyTo x.call.op.handler d.result)
  call : d.call = x.call.operation
  began : x.began ≤ d.began
  ended : d.ended < u.clock

/-- What holds of a request. -/
structure Sound (u : State Nat) (waiting : List (Nat × Done Call Result))
    (n : Nat) (x : Request) : Prop where
  agreed : Agreed x.call.queue
  began : x.began ≤ u.clock
  handler : AtWork (u.client n) x
  waiting : ∀ r, x.phase = .replied r → ∃ d, (n, d) ∈ waiting

/-- The answer is known. -/
def known (d : Done ClientCall Returned) : Done ClientCall (Option Returned) :=
  ⟨d.began, d.ended, d.call, some d.result⟩

/-- The operations of the broker are those of the calls that have returned and
    of the requests that were replied to. -/
structure Tracks (s : Net)
    (answered : List (Done Call Result × Done ClientCall Returned))
    (waiting : List (Nat × Done Call Result)) : Prop where
  runs : MemqClients.Runs (MemqClients.start Nat) s.server
  done : s.server.done.Perm (answered.map Prod.fst ++ waiting.map Prod.snd)
  returned : s.returned = answered.map Prod.snd
  around : ∀ p ∈ answered, Around Answers Remote p.1 (known p.2)
  request : ∀ n x, s.request n = some x → Sound s.server waiting n x
  unasked : ∀ n, s.request n = none → s.server.client n = .idle
  fresh : ∀ n, s.next ≤ n → s.request n = none
  waits : ∀ e ∈ waiting, ∃ x, s.request e.1 = some x ∧ Waits s.server x e.2
  once : (waiting.map Prod.fst).Nodup

theorem tracks_start : Tracks start [] [] :=
  ⟨.refl, .refl _, rfl, by simp, by simp [start], fun _ _ => rfl,
    fun _ _ => rfl, by simp, List.nodup_nil⟩

/-- A request that others do not touch. -/
theorem Sound.mono {u u' : State Nat}
    {waiting waiting' : List (Nat × Done Call Result)} {n : Nat} {x : Request}
    (h : Sound u waiting n x) (hclient : u'.client n = u.client n)
    (hclock : u.clock ≤ u'.clock)
    (hw : ∀ d, (n, d) ∈ waiting → (n, d) ∈ waiting') :
    Sound u' waiting' n x := by
  refine ⟨h.agreed, h.began.trans hclock, ?_, fun r hr => ?_⟩
  · rw [hclient]
    exact h.handler
  · obtain ⟨d, hd⟩ := h.waiting r hr
    exact ⟨d, hw d hd⟩

/-! ## Sections -/

/-- Handler `n` has gone through a section of the operation that request `x`
    asks for: it is over, or the queue was looked up. -/
structure Section (u u' : State Nat) (n : Nat) (x : Request) : Prop where
  step : MemqClients.Step u u'
  others : ∀ m, m ≠ n → u'.client m = u.client m
  clock : u.clock ≤ u'.clock
  own : (∃ d, u'.done = d :: u.done ∧ u'.client n = .idle
      ∧ d.call = x.call.operation ∧ x.began ≤ d.began ∧ d.ended < u'.clock)
    ∨ (u'.done = u.done ∧ Past (u'.client n) x)

theorem section_complete {u : State Nat} {n : Nat} {x : Request}
    {began : Nat} {call : Call} {r : Result × Broker}
    (hstep : MemqClients.Step u (u.complete n began call r))
    (hcall : call = x.call.operation) (hbegan : x.began ≤ began) :
    Section u (u.complete n began call r) n x :=
  ⟨hstep, fun _ hm => Function.update_of_ne hm _ _, Nat.le_succ _,
    Or.inl ⟨_, rfl, Function.update_self _ _ _, hcall, hbegan,
      Nat.lt_succ_self _⟩⟩

/-- The lookup. -/
theorem section_lookup {u : State Nat} {n : Nat} {x : Request} {call : Call}
    {found : Pointer → MemqClients.Client}
    (hstep : MemqClients.Step u (u.lookup n call found))
    (hcall : call = x.call.operation) (hbegan : x.began ≤ u.clock)
    (hfound : ∀ p, Past (found p) x) :
    Section u (u.lookup n call found) n x := by
  rw [MemqClients.State.lookup] at hstep ⊢
  cases hg : u.broker.getQueue call.queue with
  | error e =>
      rw [hg] at hstep
      exact section_complete hstep hcall hbegan
  | ok p =>
      rw [hg] at hstep
      refine ⟨hstep, fun _ hm => Function.update_of_ne hm _ _, Nat.le_succ _,
        Or.inr ⟨rfl, ?_⟩⟩
      show Past (Function.update u.client n (found p) n) x
      rw [Function.update_self]
      exact hfound p

/-- The first section of a handler. -/
theorem section_enter {u : State Nat} {n : Nat} {x : Request}
    (hidle : u.client n = .idle) (hbegan : x.began ≤ u.clock) :
    Section u (enter u n x.call.operation) n x := by
  cases hop : x.call.operation with
  | createQueue name =>
      exact section_complete (.createQueue n name hidle) hop.symm hbegan
  | deleteQueue name =>
      exact section_complete (.deleteQueue n name hidle) hop.symm hbegan
  | drainQueue name =>
      exact section_complete (.drainQueue n name hidle) hop.symm hbegan
  | putMessage queue body =>
      exact section_lookup (.findPut n queue body hidle) hop.symm hbegan
        fun _ => ⟨hop, hbegan⟩
  | getMessage queue =>
      exact section_lookup (.findGet n queue hidle) hop.symm hbegan
        fun _ => ⟨hop, hbegan⟩

/-! ## One step -/

section Steps

variable {site : Site} {k : TimeText} {s : Net}
  {answered : List (Done Call Result × Done ClientCall Returned)}
  {waiting : List (Nat × Done Call Result)}

/-- Who waits has been replied to. -/
theorem Tracks.notMem (h : Tracks s answered waiting) {n : Nat} {x : Request}
    (hx : s.request n = some x) (hp : ∀ r, x.phase ≠ .replied r) :
    n ∉ waiting.map Prod.fst := by
  intro hn
  obtain ⟨e, he, rfl⟩ := List.mem_map.mp hn
  obtain ⟨y, hy, hwaits⟩ := h.waits e he
  obtain rfl := Option.some.inj (hx.symm.trans hy)
  exact hp _ hwaits.phase

theorem tracks_send (h : Tracks s answered waiting) {c : ClientCall}
    (hc : Agreed c.queue) : Tracks (s.send c) answered waiting := by
  have hnew : s.request s.next = none := h.fresh s.next (Nat.le_refl _)
  refine ⟨h.runs, h.done, h.returned, h.around, ?_, ?_, ?_, ?_, h.once⟩
  · intro n x hx
    by_cases hn : n = s.next
    · subst hn
      have hx' : Function.update s.request s.next
        (some ⟨s.server.clock, c, .sent⟩) s.next = some x := hx
      rw [Function.update_self] at hx'
      rw [← Option.some.inj hx']
      exact ⟨hc, Nat.le_refl _, h.unasked s.next hnew,
        fun r hr => absurd hr (by simp)⟩
    · have hx' : Function.update s.request s.next
        (some ⟨s.server.clock, c, .sent⟩) n = some x := hx
      rw [Function.update_of_ne hn] at hx'
      exact h.request n x hx'
  · intro n hn
    by_cases hs : n = s.next
    · subst hs
      exact h.unasked s.next hnew
    · have hn' : Function.update s.request s.next
        (some ⟨s.server.clock, c, .sent⟩) n = none := hn
      rw [Function.update_of_ne hs] at hn'
      exact h.unasked n hn'
  · intro n hn
    have hle : s.next + 1 ≤ n := hn
    show Function.update s.request s.next _ n = none
    rw [Function.update_of_ne (by omega)]
    exact h.fresh n (by omega)
  · intro e he
    obtain ⟨x, hx, hwaits⟩ := h.waits e he
    refine ⟨x, ?_, hwaits⟩
    show Function.update s.request s.next _ e.1 = some x
    rw [Function.update_of_ne]
    · exact hx
    · rintro hs
      rw [hs, hnew] at hx
      exact absurd hx (by simp)

/-- **A SECTION** of the operation that a request asks for. -/
theorem tracks_handled (h : Tracks s answered waiting) {n : Nat} {x : Request}
    (hx : s.request n = some x) (hp : ∀ r, x.phase ≠ .replied r)
    {u : State Nat} (hu : Section s.server u n x) :
    ∃ waiting', Tracks (s.handled n x x.call.op.handler u) answered
      waiting' := by
  have hself : ∀ p, Function.update s.request n (some { x with phase := p }) n
      = some { x with phase := p } := fun p => Function.update_self _ _ _
  have hne : ∀ p m, m ≠ n →
      Function.update s.request n (some { x with phase := p }) m
        = s.request m := fun p m hm => Function.update_of_ne hm _ _
  have hmine := h.request n x hx
  have hfree := h.notMem hx hp
  -- what others wait for
  have hothers : ∀ e ∈ waiting, ∃ y, (s.handled n x x.call.op.handler u).request
      e.1 = some y ∧ Waits u y e.2 := by
    intro e he
    have hen : e.1 ≠ n := fun heq =>
      hfree (heq ▸ List.mem_map_of_mem he)
    obtain ⟨y, hy, hwaits⟩ := h.waits e he
    exact ⟨y, (hne _ _ hen).trans hy, hwaits.phase, hwaits.call, hwaits.began,
      Nat.lt_of_lt_of_le hwaits.ended hu.clock⟩
  have hunasked : ∀ m, (s.handled n x x.call.op.handler u).request m = none →
      u.client m = .idle := by
    intro m hm
    by_cases hmn : m = n
    · subst hmn
      exact absurd ((hself _).symm.trans hm) (by simp)
    · rw [hu.others m hmn]
      exact h.unasked m ((hne _ _ hmn).symm.trans hm)
  have hfresh : ∀ m, s.next ≤ m →
      (s.handled n x x.call.op.handler u).request m = none := by
    intro m hm
    by_cases hmn : m = n
    · subst hmn
      exact absurd (hx.symm.trans (h.fresh m hm)) (by simp)
    · exact (hne _ _ hmn).trans (h.fresh m hm)
  rcases hu.own with ⟨d, hdone, hidle, hcall, hbegan, hended⟩ | ⟨hdone, hpast⟩
  · have hphase : phaseOf x.call.op.handler u n
        = .replied (replyTo x.call.op.handler d.result) := by
      rw [phaseOf, hidle, hdone]
    have hnow : (s.handled n x x.call.op.handler u).request n
        = some { x with phase := .replied (replyTo x.call.op.handler d.result) }
        := by
      rw [← hphase]
      exact hself _
    refine ⟨(n, d) :: waiting, ?_⟩
    refine ⟨h.runs.tail hu.step, ?_, h.returned, h.around, ?_, hunasked, hfresh,
      ?_, ?_⟩
    · show u.done.Perm _
      rw [hdone]
      exact (h.done.cons d).trans List.perm_middle.symm
    · intro m y hy
      by_cases hmn : m = n
      · subst hmn
        rw [← Option.some.inj (hnow.symm.trans hy)]
        exact ⟨hmine.agreed, hmine.began.trans hu.clock, hidle,
          fun _ _ => ⟨d, List.mem_cons_self⟩⟩
      · exact (h.request m y ((hne _ _ hmn).symm.trans hy)).mono
          (hu.others m hmn) hu.clock fun _ hd => List.mem_cons_of_mem _ hd
    · intro e he
      rcases List.mem_cons.mp he with rfl | he
      · exact ⟨_, hnow, rfl, hcall, hbegan, hended⟩
      · exact hothers e he
    · exact List.nodup_cons.mpr ⟨hfree, h.once⟩
  · have hphase : phaseOf x.call.op.handler u n
        = .serving x.call.op.handler := by
      rw [phaseOf]
      cases hc : u.client n with
      | idle =>
          rw [hc] at hpast
          exact absurd hpast (by simp [Past])
      | putting began queue body p => rfl
      | getting began queue p => rfl
    have hnow : (s.handled n x x.call.op.handler u).request n
        = some { x with phase := .serving x.call.op.handler } := by
      rw [← hphase]
      exact hself _
    refine ⟨waiting, ?_⟩
    refine ⟨h.runs.tail hu.step, ?_, h.returned, h.around, ?_, hunasked, hfresh,
      hothers, h.once⟩
    · show u.done.Perm _
      rw [hdone]
      exact h.done
    · intro m y hy
      by_cases hmn : m = n
      · subst hmn
        rw [← Option.some.inj (hnow.symm.trans hy)]
        exact ⟨hmine.agreed, hmine.began.trans hu.clock, ⟨rfl, hpast⟩,
          fun r hr => absurd hr (by simp)⟩
      · exact (h.request m y ((hne _ _ hmn).symm.trans hy)).mono
          (hu.others m hmn) hu.clock fun _ hd => hd

/-- A request arrives at the handler of its operation, with its name. -/
theorem arrive_eq {n : Nat} {x : Request} (h : Agreed x.call.queue) :
    s.arrive site n x = s.handled n x x.call.op.handler
      (enter s.server n x.call.operation) := by
  obtain ⟨hplain, hctl⟩ := h
  have hland := land_of_plain site x.call.op hplain
    (not_malformed hplain hctl x.call.op)
  have hbody := (method_request site x.call.op x.call.queue).2
  rw [Net.arrive, hland]
  dsimp only
  rw [if_neg hplain.name.1, hbody]
  rfl

theorem tracks_arrive (h : Tracks s answered waiting) {n : Nat} {x : Request}
    (hx : s.request n = some x) (hp : x.phase = .sent) :
    ∃ waiting', Tracks (s.arrive site n x) answered waiting' := by
  have hmine := h.request n x hx
  have hidle : s.server.client n = .idle := by
    have hwork := hmine.handler
    rw [AtWork, hp] at hwork
    exact hwork
  rw [arrive_eq hmine.agreed]
  exact tracks_handled h hx (by simp [hp]) (section_enter hidle hmine.began)

/-- A call returns what it is to return. -/
theorem tracks_answer (h : Tracks s answered waiting) {n : Nat} {x : Request}
    {r : Reply} (hx : s.request n = some x) (hp : x.phase = .replied r) :
    ∃ answered' waiting', Tracks (s.answer k n x r) answered' waiting' := by
  have hself : Function.update s.request n (some { x with phase := .answered })
      n = some { x with phase := .answered } := Function.update_self _ _ _
  have hne : ∀ m, m ≠ n →
      Function.update s.request n (some { x with phase := .answered }) m
        = s.request m := fun m hm => Function.update_of_ne hm _ _
  have hmine := h.request n x hx
  obtain ⟨d, hd⟩ := hmine.waiting r hp
  obtain ⟨y, hy, hwaits⟩ := h.waits (n, d) hd
  obtain rfl := Option.some.inj (hx.symm.trans hy)
  obtain rfl : r = replyTo x.call.op.handler d.result :=
    Phase.replied.inj (hp.symm.trans hwaits.phase)
  -- nobody else waits under this number
  obtain ⟨before, after, rfl⟩ := List.append_of_mem hd
  have honce := h.once
  rw [List.map_append, List.map_cons, List.nodup_middle] at honce
  have hnot : n ∉ (before ++ after).map Prod.fst := by
    rw [List.map_append]
    exact (List.nodup_cons.mp honce).1
  have hrest : ∀ e ∈ before ++ after, e.1 ≠ n ∧ e ∈ before ++ (n, d) :: after := by
    intro e he
    refine ⟨fun heq => hnot (heq ▸ List.mem_map_of_mem he), ?_⟩
    simp only [List.mem_append, List.mem_cons] at he ⊢
    rcases he with he | he
    · exact Or.inl he
    · exact Or.inr (Or.inr he)
  refine ⟨(d, ⟨x.began, s.server.clock - 1, x.call,
    RemoteQueues.returned k x.call.op (replyTo x.call.op.handler d.result)⟩)
      :: answered, before ++ after, ?_⟩
  refine ⟨h.runs, ?_, ?_, ?_, ?_, ?_, ?_, ?_, ?_⟩
  · refine h.done.trans ?_
    rw [List.map_append, List.map_cons, List.map_cons, List.map_append]
    have hmiddle : (before.map Prod.snd ++ d :: after.map Prod.snd).Perm
        (d :: (before.map Prod.snd ++ after.map Prod.snd)) := List.perm_middle
    exact (hmiddle.append_left _).trans List.perm_middle
  · exact congrArg _ h.returned
  · intro p hp'
    rcases List.mem_cons.mp hp' with rfl | hp'
    · refine ⟨hwaits.began, ?_, ?_⟩
      · have hended : d.ended < s.server.clock := hwaits.ended
        show d.ended ≤ s.server.clock - 1
        omega
      · intro a b hans
        have hop : Answers a x.call.operation d.result b := hwaits.call ▸ hans
        show Remote a x.call (some (RemoteQueues.returned k x.call.op
          (replyTo x.call.op.handler d.result))) b
        rw [returned_replyTo k hop]
        exact .answered hop
    · exact h.around p hp'
  · intro m y hy
    by_cases hmn : m = n
    · subst hmn
      rw [← Option.some.inj (hself.symm.trans hy)]
      have hwork := hmine.handler
      rw [AtWork, hp] at hwork
      exact ⟨hmine.agreed, hmine.began, hwork, fun r hr => absurd hr (by simp)⟩
    · refine (h.request m y ((hne m hmn).symm.trans hy)).mono rfl (Nat.le_refl _)
        fun e he => ?_
      simp only [List.mem_append, List.mem_cons, Prod.mk.injEq] at he ⊢
      rcases he with he | ⟨heq, -⟩ | he
      · exact Or.inl he
      · exact absurd heq hmn
      · exact Or.inr he
  · intro m hm
    by_cases hmn : m = n
    · subst hmn
      exact absurd (hself.symm.trans hm) (by simp)
    · exact h.unasked m ((hne m hmn).symm.trans hm)
  · intro m hm
    by_cases hmn : m = n
    · subst hmn
      exact absurd (hx.symm.trans (h.fresh m hm)) (by simp)
    · exact (hne m hmn).trans (h.fresh m hm)
  · intro e he
    obtain ⟨hen, hmem⟩ := hrest e he
    obtain ⟨y, hy, hw⟩ := h.waits e hmem
    exact ⟨y, (hne e.1 hen).trans hy, hw⟩
  · rw [List.map_append]
    exact (List.nodup_cons.mp honce).2

theorem tracks_step (h : Tracks s answered waiting) {s' : Net}
    (hs : Step site k s s') :
    ∃ answered' waiting', Tracks s' answered' waiting' := by
  -- what is known of a handler that is past its lookup
  have hwork : ∀ n x g, s.request n = some x → x.phase = .serving g →
      g = x.call.op.handler ∧ Past (s.server.client n) x := by
    intro n x g hx hp
    have hwork := (h.request n x hx).handler
    rw [AtWork, hp] at hwork
    exact hwork
  cases hs with
  | send c hc => exact ⟨answered, waiting, tracks_send h hc⟩
  | arrive n x hx hp => exact ⟨answered, tracks_arrive h hx hp⟩
  | put n x g began queue body p read now hx hp hc =>
      obtain ⟨rfl, hpast⟩ := hwork n x g hx hp
      rw [hc] at hpast
      exact ⟨answered, tracks_handled h hx (by simp [hp])
        (section_complete (.putMessage n began queue body p read now hc)
          hpast.1.symm hpast.2)⟩
  | get n x g began queue p hx hp hc =>
      obtain ⟨rfl, hpast⟩ := hwork n x g hx hp
      rw [hc] at hpast
      exact ⟨answered, tracks_handled h hx (by simp [hp])
        (section_complete (.getMessage n began queue p hc) hpast.1.symm
          hpast.2)⟩
  | answer n x r hx hp => exact tracks_answer h hx hp

end Steps

/-! ## Every run -/

theorem tracks_of_runs {site : Site} {k : TimeText} {s : Net}
    (h : Runs site k start s) :
    ∃ answered waiting, Tracks s answered waiting := by
  induction h with
  | refl => exact ⟨[], [], tracks_start⟩
  | tail _ hs ih =>
      obtain ⟨answered, waiting, hT⟩ := ih
      exact tracks_step hT hs

/-- A call that was replied to, as one without an answer so far. -/
def Net.unanswered (s : Net) (n : Nat) :
    Option (Done ClientCall (Option Returned)) :=
  (s.request n).map fun x => ⟨x.began, s.server.clock, x.call, none⟩

/-- The operations whose replies are on their way, with the calls around
    them. -/
theorem around_waiting {s : Net} {waiting : List (Nat × Done Call Result)}
    (h : ∀ e ∈ waiting, ∃ x, s.request e.1 = some x ∧ Waits s.server x e.2) :
    ∃ w : List (Done Call Result × Done ClientCall (Option Returned)),
      w.map Prod.fst = waiting.map Prod.snd
        ∧ w.map Prod.snd = (waiting.map Prod.fst).filterMap s.unanswered
        ∧ ∀ p ∈ w, Around Answers Remote p.1 p.2 := by
  induction waiting with
  | nil => exact ⟨[], rfl, rfl, by simp⟩
  | cons e waiting ih =>
      obtain ⟨w, hfst, hsnd, haround⟩ :=
        ih fun e' he' => h e' (List.mem_cons_of_mem _ he')
      obtain ⟨x, hx, hwaits⟩ := h e List.mem_cons_self
      have hopen : s.unanswered e.1
          = some ⟨x.began, s.server.clock, x.call, none⟩ := by
        rw [Net.unanswered, hx]
        rfl
      refine ⟨(e.2, ⟨x.began, s.server.clock, x.call, none⟩) :: w, ?_, ?_, ?_⟩
      · rw [List.map_cons, List.map_cons, hfst]
      · rw [List.map_cons, List.map_cons, List.filterMap_cons_some hopen, hsnd]
      · intro p hp
        rcases List.mem_cons.mp hp with rfl | hp
        · refine ⟨hwaits.began, Nat.le_of_lt hwaits.ended, ?_⟩
          intro a b hans
          have hop : Answers a x.call.operation e.2.result b :=
            hwaits.call ▸ hans
          exact .unanswered hop
        · exact haround p hp

/-- **THE QUEUES FROM AFAR**: whatever requests and answers are lost or late,
    the calls that were answered, with some that were not and took effect all
    the same, can be put into an order that respects real time and in which one
    map from names to FIFO queues gives all the answers. -/
theorem remote_linearized {site : Site} {k : TimeText} {s : Net}
    (h : Runs site k start s) :
    ∃ (lost : List Nat) (order : List (Done ClientCall (Option Returned))),
      lost.Nodup
        ∧ (∀ n ∈ lost, ∃ x r, s.request n = some x ∧ x.phase = .replied r)
        ∧ LinearizedBy Remote (fun _ => none)
          (s.returned.map known ++ lost.filterMap s.unanswered) order := by
  obtain ⟨answered, waiting, hT⟩ := tracks_of_runs h
  obtain ⟨nameOf, t, hs, ht, -⟩ := MemqClients.explained_of_runs hT.runs
  have hlin : LinearizedBy Answers (fun _ => none) s.server.done
      (order t) := ⟨ht.perm, realTime_order ht.timed, _, legal_order hs.legal⟩
  obtain ⟨w, hfst, hsnd, haround⟩ := around_waiting hT.waits
  -- the answered calls, and those that wait, with what they go on around
  have hall : s.server.done.Perm ((answered.map (fun p => (p.1, known p.2))
      ++ w).map Prod.fst) := by
    rw [List.map_append, List.map_map, hfst]
    exact hT.done
  obtain ⟨order', hlin'⟩ := linearizedBy_around hlin hall (by
    intro p hp
    rcases List.mem_append.mp hp with hp | hp
    · obtain ⟨q, hq, rfl⟩ := List.mem_map.mp hp
      exact hT.around q hq
    · exact haround p hp)
  refine ⟨waiting.map Prod.fst, order', hT.once, ?_, ?_⟩
  · intro n hn
    obtain ⟨e, he, rfl⟩ := List.mem_map.mp hn
    obtain ⟨x, hx, hwaits⟩ := hT.waits e he
    exact ⟨x, _, hx, hwaits.phase⟩
  · rw [hT.returned, List.map_map, ← hsnd]
    rw [List.map_append, List.map_map] at hlin'
    exact hlin'

/-! ## An answer that is lost -/

/-- The queue `jobs` is made, a client puts `hi` into it, and another one gets
    it. -/
def makeJobs : ClientCall := ⟨.createQueue, ascii "jobs"⟩
def putHi : ClientCall := ⟨.enqueue (ascii "hi"), ascii "jobs"⟩
def getJob : ClientCall := ⟨.dequeue, ascii "jobs"⟩

/-- Request `n`, sent with the call `c`, arrives. -/
def arrived (s : Net) (n began : Nat) (c : ClientCall) : Net :=
  s.handled n ⟨began, c, .sent⟩ c.op.handler (enter s.server n c.operation)

theorem step_arrived {k : TimeText} {s : Net} {n began : Nat} {c : ClientCall}
    (hc : c.queue = ascii "jobs")
    (hx : s.request n = some ⟨began, c, .sent⟩) :
    Step memq k s (arrived s n began c) := by
  have hagreed : Agreed c.queue := by
    rw [hc]
    exact plain_jobs
  have h : Step memq k s _ := Step.arrive n ⟨began, c, .sent⟩ hx rfl
  rwa [arrive_eq hagreed] at h

/-- The client that makes the queue has its answer. -/
def jobsMade : Net :=
  (arrived (start.send makeJobs) 0 0 makeJobs).answer epochText 0
    ⟨0, makeJobs, .replied (replyTo .createQueue .nil)⟩
    (replyTo .createQueue .nil)

/-- The handler of the client that puts has found the queue. -/
def putFound : Net := arrived (jobsMade.send putHi) 1 1 putHi

/-- It has put the message, and its reply is never to arrive. -/
def putDone : Net :=
  putFound.handled 1 ⟨1, putHi, .serving .enqueue⟩ .enqueue
    (putFound.server.complete 1 1 putHi.operation
      (putFound.server.broker.putMessage 0
        (newMessage (.ok (Vector.replicate 16 0)) 0 (goString (ascii "hi")))))

/-- The handler of the client that gets has found the queue. -/
def getFound : Net := arrived (putDone.send getJob) 2 3 getJob

/-- It has got the message. -/
def getDone : Net :=
  getFound.handled 2 ⟨3, getJob, .serving .dequeue⟩ .dequeue
    (getFound.server.complete 2 3 getJob.operation
      (getFound.server.broker.getMessage 0))

/-- And that client has its answer. -/
def jobServed (m : Message) : Net :=
  getDone.answer epochText 2
    ⟨3, getJob, .replied (replyTo .dequeue (.message m))⟩
    (replyTo .dequeue (.message m))

theorem runs_getDone : Runs memq epochText start getDone := by
  have hmade : Runs memq epochText start jobsMade :=
    .tail (.tail (.single (.send makeJobs plain_jobs)) (step_arrived rfl rfl))
      (.answer 0 _ _ rfl rfl)
  have hput : Runs memq epochText start putDone :=
    .tail (.tail (.tail hmade (.send putHi plain_jobs)) (step_arrived rfl rfl))
      (.put 1 _ _ 1 _ _ 0 _ 0 rfl rfl rfl)
  exact .tail (.tail (.tail hput (.send getJob plain_jobs))
    (step_arrived rfl rfl)) (.get 2 _ _ 3 _ 0 rfl rfl rfl)

/-- The put was never answered, and only with it is there an order in which the
    get has an answer. -/
theorem remote_linearized_jobServed :
    ∃ m, m.body = goString (ascii "hi")
      ∧ (jobServed m).returned.map Done.result
        = [.ok (some (coerced m)), .ok none]
      ∧ (jobServed m).request 1
        = some ⟨1, putHi, .replied (replyTo .enqueue (.message m))⟩
      ∧ ∃ (lost : List Nat) (order : List (Done ClientCall (Option Returned))),
        lost.Nodup
          ∧ (∀ n ∈ lost, ∃ x r, (jobServed m).request n = some x
            ∧ x.phase = .replied r)
          ∧ LinearizedBy Remote (fun _ => none)
            ((jobServed m).returned.map known
              ++ lost.filterMap (jobServed m).unanswered) order := by
  obtain ⟨m, hm⟩ : ∃ m, newMessage (.ok (Vector.replicate 16 0)) 0
      (goString (ascii "hi")) = .ok m := ⟨_, rfl⟩
  have hserved : Runs memq epochText start (jobServed m) := by
    refine .tail runs_getDone (.answer 2 _ _ ?_ rfl)
    cases hm
    rfl
  refine ⟨m, body_newMessage hm, ?_, ?_, remote_linearized hserved⟩
  · show [returned epochText .dequeue (replyTo .dequeue (.message m)),
      returned epochText .createQueue (replyTo .createQueue .nil)] = _
    have hback : returned epochText .dequeue (replyTo .dequeue (.message m))
        = seen (.message m) := returned_message epochText m (Or.inr rfl)
    rw [hback]
    rfl
  · cases hm
    rfl

end RemoteQueues
