import KubernetesUpRunning.QueueNames
import KubernetesUpRunning.JsonText

/-! # The body of a message, through the queue

    A body goes in as the bytes of a request and comes out as a JSON string.
    The server keeps the bytes as they are; the client gets the message that
    `ServeJSON` has written, decoded again.  So a body comes back as it was
    exactly when it is UTF-8 — once more only for names that client and server
    agree on. -/

namespace MessageBody

open AsciiText UrlText JsonText QueueNames MemqBroker MemqWorker

/-! ## Messages as JSON -/

/-- How `time.Time` is written in JSON, and how it is read. -/
structure TimeText where
  format : Nat → Bytes
  parse : Bytes → Option Nat
  valid : ∀ t, ValidUTF8 (format t)
  parse_format : ∀ t, parse (format t) = some t

/-- `ServeJSON` of a message. -/
def serveJSON (k : TimeText) (m : Message) : Bytes :=
  appendObject
    [(ascii "kind", bytesOf m.kind), (ascii "id", bytesOf m.id),
      (ascii "body", bytesOf m.body),
      (ascii "creationTimestamp", k.format m.created)] ++ [byte '\n']

/-- A letter of ASCII, in lower case. -/
def lower (b : UInt8) : UInt8 :=
  if byte 'A' ≤ b ∧ b ≤ byte 'Z' then b + 32 else b

/-- One member is put into the field that has its name; the case of the name
    does not matter. -/
def setField (k : TimeText) (m : Message) (e : Bytes × Bytes) :
    Option Message :=
  let name := e.1.map lower
  if name = ascii "kind" then some { m with kind := goString e.2 }
  else if name = ascii "id" then some { m with id := goString e.2 }
  else if name = ascii "body" then some { m with body := goString e.2 }
  else if name = ascii "creationtimestamp" then
    (k.parse e.2).map fun t => { m with created := t }
  else some m

/-- `json.NewDecoder(resp.Body).Decode(&m)`. -/
def decode (k : TimeText) (s : Bytes) : Option Message :=
  (object s).bind fun ms =>
    ms.foldlM (setField k) { kind := "", id := "", body := "", created := 0 }

/-- A message after JSON: its strings are coerced. -/
def coerced (m : Message) : Message where
  kind := goString (coerce (bytesOf m.kind))
  id := goString (coerce (bytesOf m.id))
  body := goString (coerce (bytesOf m.body))
  created := m.created

section Fields

variable (k : TimeText) (m : Message) (v : Bytes)

theorem setField_kind :
    setField k m (ascii "kind", v) = some { m with kind := goString v } := by
  simp only [setField]
  rw [if_pos (by decide)]

theorem setField_id :
    setField k m (ascii "id", v) = some { m with id := goString v } := by
  simp only [setField]
  rw [if_neg (by decide), if_pos (by decide)]

theorem setField_body :
    setField k m (ascii "body", v) = some { m with body := goString v } := by
  simp only [setField]
  rw [if_neg (by decide), if_neg (by decide), if_pos (by decide)]

theorem setField_created :
    setField k m (ascii "creationTimestamp", v)
      = (k.parse v).map fun t => { m with created := t } := by
  simp only [setField]
  rw [if_neg (by decide), if_neg (by decide), if_neg (by decide),
    if_pos (by decide)]

end Fields

/-- **What the server writes is what the client reads**, coerced. -/
theorem decode_serveJSON (k : TimeText) (m : Message) :
    decode k (serveJSON k m) = some (coerced m) := by
  have hnames : ∀ w ∈ [ascii "kind", ascii "id", ascii "body",
      ascii "creationTimestamp"],
      (w.all fun b => decide (b < 0x80)) = true := by decide
  have hname : ∀ w ∈ [ascii "kind", ascii "id", ascii "body",
      ascii "creationTimestamp"], coerce w = w := fun w hw =>
    coerce_of_valid (validUTF8_of_ascii (forall_of_all (hnames w hw)))
  rw [decode, serveJSON, object_append (by simp), Option.bind_some]
  simp only [List.map_cons, List.map_nil, hname (ascii "kind") (by simp),
    hname (ascii "id") (by simp), hname (ascii "body") (by simp),
    hname (ascii "creationTimestamp") (by simp),
    coerce_of_valid (k.valid m.created)]
  rw [List.foldlM_cons, setField_kind, Option.bind_eq_bind, Option.bind_some,
    List.foldlM_cons, setField_id, Option.bind_eq_bind, Option.bind_some,
    List.foldlM_cons, setField_body, Option.bind_eq_bind, Option.bind_some,
    List.foldlM_cons, setField_created, k.parse_format]
  rfl

/-! ## Calls of the client -/

/-- The message that an operation returns, if it returns one. -/
def received (k : TimeText) (op : Op) : Option Reply → Option Message
  | none => none
  | some r =>
      match op.returned r with
      | .ok (some m) => decode k (serveJSON k m)
      | _ => none

/-- One call of the client: the message it returns and what it leaves at the
    server. -/
def call (s : Site) (k : TimeText) (t : Moment) (op : Op) (queue : Bytes)
    (b : Broker) : Option Message × Broker :=
  let r := s.exchange t b (s.client.request queue op)
  (received k op r.1, r.2)

/-- What is at the server after some calls of `Dequeue`. -/
def afterDequeues (s : Site) (k : TimeText) (t : Moment) (queue : Bytes) :
    Nat → Broker → Broker
  | 0, b => b
  | n + 1, b =>
      afterDequeues s k t queue n (call s k t .dequeue queue b).2

/-- In every state in which the queue exists: `Enqueue`, as many calls of
    `Dequeue` as there were messages, and one more, which returns the body that
    was put in, with the identifier and the kind that `Enqueue` returned. -/
def Survives (s : Site) (k : TimeText) (bytes : Vector UInt8 16) (now : Nat)
    (queue data : Bytes) : Prop :=
  ∀ (b : Broker) (p : Pointer), b.queues (goString queue) = some p →
    let t : Moment := { read := .ok bytes, now := now }
    let put := call s k t (.enqueue data) queue b
    let last := call s k t .dequeue queue
      (afterDequeues s k t queue (b.heap p).messages.length put.2)
    ∃ m m', put.1 = some m ∧ last.1 = some m' ∧
      m'.body = goString data ∧ m'.id = m.id ∧ m'.kind = m.kind

/-! ## A queue that is reached -/

section Reached

variable {s : Site} {k : TimeText} {t : Moment} {queue : Bytes} {b : Broker}
  {p : Pointer}

/-- A call that gets to a handler. -/
theorem call_of_land {op : Op} {h : Handler} {qName : Bytes}
    (hl : s.land (s.client.request queue op) = some (.handler h qName)) :
    call s k t op queue b
      = (received k op (some (h.serve t b qName
            (s.client.request queue op).body).1),
          (h.serve t b qName (s.client.request queue op).body).2) := by
  rw [call, Site.exchange, hl]

/-- `Enqueue` returns the message that it has put at the end. -/
theorem call_enqueue {data : Bytes} {m : Message} (hq : queue ≠ [])
    (hl : s.land (s.client.request queue (.enqueue data))
      = some (.handler .enqueue queue))
    (hb : b.queues (goString queue) = some p)
    (hm : newMessage t.read t.now (goString data) = .ok m) :
    call s k t (.enqueue data) queue b
      = (some (coerced m), b.write p ((b.heap p).putMessage m)) := by
  have hserve : Handler.enqueue.serve t b queue data
      = (⟨200, .json m⟩, b.write p ((b.heap p).putMessage m)) := by
    rw [Handler.serve, enqueue, if_neg hq, Broker.getQueue, hb]
    simp only [hm, Broker.putMessage, replyOf]
  rw [call_of_land hl, (method_request s (.enqueue data) queue).2]
  simp only [Op.body, hserve]
  rw [← decode_serveJSON k m]
  rfl

/-- `Dequeue` returns the message that was in front. -/
theorem call_dequeue {m : Message} {rest : List Message} (hq : queue ≠ [])
    (hl : s.land (s.client.request queue .dequeue)
      = some (.handler .dequeue queue))
    (hb : b.queues (goString queue) = some p)
    (hm : (b.heap p).messages = m :: rest) :
    (call s k t .dequeue queue b).1 = some (coerced m) ∧
      (call s k t .dequeue queue b).2.queues (goString queue) = some p ∧
      ((call s k t .dequeue queue b).2.heap p).messages = rest := by
  have hget : (b.heap p).getMessage = (.ok m, { b.heap p with
      messages := rest
      depth := (b.heap p).depth - 1
      dequeued := (b.heap p).dequeued + 1 }) := by
    rw [Queue.getMessage, hm]
  have hserve : Handler.dequeue.serve t b queue []
      = (⟨200, .json m⟩, b.write p { b.heap p with
          messages := rest
          depth := (b.heap p).depth - 1
          dequeued := (b.heap p).dequeued + 1 }) := by
    rw [Handler.serve, dequeue, if_neg hq, Broker.getQueue, hb]
    simp only [Broker.getMessage, hget, replyOf]
  rw [call_of_land hl, (method_request s .dequeue queue).2]
  simp only [Op.body, hserve]
  rw [← decode_serveJSON k m]
  exact ⟨rfl, hb, by simp [Broker.write]⟩

/-- After as many calls of `Dequeue` as there were messages in front, the rest
    is left. -/
theorem afterDequeues_append {ms rest : List Message} (hq : queue ≠ [])
    (hl : s.land (s.client.request queue .dequeue)
      = some (.handler .dequeue queue))
    (hb : b.queues (goString queue) = some p)
    (hm : (b.heap p).messages = ms ++ rest) :
    (afterDequeues s k t queue ms.length b).queues (goString queue) = some p ∧
      ((afterDequeues s k t queue ms.length b).heap p).messages = rest := by
  induction ms generalizing b with
  | nil => exact ⟨hb, hm⟩
  | cons m ms ih =>
      obtain ⟨-, hb', hm'⟩ := call_dequeue (k := k) (t := t) hq hl hb hm
      exact ih hb' hm'

/-- The message that `Enqueue` puts in. -/
def sent (bytes : Vector UInt8 16) (now : Nat) (data : Bytes) : Message where
  kind := "message"
  id := encodeToString bytes.toList
  body := goString data
  created := now

/-- **The last call returns what `Enqueue` has put in**: for names that both
    calls get to the queue with, the body survives exactly when it is UTF-8. -/
theorem survives_iff_of_land {bytes : Vector UInt8 16} {now : Nat}
    {data : Bytes} (hq : queue ≠ [])
    (hput : s.land (s.client.request queue (.enqueue data))
      = some (.handler .enqueue queue))
    (hget : s.land (s.client.request queue .dequeue)
      = some (.handler .dequeue queue)) :
    Survives s k bytes now queue data ↔ ValidUTF8 data := by
  have hnew : newMessage (.ok bytes) now (goString data)
      = .ok (sent bytes now data) := rfl
  -- what the two calls return in any state in which the queue exists
  have hrun : ∀ (b : Broker) (p : Pointer),
      b.queues (goString queue) = some p →
      (call s k { read := .ok bytes, now := now } (.enqueue data) queue b).1
        = some (coerced (sent bytes now data)) ∧
      (call s k { read := .ok bytes, now := now } .dequeue queue
        (afterDequeues s k { read := .ok bytes, now := now } queue
          (b.heap p).messages.length
          (call s k { read := .ok bytes, now := now } (.enqueue data) queue
            b).2)).1
        = some (coerced (sent bytes now data)) := by
    intro b p hb
    have hlast : ((b.write p ((b.heap p).putMessage
        (sent bytes now data))).heap p).messages
        = (b.heap p).messages ++ [sent bytes now data] := by
      simp [Broker.write, Queue.putMessage]
    rw [call_enqueue (k := k) (t := { read := .ok bytes, now := now }) hq hput
      hb hnew]
    obtain ⟨hb', hm'⟩ := afterDequeues_append (k := k)
      (t := { read := .ok bytes, now := now })
      (b := b.write p ((b.heap p).putMessage (sent bytes now data)))
      hq hget hb hlast
    exact ⟨rfl, (call_dequeue hq hget hb' hm').1⟩
  have hbody : (coerced (sent bytes now data)).body = goString data ↔
      ValidUTF8 data := by
    rw [coerced, sent, goString_inj, bytesOf_goString, coerce_eq_self_iff]
  constructor
  · intro h
    have hb : (holding (goString queue)).queues (goString queue) = some 0 :=
      if_pos rfl
    obtain ⟨m, m', hm, hm', hsame, -⟩ := h (holding (goString queue)) 0 hb
    rw [(hrun _ 0 hb).2] at hm'
    rw [← hbody, Option.some.inj hm', hsame]
  · intro hv b p hb
    obtain ⟨h1, h2⟩ := hrun b p hb
    exact ⟨_, _, h1, h2, hbody.2 hv, rfl, rfl⟩

end Reached

/-! ## A queue that is not reached -/

/-- A broker with one queue, which is empty. -/
def oneEmpty (name : String) : Broker where
  queues n := if n = name then some 0 else none
  heap _ := newQueue name
  next := 1

/-- A reply without a message gives the client none. -/
theorem received_none {k : TimeText} {op : Op} {r : Reply}
    (h : ∀ m, r.body ≠ .json m) : received k op (some r) = none := by
  obtain ⟨status, body⟩ := r
  cases op with
  | createQueue => by_cases hs : 300 ≤ status <;>
      simp [received, Op.returned, errorFromResponse, hs]
  | deleteQueue => by_cases hs : 300 ≤ status <;>
      simp [received, Op.returned, errorFromResponse, hs]
  | drainQueue => by_cases hs : 300 ≤ status <;>
      simp [received, Op.returned, errorFromResponse, hs]
  | enqueue data =>
      by_cases hs : 300 ≤ status
      · simp [received, Op.returned, clientEnqueue, hs]
      · cases body with
        | json m => exact absurd rfl (h m)
        | empty => simp [received, Op.returned, clientEnqueue, hs]
        | text x => simp [received, Op.returned, clientEnqueue, hs]
  | dequeue =>
      by_cases hs : 300 ≤ status
      · simp [received, Op.returned, clientDequeue, hs]
      · by_cases hn : status = 204
        · simp [received, Op.returned, clientDequeue, hn]
        · cases body with
          | json m => exact absurd rfl (h m)
          | empty => simp [received, Op.returned, clientDequeue, hs, hn]
          | text x => simp [received, Op.returned, clientDequeue, hs, hn]

/-- A handler with the name of a queue that does not exist replies with no
    message. -/
theorem no_message {h : Handler} {t : Moment} {b : Broker}
    {qName body : Bytes} (hq : qName = [] ∨ b.queues (goString qName) = none)
    (m : Message) : (h.serve t b qName body).1.body ≠ .json m := by
  rcases hq with rfl | hq
  · rw [serve_nil]
    simp [emptyNameReply]
  · by_cases hne : qName = []
    · subst hne
      rw [serve_nil]
      simp [emptyNameReply]
    · cases h <;>
        simp [Handler.serve, createQueue, deleteQueue, drainQueue, dequeue,
          enqueue, hne, Broker.createQueue, Broker.deleteQueue,
          Broker.drainQueue, Broker.getQueue, hq, replyOf]

/-- A name that client and server do not agree on gets no request to the
    queue. -/
theorem call_unreached {s : Site} {k : TimeText} {t : Moment} (op : Op)
    {queue : Bytes} {b : Broker}
    (hname : ¬ (Plain queue ∧ ∀ c ∈ queue, isControl c = false))
    (hb : ∀ n, n ≠ goString queue → b.queues n = none) :
    (call s k t op queue b).1 = none ∨
      ∃ r, s.land (s.client.request queue op) = some (.answered r) := by
  cases hl : s.land (s.client.request queue op) with
  | none =>
      refine .inl ?_
      rw [call, Site.exchange, hl]
      rfl
  | some l =>
      cases l with
      | answered r => exact .inr ⟨r, rfl⟩
      | handler h qName =>
          refine .inl ?_
          have hplain : ¬ Plain queue := by
            intro hplain
            have hctl : ∃ c ∈ queue, isControl c := by
              by_contra hno
              exact hname ⟨hplain, fun c hc => by
                simpa using fun h => hno ⟨c, hc, h⟩⟩
            rcases land_of_malformed (s := s)
              ((malformed_iff_control op hplain).2 hctl) with h' | h' <;>
              rw [hl] at h' <;> cases h'
          rw [call_of_land hl]
          refine received_none (no_message ?_)
          by_cases hne : qName = []
          · exact .inl hne
          · exact .inr (hb _ fun h =>
              ne_of_land hplain hl hne (goString_inj.1 h).symm)

/-- An answer from somewhere else is that of the rest of the server, or to a
    broken request line. -/
theorem of_answered {s : Site} {op : Op} {queue : Bytes} {r : Reply}
    (hl : s.land (s.client.request queue op) = some (.answered r)) :
    (∃ path, s.rest op.method path op.body = .answered r) ∨
      r = ⟨400, .text "400 Bad Request"⟩ := by
  by_cases hm : Malformed (tail op queue)
  · rcases land_of_malformed (s := s) hm with h | h <;> rw [hl] at h
    · cases h
    · exact .inr (Landing.answered.inj (Option.some.inj h))
  · obtain ⟨p, -, hland⟩ := land_of_wellFormed (s := s) hm
    rw [hl] at hland
    have hrouted := Option.some.inj hland
    unfold Site.routed at hrouted
    cases hr : route s.base op.method (s.base ++ ascii "/" ++ p) with
    | some found =>
        rw [hr] at hrouted
        cases hrouted
    | none =>
        rw [hr] at hrouted
        exact .inl ⟨_, hrouted.symm⟩

/-- Under a name that client and server do not agree on no body survives. -/
theorem not_survives_of_name {s : Site} {k : TimeText}
    {bytes : Vector UInt8 16} {now : Nat} {queue data : Bytes}
    (hrest : ∀ path r m, s.rest .post path [] = .answered r →
      r.body ≠ .json m)
    (hname : ¬ (Plain queue ∧ ∀ c ∈ queue, isControl c = false)) :
    ¬ Survives s k bytes now queue data := by
  intro h
  have hb : (oneEmpty (goString queue)).queues (goString queue) = some 0 :=
    if_pos rfl
  have honly : ∀ n, n ≠ goString queue →
      (oneEmpty (goString queue)).queues n = none := fun n hn => if_neg hn
  obtain ⟨m, m', hm, hm', -⟩ := h (oneEmpty (goString queue)) 0 hb
  rcases call_unreached (s := s) (k := k)
    (t := { read := .ok bytes, now := now }) (.enqueue data) hname
    honly with hput | ⟨r, hput⟩
  · rw [hput] at hm
    cases hm
  -- the request was answered by something else, and has changed nothing
  have hsame : (call s k { read := .ok bytes, now := now } (.enqueue data)
      queue (oneEmpty (goString queue))).2
      = oneEmpty (goString queue) := by
    rw [call, Site.exchange, hput]
  have hzero : ((oneEmpty (goString queue)).heap 0).messages.length = 0 :=
    rfl
  rw [hsame, hzero] at hm'
  rcases call_unreached (s := s) (k := k)
    (t := { read := .ok bytes, now := now }) .dequeue hname
    honly with hget | ⟨r', hget⟩
  · exact absurd (hget.symm.trans hm') (by simp)
  · have hnone : ∀ m, r'.body ≠ .json m := by
      rcases of_answered hget with ⟨path, hp⟩ | rfl
      · exact fun m => hrest path r' m hp
      · simp
    have hcall : (call s k { read := .ok bytes, now := now } .dequeue
        queue (oneEmpty (goString queue))).1 = none := by
      rw [call, Site.exchange, hget]
      exact received_none hnone
    exact absurd (hcall.symm.trans hm') (by simp)

/-- A request can be made of a plain name without control bytes. -/
theorem not_malformed {queue : Bytes} (hplain : Plain queue)
    (hctl : ∀ c ∈ queue, isControl c = false) (op : Op) :
    ¬ Malformed (tail op queue) := by
  intro hm
  obtain ⟨c, hc, h⟩ := (malformed_iff_control op hplain).1 hm
  rw [hctl c hc] at h
  cases h

/-- **When a body survives**: for every name and every body, exactly when the
    name is one that client and server agree on and the body is UTF-8. -/
theorem survives_iff_utf8 (s : Site) (k : TimeText)
    (bytes : Vector UInt8 16) (now : Nat) (queue data : Bytes)
    (hrest : ∀ path r m, s.rest .post path [] = .answered r →
      r.body ≠ .json m) :
    Survives s k bytes now queue data ↔
      (Plain queue ∧ ∀ c ∈ queue, isControl c = false) ∧ ValidUTF8 data := by
  by_cases hname : Plain queue ∧ ∀ c ∈ queue, isControl c = false
  · obtain ⟨hplain, hctl⟩ := hname
    rw [survives_iff_of_land hplain.name.1
      (land_of_plain s (.enqueue data) hplain (not_malformed hplain hctl _))
      (land_of_plain s .dequeue hplain (not_malformed hplain hctl _))]
    exact ⟨fun h => ⟨⟨hplain, hctl⟩, h⟩, fun h => h.2⟩
  · exact ⟨fun h => absurd h (not_survives_of_name hrest hname),
      fun h => absurd h.1 hname⟩

/-- Times as they are written at the start of the epoch, and longer ones
    later. -/
def epochText : TimeText where
  format t := ascii "1970-01-01T00:00:00Z" ++ List.replicate t (byte '0')
  parse s := some (s.length - (ascii "1970-01-01T00:00:00Z").length)
  valid := by
    intro t
    have hdate : ∀ b ∈ ascii "1970-01-01T00:00:00Z", b < 0x80 :=
      forall_of_all (by decide)
    refine validUTF8_of_ascii fun b hb => ?_
    rcases List.mem_append.1 hb with hb | hb
    · exact hdate b hb
    · rw [List.eq_of_mem_replicate hb]
      decide
  parse_format := by
    intro t
    simp

/-- The name `jobs` is plain. -/
theorem plain_jobs : Plain (ascii "jobs") ∧
    ∀ c ∈ ascii "jobs", isControl c = false :=
  ⟨⟨⟨by decide, by decide, by decide⟩, by decide, by decide, by decide,
    by decide⟩, forall_of_all (by decide)⟩

/-- The body `hi` survives the queue `jobs`. -/
theorem survives_iff_utf8_hi :
    Survives memq epochText (Vector.replicate 16 0) 0 (ascii "jobs")
      (ascii "hi") :=
  (survives_iff_utf8 memq epochText (Vector.replicate 16 0) 0 (ascii "jobs")
    (ascii "hi")
    (by
      rintro path r m h
      obtain rfl := Landing.answered.inj h
      simp)).2
    ⟨plain_jobs, validUTF8_of_ascii (forall_of_all (by decide))⟩

/-- The body that is the single byte 255 does not. -/
theorem not_survives_ff : ¬ ∀ (s : Site) (k : TimeText)
    (bytes : Vector UInt8 16) (now : Nat) (queue data : Bytes),
    queue ≠ [] → Survives s k bytes now queue data := by
  intro h
  have hs := h memq epochText (Vector.replicate 16 0) 0 (ascii "jobs") [0xff]
    (by decide)
  have hok := not_malformed plain_jobs.1 plain_jobs.2
  have hvalid := (survives_iff_of_land (by decide)
    (land_of_plain memq (.enqueue [0xff]) plain_jobs.1 (hok _))
    (land_of_plain memq .dequeue plain_jobs.1 (hok _))).1 hs
  have hinvalid : runes [0xff] = none :: runes [] :=
    runes_invalid (by decide)
  exact hvalid (by rw [hinvalid]; simp)

end MessageBody
