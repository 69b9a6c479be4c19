import Mathlib.Data.List.Infix
import KubernetesUpRunning.LexicalPath
import KubernetesUpRunning.UrlText
import KubernetesUpRunning.MemqWorker

/-! # The name of a queue, from the client to the server

    `kuard/pkg/memq/client` joins the name of a queue into a path and the path
    into a URL, without escaping it.  `net/http` parses that text, and the
    router of `kuard/pkg/memq/server` takes the name back out of the decoded
    path.  Here both ends are put together: for which names the server acts on
    the queue that the client was asked for. -/

namespace QueueNames

open AsciiText LexicalPath UrlText MemqBroker MemqWorker

/-- The paths of URLs. -/
def urlPath : Marks UInt8 := { slash := byte '/', dot := byte '.' }

/-- A Go string as a name or a body in the broker, one character a byte. -/
def goString (s : Bytes) : String :=
  String.ofList (s.map fun b => Char.ofNat b.toNat)

/-- A string of the broker as the bytes of a Go string. -/
def bytesOf (s : String) : Bytes := s.toList.map byte

/-- Nothing is lost between the two. -/
theorem bytesOf_goString (s : Bytes) : bytesOf (goString s) = s := by
  rw [bytesOf, goString, String.toList_ofList, List.map_map]
  refine (List.map_congr_left fun b _ => ?_).trans (List.map_id s)
  simp [byte, toNat_char]

/-- Different byte strings are different names and bodies. -/
theorem goString_inj {s t : Bytes} : goString s = goString t ↔ s = t := by
  refine ⟨fun h => ?_, fun h => congrArg goString h⟩
  rw [← bytesOf_goString s, h, bytesOf_goString]

/-! ## The client -/

/-- The methods of the requests. -/
inductive Method where
  | put
  | delete
  | post
  deriving DecidableEq, Repr

/-- `http.Request`, before its URL is parsed. -/
structure Request where
  method : Method
  url : Bytes
  body : Bytes

/-- `memqclient.Client`. -/
structure Client where
  baseServerURL : Bytes

/-- `queueURL`. -/
def Client.queueURL (c : Client) (queue : Bytes) (s : List Bytes) : Bytes :=
  let s := [ascii "queues", queue] ++ s
  let tail := join urlPath s
  c.baseServerURL ++ ascii "/" ++ tail

/-- The request of `CreateQueue`. -/
def Client.createQueue (c : Client) (queue : Bytes) : Request :=
  { method := .put, url := c.queueURL queue [], body := [] }

/-- The request of `DeleteQueue`. -/
def Client.deleteQueue (c : Client) (queue : Bytes) : Request :=
  { method := .delete, url := c.queueURL queue [], body := [] }

/-- The request of `DrainQueue`. -/
def Client.drainQueue (c : Client) (queue : Bytes) : Request :=
  { method := .post, url := c.queueURL queue [ascii "drain"], body := [] }

/-- The request of `Enqueue`. -/
def Client.enqueue (c : Client) (queue data : Bytes) : Request :=
  { method := .post, url := c.queueURL queue [ascii "enqueue"], body := data }

/-- The request of `Dequeue`. -/
def Client.dequeue (c : Client) (queue : Bytes) : Request :=
  { method := .post, url := c.queueURL queue [ascii "dequeue"], body := [] }

/-- The operations of the client. -/
inductive Op where
  | createQueue
  | deleteQueue
  | drainQueue
  | enqueue (data : Bytes)
  | dequeue

/-- The request of an operation. -/
def Client.request (c : Client) (queue : Bytes) : Op → Request
  | .createQueue => c.createQueue queue
  | .deleteQueue => c.deleteQueue queue
  | .drainQueue => c.drainQueue queue
  | .enqueue data => c.enqueue queue data
  | .dequeue => c.dequeue queue

/-- `errorFromResponse`, where nothing is returned but the error. -/
def errorFromResponse (r : Reply) : Except ClientError (Option Message) :=
  if 300 ≤ r.status then .error (.http r.status) else .ok none

/-- `Client.Enqueue` after the request. -/
def clientEnqueue (r : Reply) : Except ClientError (Option Message) :=
  if 300 ≤ r.status then .error (.http r.status)
  else
    match r.body with
    | .json m => .ok (some m)
    | _ => .error .decode

/-- What an operation returns after the request. -/
def Op.returned (op : Op) (r : Reply) : Except ClientError (Option Message) :=
  match op with
  | .enqueue _ => clientEnqueue r
  | .dequeue => clientDequeue r
  | _ => errorFromResponse r

/-! ## The handlers -/

/-- What a message is made with: the random bytes that are read and the time. -/
structure Moment where
  read : Except String (Vector UInt8 16)
  now : Nat

/-- `http.Error` and `ServeJSON`, after a result of the broker. -/
def replyOf : Result → Reply
  | .nil => ⟨200, .empty⟩
  | .message m => ⟨200, .json m⟩
  | .error e => ⟨400, .text (errorText e)⟩

/-- `Server.CreateQueue`. -/
def createQueue (b : Broker) (qName : Bytes) : Reply × Broker :=
  if qName = [] then (emptyNameReply, b)
  else
    let r := b.createQueue (goString qName)
    (replyOf r.1, r.2)

/-- `Server.DeleteQueue`. -/
def deleteQueue (b : Broker) (qName : Bytes) : Reply × Broker :=
  if qName = [] then (emptyNameReply, b)
  else
    let r := b.deleteQueue (goString qName)
    (replyOf r.1, r.2)

/-- `Server.DrainQueue`. -/
def drainQueue (b : Broker) (qName : Bytes) : Reply × Broker :=
  if qName = [] then (emptyNameReply, b)
  else
    let r := b.drainQueue (goString qName)
    (replyOf r.1, r.2)

/-- `Server.Enqueue`, with the body that was read. -/
def enqueue (t : Moment) (b : Broker) (qName body : Bytes) : Reply × Broker :=
  if qName = [] then (emptyNameReply, b)
  else
    match b.getQueue (goString qName) with
    | .error e => (replyOf (.error e), b)
    | .ok p =>
        let r := b.putMessage p (newMessage t.read t.now (goString body))
        (replyOf r.1, r.2)

/-- `Server.Dequeue`. -/
def dequeue (b : Broker) (qName : Bytes) : Reply × Broker :=
  if qName = [] then (emptyNameReply, b)
  else
    match b.getQueue (goString qName) with
    | .error e => (replyOf (.error e), b)
    | .ok p =>
        match b.getMessage p with
        | (.error .emptyQueue, b) => (⟨204, .empty⟩, b)
        | (r, b) => (replyOf r, b)

/-- The handlers of `AddRoutes` that take a queue. -/
inductive Handler where
  | createQueue
  | deleteQueue
  | drainQueue
  | dequeue
  | enqueue
  deriving DecidableEq, Repr

/-- What a handler does. -/
def Handler.serve (h : Handler) (t : Moment) (b : Broker)
    (qName body : Bytes) : Reply × Broker :=
  match h with
  | .createQueue => QueueNames.createQueue b qName
  | .deleteQueue => QueueNames.deleteQueue b qName
  | .drainQueue => QueueNames.drainQueue b qName
  | .dequeue => QueueNames.dequeue b qName
  | .enqueue => QueueNames.enqueue t b qName body

/-- The handler of the same operation. -/
def Op.handler : Op → Handler
  | .createQueue => .createQueue
  | .deleteQueue => .deleteQueue
  | .drainQueue => .drainQueue
  | .enqueue _ => .enqueue
  | .dequeue => .dequeue

/-! ## The routes -/

/-- `AddRoutes`: the method, what follows `base+"/queues/:queue"`, and the
    handler. -/
def addRoutes : List (Method × List Bytes × Handler) :=
  [(.put, [], .createQueue), (.delete, [], .deleteQueue),
    (.post, [ascii "drain"], .drainQueue),
    (.post, [ascii "dequeue"], .dequeue),
    (.post, [ascii "enqueue"], .enqueue)]

/-- The router: `:queue` is bound to one segment of the path. -/
def route (base : Bytes) (m : Method) (path : Bytes) :
    Option (Handler × Bytes) :=
  if base ++ ascii "/queues/" <+: path then
    match comps urlPath (path.drop (base ++ ascii "/queues/").length) with
    | [] => none
    | qName :: s =>
        if qName = [] then none
        else
          (addRoutes.find? fun r => r.1 = m ∧ r.2.1 = s).map fun r =>
            (r.2.2, qName)
  else none

/-- Where a request ends up: in a handler of the queues, or with an answer from
    somewhere else. -/
inductive Landing where
  | handler (h : Handler) (qName : Bytes)
  | answered (r : Reply)
  deriving DecidableEq

/-- The paths that `NewApp` adds the routes under. -/
def bases : List Bytes :=
  [ascii "/memq/server", ascii "/a/memq/server", ascii "/b/memq/server",
    ascii "/c/memq/server"]

/-- A server and its address.  What becomes of a path that is none of the
    routes is a parameter: the router may redirect it, and the application has
    other handlers.  A queue that it is led to nevertheless is named by one of
    the segments of the path. -/
structure Site where
  host : Bytes
  base : Bytes
  hostOk : Bytes → Bool
  rest : Method → Bytes → Bytes → Landing
  host_clean : Clean host
  host_noSlash : byte '/' ∉ host
  host_ok : hostOk host
  base_mem : base ∈ bases
  rest_segment : ∀ m path body h qName,
    rest m path body = .handler h qName → qName ∈ comps urlPath path

/-- The client of a server. -/
def Site.client (s : Site) : Client :=
  { baseServerURL := ascii "http://" ++ s.host ++ s.base }

/-- Where the router sends a request. -/
def Site.routed (s : Site) (m : Method) (path body : Bytes) : Landing :=
  match route s.base m path with
  | some found => .handler found.1 found.2
  | none => s.rest m path body

/-- `http.NewRequest` and `http.DefaultClient.Do`: where a request ends up, if
    its URL can be parsed.  A space in the query breaks the request line. -/
def Site.land (s : Site) (r : Request) : Option Landing :=
  match parse s.hostOk r.url with
  | none => none
  | some u =>
      if byte ' ' ∈ u.rawQuery then
        some (.answered ⟨400, .text "400 Bad Request"⟩)
      else some (s.routed r.method u.path r.body)

/-- A request and its answer, if one was sent. -/
def Site.exchange (s : Site) (t : Moment) (b : Broker) (r : Request) :
    Option Reply × Broker :=
  match s.land r with
  | none => (none, b)
  | some (.answered reply) => (some reply, b)
  | some (.handler h qName) =>
      let served := h.serve t b qName r.body
      (some served.1, served.2)

/-! ## Agreement -/

/-- The client returns an error: of the request itself, or after the reply. -/
def Op.Fails (op : Op) : Option Reply → Prop
  | none => True
  | some r => ∃ e, op.returned r = .error e

/-- Whatever there is at the server, the operation either changes nothing and
    returns an error, or it is routed to its own handler with the name it was
    called with. -/
def Agrees (s : Site) (op : Op) (queue : Bytes) : Prop :=
  ∀ (t : Moment) (b : Broker),
    let r := s.client.request queue op
    ((s.exchange t b r).2 = b ∧ op.Fails (s.exchange t b r).1)
      ∨ s.land r = some (.handler op.handler queue)

/-- The queue that an operation acts on, if its request gets to a handler that
    does not refuse the name. -/
def ActsOn (s : Site) (op : Op) (queue : Bytes) (q : String) : Prop :=
  ∃ h qName, qName ≠ [] ∧
    s.land (s.client.request queue op) = some (.handler h qName) ∧
    q = goString qName

/-- What follows the name in the path. -/
def Op.suffix : Op → List Bytes
  | .createQueue => []
  | .deleteQueue => []
  | .drainQueue => [ascii "drain"]
  | .enqueue _ => [ascii "enqueue"]
  | .dequeue => [ascii "dequeue"]

/-- The method of an operation. -/
def Op.method : Op → Method
  | .createQueue => .put
  | .deleteQueue => .delete
  | _ => .post

/-- The body of an operation. -/
def Op.body : Op → Bytes
  | .enqueue data => data
  | _ => []

/-- What is put behind the address: the cleaned path. -/
def tail (op : Op) (queue : Bytes) : Bytes :=
  join urlPath ([ascii "queues", queue] ++ op.suffix)

/-- The part of a text that is its path. -/
def pathText (s : Bytes) : Bytes := before (byte '?') (before (byte '#') s)

/-- A name that means nothing to a path or to a URL. -/
structure Plain (queue : Bytes) : Prop where
  name : Name urlPath queue
  slash : byte '/' ∉ queue
  question : byte '?' ∉ queue
  number : byte '#' ∉ queue
  percent : byte '%' ∉ queue

/-- A text that no request can be made of: a control byte before the first `#`,
    an escape without two hexadecimal digits in the path or behind the `#`, or a
    space in the query. -/
def Malformed (s : Bytes) : Prop :=
  (∃ b ∈ before (byte '#') s, isControl b) ∨ unescape (pathText s) = none
    ∨ unescape (after (byte '#') s) = none
    ∨ byte ' ' ∈ after (byte '?') (before (byte '#') s)

/-- A text whose decoded path is none of the routes, and which the rest of the
    server answers with an error. -/
def Astray (s : Site) (op : Op) (tail : Bytes) : Prop :=
  ∃ p, unescape (pathText tail) = some p ∧
    route s.base op.method (s.base ++ ascii "/" ++ p) = none ∧
    ∃ l, s.rest op.method (s.base ++ ascii "/" ++ p) op.body = l ∧
      ((∃ r, l = .answered r ∧ op.Fails (some r)) ∨ ∃ h, l = .handler h [])

/-! ## Where a request ends up -/

/-- The paths of the server are plain texts. -/
theorem bases_clean : ∀ base ∈ bases, Clean (base ++ ascii "/") ∧
    (base ++ ascii "/").head? = some (byte '/') := by
  have hall : ∀ base ∈ bases, ((base ++ ascii "/").all fun b =>
      decide (isControl b = false ∧ b ≠ byte '#' ∧ b ≠ byte '?'
        ∧ b ≠ byte '%')) = true ∧
      (base ++ ascii "/").head? = some (byte '/') := by decide
  exact fun base hb => ⟨clean_of_all (hall base hb).1, (hall base hb).2⟩

/-- The words of the client. -/
def words : List Bytes :=
  [ascii "queues", ascii "drain", ascii "enqueue", ascii "dequeue"]

/-- The segments of those paths, and the words, mean nothing to a path or to a
    URL. -/
theorem words_plain : ∀ base ∈ bases, ∀ c ∈ comps urlPath base ++ words,
    c ≠ urlPath.here ∧ c ≠ urlPath.up ∧ byte '?' ∉ c ∧ byte '#' ∉ c ∧
      byte '%' ∉ c := by
  decide

/-- The URL of a request. -/
theorem url_request (s : Site) (op : Op) (queue : Bytes) :
    (s.client.request queue op).url
      = ascii "http://" ++ s.host ++ (s.base ++ ascii "/")
        ++ tail op queue := by
  cases op <;>
    simp [Client.request, Client.createQueue, Client.deleteQueue,
      Client.drainQueue, Client.enqueue, Client.dequeue, Client.queueURL,
      Site.client, tail, Op.suffix]

/-- The method and the body of a request. -/
theorem method_request (s : Site) (op : Op) (queue : Bytes) :
    (s.client.request queue op).method = op.method ∧
      (s.client.request queue op).body = op.body := by
  cases op <;> exact ⟨rfl, rfl⟩

/-- What is read of the URL of a request. -/
theorem parse_request (s : Site) (op : Op) (queue : Bytes) :
    parse s.hostOk (s.client.request queue op).url
      = if (before (byte '#') (tail op queue)).any isControl
          ∨ unescape (after (byte '#') (tail op queue)) = none then none
        else
          (unescape (pathText (tail op queue))).map fun p =>
            { host := s.host, path := s.base ++ ascii "/" ++ p
              rawQuery :=
                after (byte '?') (before (byte '#') (tail op queue)) } := by
  obtain ⟨hclean, hhead⟩ := bases_clean s.base s.base_mem
  rw [url_request]
  exact parse_address s.hostOk s.host_clean s.host_noSlash s.host_ok hclean
    hhead (tail op queue)

/-- A malformed text gets nowhere, or to an error. -/
theorem land_of_malformed {s : Site} {op : Op} {queue : Bytes}
    (h : Malformed (tail op queue)) :
    s.land (s.client.request queue op) = none ∨
      s.land (s.client.request queue op)
        = some (.answered ⟨400, .text "400 Bad Request"⟩) := by
  have hnone : parse s.hostOk (s.client.request queue op).url = none →
      s.land (s.client.request queue op) = none := by
    intro hp
    rw [Site.land, hp]
  have hparse := parse_request s op queue
  rcases h with ⟨b, hb, hc⟩ | hpath | hfrag | hspace
  · rw [if_pos (.inl (List.any_eq_true.2 ⟨b, hb, hc⟩))] at hparse
    exact .inl (hnone hparse)
  · rw [hpath] at hparse
    split at hparse <;> exact .inl (hnone hparse)
  · rw [if_pos (.inr hfrag)] at hparse
    exact .inl (hnone hparse)
  · split at hparse
    · exact .inl (hnone hparse)
    · cases hp : unescape (pathText (tail op queue)) with
      | none =>
          rw [hp] at hparse
          exact .inl (hnone hparse)
      | some p =>
          rw [hp, Option.map_some] at hparse
          rw [Site.land, hparse]
          exact .inr (if_pos hspace)

/-- Every other text gets to the router. -/
theorem land_of_wellFormed {s : Site} {op : Op} {queue : Bytes}
    (h : ¬ Malformed (tail op queue)) :
    ∃ p, unescape (pathText (tail op queue)) = some p ∧
      s.land (s.client.request queue op)
        = some (s.routed op.method (s.base ++ ascii "/" ++ p) op.body) := by
  obtain ⟨hctl, hrest⟩ := not_or.1 h
  obtain ⟨hpath, hrest⟩ := not_or.1 hrest
  obtain ⟨hfrag, hspace⟩ := not_or.1 hrest
  obtain ⟨p, hp⟩ := Option.ne_none_iff_exists'.1 hpath
  refine ⟨p, hp, ?_⟩
  have hany : ¬ (before (byte '#') (tail op queue)).any isControl = true := by
    intro hany
    obtain ⟨b, hb, hc⟩ := List.any_eq_true.1 hany
    exact hctl ⟨b, hb, hc⟩
  obtain ⟨hm, hb⟩ := method_request s op queue
  rw [Site.land, parse_request, if_neg (not_or.2 ⟨hany, hfrag⟩), hp, hm, hb]
  exact if_neg hspace

/-! ## What a handler changes -/

/-- A broker with one queue, which holds one message. -/
def holding (name : String) : Broker where
  queues n := if n = name then some 0 else none
  heap _ := ⟨1, 1, 0, 0, [⟨"message", "", "", 0⟩]⟩
  next := 1

/-- A handler that is given a name changes the queue of that name in some
    state. -/
theorem serve_changes (h : Handler) {qName : Bytes} (hq : qName ≠ [])
    (body : Bytes) : ∃ t b, (h.serve t b qName body).2 ≠ b := by
  have hfound : (holding (goString qName)).queues (goString qName)
      = some 0 := if_pos rfl
  have ht : Moment := { read := .error "", now := 0 }
  cases h with
  | createQueue =>
      refine ⟨ht, newBroker, fun heq => ?_⟩
      have hsame := congrArg (fun b => b.queues (goString qName)) heq
      simp [Handler.serve, createQueue, hq, Broker.createQueue, newBroker]
        at hsame
  | deleteQueue =>
      refine ⟨ht, holding (goString qName), fun heq => ?_⟩
      have hsame := congrArg (fun b => b.queues (goString qName)) heq
      simp [Handler.serve, deleteQueue, hq, Broker.deleteQueue, hfound]
        at hsame
  | drainQueue =>
      refine ⟨ht, holding (goString qName), fun heq => ?_⟩
      have hsame := congrArg (fun b => (b.heap 0).messages) heq
      simp [Handler.serve, drainQueue, hq, Broker.drainQueue,
        Broker.write, Queue.drain, holding] at hsame
  | dequeue =>
      refine ⟨ht, holding (goString qName), fun heq => ?_⟩
      have hsame := congrArg (fun b => (b.heap 0).messages) heq
      simp [Handler.serve, dequeue, hq, Broker.getQueue,
        Broker.getMessage, Queue.getMessage, Broker.write, holding] at hsame
  | enqueue =>
      refine ⟨{ read := .ok (Vector.replicate 16 0), now := 0 },
        holding (goString qName), fun heq => ?_⟩
      have hsame := congrArg (fun b => (b.heap 0).messages) heq
      simp [Handler.serve, enqueue, hq, Broker.getQueue,
        Broker.putMessage, newMessage, uuid, Broker.write, Queue.putMessage,
        holding] at hsame

/-- Without a name nothing is changed. -/
theorem serve_nil (h : Handler) (t : Moment) (b : Broker) (body : Bytes) :
    h.serve t b [] body = (emptyNameReply, b) := by
  cases h <;> rfl

/-- Every operation returns an error for a status that reports one. -/
theorem fails_of_status (op : Op) {r : Reply} (h : 300 ≤ r.status) :
    op.Fails (some r) := by
  cases op <;>
    exact ⟨.http r.status, if_pos h⟩

/-- Agreement depends on where the request ends up alone. -/
theorem agrees_iff_land (s : Site) (op : Op) (queue : Bytes) :
    Agrees s op queue ↔
      s.land (s.client.request queue op) = none ∨
      (∃ r, s.land (s.client.request queue op) = some (.answered r) ∧
        op.Fails (some r)) ∨
      (∃ h, s.land (s.client.request queue op) = some (.handler h [])) ∨
      s.land (s.client.request queue op)
        = some (.handler op.handler queue) := by
  constructor
  · intro h
    cases hl : s.land (s.client.request queue op) with
    | none => exact .inl rfl
    | some l =>
        cases l with
        | answered r =>
            rcases h { read := .error "", now := 0 } newBroker with h | h
            · refine .inr (.inl ⟨r, rfl, ?_⟩)
              have hfails := h.2
              rw [Site.exchange, hl] at hfails
              exact hfails
            · rw [hl] at h
              exact absurd h (by simp)
        | handler hd qName =>
            by_cases hq : qName = []
            · subst hq
              exact .inr (.inr (.inl ⟨hd, rfl⟩))
            · obtain ⟨t, b, hne⟩ := serve_changes hd hq
                (s.client.request queue op).body
              rcases h t b with h | h
              · have hsame := h.1
                rw [Site.exchange, hl] at hsame
                exact absurd hsame hne
              · exact .inr (.inr (.inr (hl ▸ h)))
  · intro h t b
    dsimp only
    rcases h with h | ⟨r, h, hf⟩ | ⟨hd, h⟩ | h
    · rw [Site.exchange, h]
      exact .inl ⟨rfl, trivial⟩
    · rw [Site.exchange, h]
      exact .inl ⟨rfl, hf⟩
    · rw [Site.exchange, h]
      simp only [serve_nil, true_and]
      exact .inl (fails_of_status op (by decide))
    · exact .inr h

/-- An agreed operation that gets to a handler gets there with its own name. -/
theorem name_of_agrees {s : Site} {op : Op} {queue : Bytes}
    (h : Agrees s op queue) {hd : Handler} {qName : Bytes}
    (hl : s.land (s.client.request queue op) = some (.handler hd qName))
    (hne : qName ≠ []) : qName = queue := by
  rw [agrees_iff_land, hl] at h
  rcases h with h | ⟨r, h, -⟩ | ⟨hd', h⟩ | h
  · cases h
  · cases h
  · exact absurd (Landing.handler.inj (Option.some.inj h)).2 hne
  · exact (Landing.handler.inj (Option.some.inj h)).2

/-- Operations on different names never act on the same queue, as long as
    client and server agree on both. -/
theorem eq_of_agrees {s : Site} {op op' : Op} {queue queue' : Bytes}
    {q : String} (h : Agrees s op queue) (h' : Agrees s op' queue')
    (hq : ActsOn s op queue q) (hq' : ActsOn s op' queue' q) :
    queue' = queue := by
  obtain ⟨hd, qName, hne, hl, rfl⟩ := hq
  obtain ⟨hd', qName', hne', hl', heq⟩ := hq'
  rw [← name_of_agrees h hl hne, ← name_of_agrees h' hl' hne']
  exact (goString_inj.1 heq).symm

/-! ## Plain names -/

/-- The words that may follow a name. -/
theorem suffix_mem (op : Op) : op.suffix ∈
    [[], [ascii "drain"], [ascii "enqueue"], [ascii "dequeue"]] := by
  cases op <;> simp [Op.suffix]

/-- What follows a name are words. -/
theorem mem_words_of_suffix {op : Op} {c : Bytes} (h : c ∈ op.suffix) :
    c ∈ words := by
  have hall : ∀ s ∈ [[], [ascii "drain"], [ascii "enqueue"],
      [ascii "dequeue"]], ∀ c ∈ s, c ∈ words := by decide
  exact hall _ (suffix_mem op) c h

/-- The components of a request for a name without a slash. -/
theorem names_request (op : Op) {queue : Bytes}
    (hn : Name urlPath queue) (hs : byte '/' ∉ queue) :
    ∀ c ∈ [ascii "queues", queue] ++ op.suffix,
      Name urlPath c ∧ byte '/' ∉ c := by
  have hwords : ∀ c ∈ words, Name urlPath c ∧ byte '/' ∉ c := by
    unfold Name
    decide
  intro c hc
  rcases List.mem_append.1 hc with hc | hc
  · rcases List.mem_cons.1 hc with rfl | hc
    · exact hwords _ List.mem_cons_self
    · obtain rfl := List.mem_singleton.1 hc
      exact ⟨hn, hs⟩
  · exact hwords c (mem_words_of_suffix hc)

/-- Such a name is joined as it is. -/
theorem tail_of_name (op : Op) {queue : Bytes} (hn : Name urlPath queue)
    (hs : byte '/' ∉ queue) :
    tail op queue = ascii "queues" ++ byte '/' ::
      unsplit urlPath (queue :: op.suffix) := by
  calc tail op queue
      = unsplit urlPath ([ascii "queues"] ++ queue :: op.suffix) :=
        join_names urlPath (names_request op hn hs)
    _ = unsplit urlPath [ascii "queues"] ++ byte '/' ::
          unsplit urlPath (queue :: op.suffix) :=
        unsplit_append urlPath (by simp) (by simp)
    _ = ascii "queues" ++ byte '/' ::
          unsplit urlPath (queue :: op.suffix) := by simp [unsplit]

/-- The route of a path with the name as a segment of its own. -/
theorem route_of_name (base : Bytes) (op : Op) {queue : Bytes}
    (hn : Name urlPath queue) (hs : byte '/' ∉ queue) :
    route base op.method (base ++ ascii "/" ++ (ascii "queues" ++ byte '/' ::
      unsplit urlPath (queue :: op.suffix))) = some (op.handler, queue) := by
  have hpath : base ++ ascii "/" ++ (ascii "queues" ++ byte '/' ::
      unsplit urlPath (queue :: op.suffix))
      = base ++ ascii "/queues/" ++ unsplit urlPath (queue :: op.suffix) := by
    have hword : ascii "/queues/" = ascii "/" ++ ascii "queues" ++ [byte '/'] :=
      by decide
    rw [hword]
    simp
  have hcomps : comps urlPath (unsplit urlPath (queue :: op.suffix))
      = queue :: op.suffix := by
    refine comps_unsplit urlPath (fun c hc => ?_) (by simp)
    exact (names_request op hn hs c (List.mem_cons_of_mem _ hc)).2
  rw [hpath, route, if_pos (List.prefix_append _ _), List.drop_left, hcomps]
  simp only [if_neg hn.1]
  cases op <;> rfl

/-- What follows the name in the text, and is decoded to itself. -/
theorem tail_split (op : Op) {queue : Bytes} (hn : Name urlPath queue)
    (hs : byte '/' ∉ queue) :
    ∃ t, tail op queue = ascii "queues/" ++ (queue ++ t) ∧
      (t = [] ∨ ∃ w ∈ [ascii "drain", ascii "enqueue", ascii "dequeue"],
        t = byte '/' :: w) := by
  have hword : ascii "queues/" = ascii "queues" ++ [byte '/'] := by decide
  have htail := tail_of_name op hn hs
  rw [htail, hword]
  cases op with
  | createQueue => exact ⟨[], by simp [unsplit, Op.suffix], .inl rfl⟩
  | deleteQueue => exact ⟨[], by simp [unsplit, Op.suffix], .inl rfl⟩
  | drainQueue => exact ⟨byte '/' :: ascii "drain",
      by simp [unsplit, Op.suffix, urlPath], .inr ⟨_, by simp, rfl⟩⟩
  | enqueue data => exact ⟨byte '/' :: ascii "enqueue",
      by simp [unsplit, Op.suffix, urlPath], .inr ⟨_, by simp, rfl⟩⟩
  | dequeue => exact ⟨byte '/' :: ascii "dequeue",
      by simp [unsplit, Op.suffix, urlPath], .inr ⟨_, by simp, rfl⟩⟩

/-- The bytes of the text of a request. -/
theorem mem_tail (op : Op) {queue : Bytes} (hn : Name urlPath queue)
    (hs : byte '/' ∉ queue) {b : UInt8} (h : b ∈ tail op queue) :
    b ∈ queue ∨ b = byte '/' ∨ ∃ w ∈ words, b ∈ w := by
  rw [tail_of_name op hn hs] at h
  rcases List.mem_append.1 h with h | h
  · exact .inr (.inr ⟨ascii "queues", List.mem_cons_self, h⟩)
  rcases List.mem_cons.1 h with rfl | h
  · exact .inr (.inl rfl)
  rcases mem_of_mem_unsplit urlPath h with rfl | ⟨c, hc, hbc⟩
  · exact .inr (.inl rfl)
  rcases List.mem_cons.1 hc with rfl | hc
  · exact .inl hbc
  · exact .inr (.inr ⟨c, mem_words_of_suffix hc, hbc⟩)

/-- The text of a request for a plain name means nothing to a URL. -/
theorem plain_tail (op : Op) {queue : Bytes} (h : Plain queue) :
    byte '?' ∉ tail op queue ∧ byte '#' ∉ tail op queue ∧
      byte '%' ∉ tail op queue := by
  have hwords : ∀ w ∈ words, byte '?' ∉ w ∧ byte '#' ∉ w ∧ byte '%' ∉ w := by
    decide
  refine ⟨?_, ?_, ?_⟩ <;> intro hb <;>
    rcases mem_tail op h.name h.slash hb with hb | hb | ⟨w, hw, hb⟩
  · exact h.question hb
  · exact absurd hb (by decide)
  · exact (hwords w hw).1 hb
  · exact h.number hb
  · exact absurd hb (by decide)
  · exact (hwords w hw).2.1 hb
  · exact h.percent hb
  · exact absurd hb (by decide)
  · exact (hwords w hw).2.2 hb

/-- A plain name gets to its own handler, unless no request can be made of
    it. -/
theorem land_of_plain (s : Site) (op : Op) {queue : Bytes}
    (h : Plain queue) (hm : ¬ Malformed (tail op queue)) :
    s.land (s.client.request queue op)
      = some (.handler op.handler queue) := by
  obtain ⟨hque, hnum, hpct⟩ := plain_tail op h
  obtain ⟨p, hp, hland⟩ := land_of_wellFormed (s := s) hm
  rw [pathText, before_of_notMem hnum, before_of_notMem hque,
    unescape_of_notMem hpct] at hp
  obtain rfl := Option.some.inj hp
  rw [hland, Site.routed, tail_of_name op h.name h.slash,
    route_of_name s.base op h.name h.slash]

/-- A request can be made of a plain name exactly when there is no control byte
    in it. -/
theorem malformed_iff_control (op : Op) {queue : Bytes} (h : Plain queue) :
    Malformed (tail op queue) ↔ ∃ b ∈ queue, isControl b := by
  have hwords : ∀ w ∈ words, (w.all fun b => ! isControl b) = true := by
    decide
  obtain ⟨hque, hnum, hpct⟩ := plain_tail op h
  rw [Malformed, pathText, before_of_notMem hnum, before_of_notMem hque,
    after_of_notMem hnum, after_of_notMem hque, unescape_of_notMem hpct]
  constructor
  · rintro (⟨b, hb, hc⟩ | h' | h' | h')
    · rcases mem_tail op h.name h.slash hb with hb | rfl | ⟨w, hw, hb⟩
      · exact ⟨b, hb, hc⟩
      · exact absurd hc (by decide)
      · have hno := List.all_eq_true.1 (hwords w hw) b hb
        rw [hc] at hno
        cases hno
    · cases h'
    · cases h'
    · cases h'
  · rintro ⟨b, hb, hc⟩
    obtain ⟨t, ht, -⟩ := tail_split op h.name h.slash
    exact .inl ⟨b, by rw [ht]; simp [hb], hc⟩

/-! ## All other names -/

/-- Of a name with a `?` or a `#`, less than the name is left in the path. -/
theorem length_pathText_lt {queue : Bytes}
    (h : byte '?' ∈ queue ∨ byte '#' ∈ queue) (t : Bytes) :
    (pathText (queue ++ t)).length < queue.length := by
  by_cases hn : byte '#' ∈ queue
  · rw [pathText, before_append_of_mem hn]
    exact Nat.lt_of_le_of_lt (length_before_le _ _) (length_before_lt hn)
  · have hq : byte '?' ∈ queue := h.resolve_right hn
    rw [pathText, before_append hn, before_append_of_mem hq]
    exact length_before_lt hq

/-- A name that is no path component cannot be named by one. -/
theorem dots_not_mem : ∀ s ∈ [[], [ascii "drain"], [ascii "enqueue"],
    [ascii "dequeue"]], ∀ q ∈ [urlPath.here, urlPath.up],
    ∀ p ∈ (unescape (pathText (join urlPath ([ascii "queues", q] ++ s)))).toList,
      q ∉ comps urlPath p := by
  decide +kernel

/-- A word of the client is decoded to itself. -/
theorem decode_words : ∀ w ∈ [ascii "drain", ascii "enqueue",
    ascii "dequeue"], unescape w = some w ∧ comps urlPath w = [w] ∧
      pathText (byte '/' :: w) = byte '/' :: w ∧ byte '%' ∉ w := by
  decide +kernel

/-- A name with a `?`, a `#` or a `%` is no segment of what is decoded of it:
    cutting and decoding have made it shorter. -/
theorem not_mem_of_special {queue t p : Bytes}
    (ht : t = [] ∨ ∃ w ∈ [ascii "drain", ascii "enqueue", ascii "dequeue"],
      t = byte '/' :: w)
    (h : byte '?' ∈ queue ∨ byte '#' ∈ queue ∨ byte '%' ∈ queue)
    (hp : unescape (pathText (queue ++ t)) = some p) :
    queue ∉ comps urlPath p := by
  intro hmem
  by_cases hcut : byte '?' ∈ queue ∨ byte '#' ∈ queue
  · have h1 := length_of_mem_comps urlPath hmem
    have h2 := (length_of_unescape hp).1
    have h3 := length_pathText_lt hcut t
    omega
  · obtain ⟨hque, hnum⟩ := not_or.1 hcut
    have hpct : byte '%' ∈ queue := (h.resolve_left hque).resolve_left hnum
    have hshort : ∀ x, unescape queue = some x →
        queue ∉ comps urlPath x := by
      intro x hx hmem
      have h1 := length_of_mem_comps urlPath hmem
      have h2 := (length_of_unescape hx).2 hpct
      omega
    have htext : pathText (queue ++ t) = queue ++ pathText t := by
      rw [pathText, before_append hnum, before_append hque, pathText]
    rcases ht with rfl | ⟨w, hw, rfl⟩
    · rw [htext, show pathText [] = [] from rfl, List.append_nil] at hp
      exact hshort p hp hmem
    · obtain ⟨hdec, hcomps, hplain, hnot⟩ := decode_words w hw
      rw [htext, hplain, unescape_append_cons (by decide) (by decide),
        hdec] at hp
      obtain ⟨x, hx, hp⟩ := Option.bind_eq_some_iff.1 hp
      obtain rfl := Option.some.inj hp
      have hsplit : comps urlPath (x ++ byte '/' :: w)
          = comps urlPath x ++ comps urlPath w :=
        comps_append_slash urlPath x w
      rw [hsplit, hcomps] at hmem
      rcases List.mem_append.1 hmem with hmem | hmem
      · exact hshort x hx hmem
      · obtain rfl := List.mem_singleton.1 hmem
        exact hnot hpct

/-- What the text of a request is decoded to: the first word, and what is
    decoded of the name and what follows it. -/
theorem decode_tail {op : Op} {queue p : Bytes} (hn : Name urlPath queue)
    (hs : byte '/' ∉ queue)
    (hp : unescape (pathText (tail op queue)) = some p) :
    ∃ t p', (t = [] ∨ ∃ w ∈ [ascii "drain", ascii "enqueue",
        ascii "dequeue"], t = byte '/' :: w) ∧
      unescape (pathText (queue ++ t)) = some p' ∧
      comps urlPath p = ascii "queues" :: comps urlPath p' := by
  obtain ⟨t, htail, ht⟩ := tail_split op hn hs
  have hword : byte '#' ∉ ascii "queues/" ∧ byte '?' ∉ ascii "queues/" ∧
      byte '%' ∉ ascii "queues/" ∧
      ascii "queues/" = ascii "queues" ++ [byte '/'] := by decide
  obtain ⟨hnum, hque, hpct, hqueues⟩ := hword
  have htext : pathText (ascii "queues/" ++ (queue ++ t))
      = ascii "queues/" ++ pathText (queue ++ t) := by
    rw [pathText, before_append hnum, before_append hque, pathText]
  rw [htail, htext, unescape_append hpct] at hp
  obtain ⟨p', hp', rfl⟩ := Option.map_eq_some_iff.1 hp
  refine ⟨t, p', ht, hp', ?_⟩
  have hcomps : comps urlPath (ascii "queues/" ++ p')
      = comps urlPath (ascii "queues") ++ comps urlPath p' := by
    rw [hqueues, List.append_assoc]
    exact comps_append_slash urlPath (ascii "queues") p'
  have hone : comps urlPath (ascii "queues") = [ascii "queues"] :=
    comps_of_notMem urlPath (by decide)
  rw [hcomps, hone, List.singleton_append]

/-- **A name that is not plain is not a segment of its own path.** -/
theorem not_mem_comps {base : Bytes} (hb : base ∈ bases) (op : Op)
    {queue p : Bytes} (hne : queue ≠ []) (hplain : ¬ Plain queue)
    (hp : unescape (pathText (tail op queue)) = some p) :
    queue ∉ comps urlPath (base ++ ascii "/" ++ p) := by
  by_cases hs : byte '/' ∈ queue
  · exact fun hmem => slash_notMem_of_mem_comps urlPath hmem hs
  have hsplit : comps urlPath (base ++ ascii "/" ++ p)
      = comps urlPath base ++ comps urlPath p := by
    rw [List.append_assoc]
    exact comps_append_slash urlPath base p
  have hbase := words_plain base hb
  rw [hsplit, List.mem_append, not_or]
  by_cases hdots : queue = urlPath.here ∨ queue = urlPath.up
  · refine ⟨fun hmem => ?_, ?_⟩
    · obtain ⟨h1, h2, -⟩ := hbase queue (List.mem_append_left _ hmem)
      exact hdots.elim h1 h2
    · have hmem : queue ∈ [urlPath.here, urlPath.up] := by
        simpa using hdots
      exact dots_not_mem _ (suffix_mem op) queue hmem p (by
        rw [show join urlPath ([ascii "queues", queue] ++ op.suffix)
          = tail op queue from rfl, hp]
        simp)
  · obtain ⟨hhere, hup⟩ := not_or.1 hdots
    have hn : Name urlPath queue := ⟨hne, hhere, hup⟩
    have hspecial : byte '?' ∈ queue ∨ byte '#' ∈ queue ∨
        byte '%' ∈ queue := by
      by_contra hno
      exact hplain ⟨hn, hs, fun h => hno (.inl h),
        fun h => hno (.inr (.inl h)), fun h => hno (.inr (.inr h))⟩
    have hnot : ∀ c ∈ comps urlPath base ++ words, queue ≠ c := by
      rintro c hc rfl
      obtain ⟨-, -, h1, h2, h3⟩ := hbase queue hc
      rcases hspecial with h | h | h
      · exact h1 h
      · exact h2 h
      · exact h3 h
    obtain ⟨t, p', ht, hp', hcomps⟩ := decode_tail hn hs hp
    refine ⟨fun hmem => hnot queue (List.mem_append_left _ hmem) rfl, ?_⟩
    rw [hcomps]
    intro hmem
    rcases List.mem_cons.1 hmem with hmem | hmem
    · exact hnot (ascii "queues")
        (List.mem_append_right _ List.mem_cons_self) hmem
    · exact not_mem_of_special ht hspecial hp' hmem

/-- What a route binds is a segment of the path, and not empty. -/
theorem of_route {base path : Bytes} {m : Method} {found : Handler × Bytes}
    (h : route base m path = some found) :
    found.2 ≠ [] ∧ found.2 ∈ comps urlPath path := by
  unfold route at h
  split at h
  · rename_i hp
    obtain ⟨y, rfl⟩ := hp
    rw [List.drop_left] at h
    have hsplit : comps urlPath (base ++ ascii "/queues/" ++ y)
        = comps urlPath (base ++ ascii "/queues") ++ comps urlPath y := by
      have hword : ascii "/queues/" = ascii "/queues" ++ [byte '/'] := by
        decide
      rw [hword, ← List.append_assoc, List.append_assoc]
      exact comps_append_slash urlPath (base ++ ascii "/queues") y
    split at h
    · cases h
    · rename_i qName rest hc
      split at h
      · cases h
      · rename_i hne
        obtain ⟨r, -, rfl⟩ := Option.map_eq_some_iff.1 h
        refine ⟨hne, ?_⟩
        rw [hsplit, hc]
        simp
  · cases h

/-- No request for a name that is not plain gets to a handler with that
    name. -/
theorem ne_of_land {s : Site} {op : Op} {queue : Bytes}
    (hplain : ¬ Plain queue) {h : Handler} {qName : Bytes}
    (hl : s.land (s.client.request queue op) = some (.handler h qName))
    (hne : qName ≠ []) : queue ≠ qName := by
  rintro rfl
  by_cases hm : Malformed (tail op queue)
  · rcases land_of_malformed (s := s) hm with h | h <;> rw [hl] at h
    · cases h
    · cases h
  · obtain ⟨p, hp, hland⟩ := land_of_wellFormed (s := s) hm
    refine not_mem_comps s.base_mem op hne hplain hp ?_
    rw [hl] at hland
    have hrouted := Option.some.inj hland
    unfold Site.routed at hrouted
    cases hr : route s.base op.method (s.base ++ ascii "/" ++ p) with
    | some found =>
        rw [hr] at hrouted
        rw [(Landing.handler.inj hrouted).2]
        exact (of_route hr).2
    | none =>
        rw [hr] at hrouted
        exact s.rest_segment _ _ _ _ _ hrouted.symm

/-- The condition under which client and server agree on a name. -/
theorem agrees_iff (s : Site) (op : Op) (queue : Bytes) :
    Agrees s op queue ↔
      Plain queue ∨ Malformed (tail op queue) ∨
        Astray s op (tail op queue) := by
  rw [agrees_iff_land]
  by_cases hm : Malformed (tail op queue)
  · refine ⟨fun _ => .inr (.inl hm), fun _ => ?_⟩
    rcases land_of_malformed (s := s) hm with h | h
    · exact .inl h
    · exact .inr (.inl ⟨_, h, fails_of_status op (by decide)⟩)
  by_cases hplain : Plain queue
  · exact ⟨fun _ => .inl hplain,
      fun _ => .inr (.inr (.inr (land_of_plain s op hplain hm)))⟩
  obtain ⟨p, hp, hland⟩ := land_of_wellFormed (s := s) hm
  constructor
  · intro h
    refine .inr (.inr ⟨p, hp, ?_⟩)
    cases hr : route s.base op.method (s.base ++ ascii "/" ++ p) with
    | some found =>
        have hfound : s.land (s.client.request queue op)
            = some (.handler found.1 found.2) := by
          rw [hland, Site.routed, hr]
        have hne := (of_route hr).1
        have hother := ne_of_land hplain hfound hne
        rw [hfound] at h
        rcases h with h | ⟨r, h, -⟩ | ⟨hd, h⟩ | h
        · cases h
        · cases h
        · exact absurd (Landing.handler.inj (Option.some.inj h)).2 hne
        · exact absurd (Landing.handler.inj (Option.some.inj h)).2.symm
            hother
    | none =>
        refine ⟨rfl, _, rfl, ?_⟩
        have hrest : s.land (s.client.request queue op)
            = some (s.rest op.method (s.base ++ ascii "/" ++ p) op.body) := by
          rw [hland, Site.routed, hr]
        rcases h with h | ⟨r, h, hf⟩ | ⟨hd, h⟩ | h
        · exact absurd (hrest.symm.trans h) (by simp)
        · exact .inl ⟨r, Option.some.inj (hrest.symm.trans h), hf⟩
        · exact .inr ⟨hd, Option.some.inj (hrest.symm.trans h)⟩
        · by_cases hne : queue = []
          · subst hne
            exact .inr ⟨op.handler, Option.some.inj (hrest.symm.trans h)⟩
          · exact absurd rfl (ne_of_land hplain h hne)
  · rintro (h | h | ⟨p', hp', hr, l, hl, h⟩)
    · exact absurd h hplain
    · exact absurd h hm
    · obtain rfl : p = p' := Option.some.inj (hp.symm.trans hp')
      rw [hland, Site.routed, hr]
      rcases h with ⟨r, rfl, hf⟩ | ⟨hd, rfl⟩
      · exact .inr (.inl ⟨r, congrArg some hl, hf⟩)
      · exact .inr (.inr (.inl ⟨hd, congrArg some hl⟩))

/-- **When client and server agree on a name**: for every server, operation and
    name, exactly when the name is plain, or no request can be made of it, or
    its path is no route and is answered with an error.  Two names that they
    agree on never lead to the same queue. -/
theorem agrees_iff_plain (s : Site) (op : Op) (queue : Bytes) :
    (Agrees s op queue ↔
      Plain queue ∨ Malformed (tail op queue) ∨
        Astray s op (tail op queue)) ∧
    (Agrees s op queue → ∀ (op' : Op) (queue' : Bytes) (q : String),
      Agrees s op' queue' → ActsOn s op queue q → ActsOn s op' queue' q →
        queue' = queue) :=
  ⟨agrees_iff s op queue, fun h _ _ _ => eq_of_agrees h⟩

/-- A server with nothing else in it. -/
def memq : Site where
  host := ascii "memq:8080"
  base := ascii "/memq/server"
  hostOk _ := true
  rest _ _ _ := .answered ⟨404, .text "404 page not found"⟩
  host_clean := clean_of_all (by decide)
  host_noSlash := by decide
  host_ok := rfl
  base_mem := by decide
  rest_segment := by
    intro m path body h qName heq
    cases heq

/-- To create the queue `a?b` is to create the queue `a`. -/
theorem not_agrees_query : ¬ ∀ (s : Site) (op : Op) (queue : Bytes),
    queue ≠ [] → Agrees s op queue := by
  intro h
  have hland : memq.land (memq.client.request (ascii "a?b") .createQueue)
      = some (.handler .createQueue (ascii "a")) := by decide +kernel
  rcases h memq .createQueue (ascii "a?b") (by decide)
    { read := .error "", now := 0 } newBroker with h | h
  · have hsame := congrArg (fun b => b.queues "a") h.1
    rw [Site.exchange, hland] at hsame
    exact absurd hsame (by decide +kernel)
  · rw [hland] at h
    exact absurd h (by simp [ascii])

end QueueNames
