import KubernetesUpRunning.JsText
import KubernetesUpRunning.MultiplicaApp
import KubernetesUpRunning.RemoteStats
import KubernetesUpRunning.StatsSnapshot

/-! # The page of the queues

    `kuard/client/src/memq.jsx` fetches the statistics once a second and sorts
    them by name.  The server has gone through a map of Go, in an order that
    is another one every time; the page shows the same table nevertheless.
    The names are strings of JavaScript by then and the counters Numbers, which
    hold them for as long as they are at most 2^53. -/

namespace MemqPage

open AsciiText DecimalText JsNumber JsText JsonText JsonValue
open MemqStats QueueNames RemoteStats
open MemqBroker (Pointer)
open MultiplicaApp (parseFloat parseFloat_toString)

/-! ## The page -/

/-- An element of `stats.queues`. -/
structure Row where
  name : JsString
  depth : Number
  enqueued : Number
  dequeued : Number
  drained : Number

/-- `JSON.parse`, for the bodies of the server: these are UTF-8 and hold all
    members.  Elsewhere a lone surrogate becomes U+FFFD here, which the source
    keeps, and a member that is missing is an error, not `undefined`. -/
def jsonParse (s : Bytes) : Option Value :=
  (value s.length s).bind fun r => if skip r.2 = [] then some r.1 else none

/-- A property: of members with the same name the last one counts. -/
def property (ms : List (Bytes × Value)) (name : Bytes) : Option Value :=
  (ms.reverse.find? fun m => m.1 = name).map Prod.snd

/-- A property that is a string. -/
def stringAt (ms : List (Bytes × Value)) (name : Bytes) : Option JsString :=
  match property ms name with
  | some (.str s) => some (jsString s)
  | _ => none

/-- A property that is a number. -/
def numberAt (ms : List (Bytes × Value)) (name : Bytes) : Option Number :=
  match property ms name with
  | some (.num literal) => some (parseFloat (literal.map toChar))
  | _ => none

/-- An object as a row. -/
def rowOf : Value → Option Row
  | .obj ms =>
      (stringAt ms (ascii "name")).bind fun name =>
        (numberAt ms (ascii "depth")).bind fun depth =>
          (numberAt ms (ascii "enqueued")).bind fun enqueued =>
            (numberAt ms (ascii "dequeued")).bind fun dequeued =>
              (numberAt ms (ascii "drained")).map fun drained =>
                ⟨name, depth, enqueued, dequeued, drained⟩
  | _ => none

/-- `response.queues`. -/
def queuesOf : Value → Option (List Row)
  | .obj ms =>
      match property ms (ascii "queues") with
      | some (.arr vs) => vs.mapM rowOf
      | _ => none
  | _ => none

/-- The function that `sort` is called with. -/
def compareNames (a b : Row) : Int :=
  if a.name < b.name then -1 else if b.name < a.name then 1 else 0

/-- `response.queues.sort`. -/
def sortQueues (queues : List Row) : List Row :=
  queues.mergeSort fun a b => decide (compareNames a b ≤ 0)

/-- The path that is fetched, under the `urlBase` of the page. -/
def fetchPath (urlBase : Bytes) : Bytes :=
  urlBase ++ ascii "/memq" ++ ascii "/server/stats"

/-- `fetch`, where `NewApp` has added the routes of the queues. -/
def fetch (urlBase : Bytes) (other : Bytes → Answer) (result : Stats) :
    Answer :=
  if fetchPath urlBase = statsPath (urlBase ++ ascii "/memq/server") then
    getStats result
  else other (fetchPath urlBase)

/-- `fetchError` and `response.json`. -/
def response (r : Answer) : Option (List Row) :=
  if 200 ≤ r.status ∧ r.status < 300 then
    (jsonParse r.body).bind queuesOf
  else none

/-- `loadState`: what the page shows after it, and whether it reports an
    error. -/
def loadState (queues : List Row) (r : Answer) : List Row × Bool :=
  match response r with
  | none => (queues, true)
  | some fetched => (sortQueues fetched, false)

/-! ## What it reads -/

/-- An entry as a row, with its counters as they are. -/
def shown (e : Stat) : Row where
  name := jsString (bytesOf e.name)
  depth := .finite e.depth
  enqueued := .finite e.enqueued
  dequeued := .finite e.dequeued
  drained := .finite e.drained

/-- An integer is read from its text. -/
theorem parseFloat_decimal (n : Int) :
    parseFloat ((decimal n).map toChar) = ofRat n := by
  have hchars : (decimal n).map toChar = (toString n).toList := by
    rw [decimal, ascii, List.map_map]
    refine (List.map_congr_left fun c hc => ?_).trans (List.map_id _)
    obtain ⟨s, m, hs, ⟨htext, -⟩ | ⟨htext, -⟩⟩ := toString_int n
    · rw [htext] at hc
      have hlt := (digit_byte (hs.digits c hc)).1
      exact toChar_byte (by omega)
    · rw [htext] at hc
      rcases List.mem_cons.mp hc with rfl | hc
      · decide
      · have hlt := (digit_byte (hs.digits c hc)).1
        exact toChar_byte (by omega)
  rw [hchars, parseFloat_toString]

/-- The counters lie between zero and 2^53. -/
structure Fits53 (e : Stat) : Prop where
  depth : |e.depth| ≤ 2 ^ 53
  enqueued : |e.enqueued| ≤ 2 ^ 53
  dequeued : |e.dequeued| ≤ 2 ^ 53
  drained : |e.drained| ≤ 2 ^ 53

theorem numberAt_of_property {ms : List (Bytes × Value)} {w : Bytes} {i : Int}
    (h : property ms w = some (.num (decimal i))) (hi : |i| ≤ 2 ^ 53) :
    numberAt ms w = some (.finite i) := by
  rw [numberAt, h]
  exact congrArg some ((parseFloat_decimal i).trans (ofRat_intCast hi))

theorem stringAt_of_property {ms : List (Bytes × Value)} {w s : Bytes}
    (h : property ms w = some (.str (coerce s))) :
    stringAt ms w = some (jsString s) := by
  rw [stringAt, h]
  exact congrArg some (jsString_coerce s)

/-- An entry is read as its row. -/
theorem rowOf_statJSON {e : Stat} (h : Fits53 e) :
    rowOf (coerced (statJSON e)) = some (shown e) := by
  rw [coerced_statJSON, rowOf, stringAt_of_property (s := bytesOf e.name) rfl,
    Option.bind_some, numberAt_of_property rfl h.depth, Option.bind_some,
    numberAt_of_property rfl h.enqueued, Option.bind_some,
    numberAt_of_property rfl h.dequeued, Option.bind_some,
    numberAt_of_property rfl h.drained]
  rfl

theorem mapM_rowOf {es : List Stat} (h : ∀ e ∈ es, Fits53 e) :
    (es.map fun e => coerced (statJSON e)).mapM rowOf
      = some (es.map shown) := by
  induction es with
  | nil => rfl
  | cons e es ih =>
      have hrest := ih fun x hx => h x (List.mem_cons_of_mem _ hx)
      rw [List.map_cons, List.mapM_cons,
        rowOf_statJSON (h e List.mem_cons_self), hrest]
      rfl

/-- **WHAT THE SERVER WRITES IS WHAT THE PAGE READS.** -/
theorem response_getStats {result : Stats}
    (h : ∀ e ∈ result.queues, Fits53 e) :
    response (getStats result) = some (result.queues.map shown) := by
  have hnl : Follows [byte '\n'] := by
    intro c hc
    obtain rfl := Option.some.inj hc
    decide
  obtain ⟨n, hn⟩ : ∃ n, (getStats result).body.length = n + 3 := by
    refine ⟨(getStats result).body.length - 3, ?_⟩
    have hlen : 3 ≤ (getStats result).body.length := by
      simp [getStats, statsJSON, text]
    omega
  have hparse : jsonParse (getStats result).body
      = some (coerced (statsJSON result)) := by
    rw [jsonParse, hn, getStats, value_text (written_statsJSON n result) hnl]
    rfl
  have hstatus : 200 ≤ (getStats result).status
      ∧ (getStats result).status < 300 := by
    show 200 ≤ 200 ∧ 200 < 300
    omega
  have hqueues : queuesOf (coerced (statsJSON result))
      = (result.queues.map fun e => coerced (statJSON e)).mapM rowOf := by
    rw [coerced_statsJSON]
    rfl
  rw [response, if_pos hstatus, hparse, Option.bind_some, hqueues,
    mapM_rowOf h]

theorem fetch_eq (urlBase : Bytes) (other : Bytes → Answer) (result : Stats) :
    fetch urlBase other result = getStats result := by
  have hwords : ascii "/memq" ++ ascii "/server/stats"
      = ascii "/memq/server" ++ ascii "/stats" := by decide
  rw [fetch, if_pos]
  rw [fetchPath, statsPath, List.append_assoc, List.append_assoc, hwords]

/-! ## What it sorts -/

theorem compareNames_le_iff (a b : Row) :
    compareNames a b ≤ 0 ↔ a.name ≤ b.name := by
  unfold compareNames
  split
  · rename_i hlt
    exact ⟨fun _ => le_of_lt hlt, fun _ => by omega⟩
  · rename_i hle
    split
    · rename_i hlt
      exact ⟨fun h => absurd h (by omega), fun h => absurd h (not_le.mpr hlt)⟩
    · rename_i hge
      exact ⟨fun _ => not_lt.mp hge, fun _ => by omega⟩

theorem sortQueues_perm (rows : List Row) :
    (sortQueues rows).Perm rows := List.mergeSort_perm rows _

theorem sortQueues_ascending (rows : List Row) :
    (sortQueues rows).Pairwise fun a b => a.name ≤ b.name := by
  have htrans : ∀ a b c : Row, decide (compareNames a b ≤ 0) →
      decide (compareNames b c ≤ 0) → decide (compareNames a c ≤ 0) := by
    intro a b c hab hbc
    simp only [decide_eq_true_eq, compareNames_le_iff] at hab hbc ⊢
    exact le_trans hab hbc
  have htotal : ∀ a b : Row, decide (compareNames a b ≤ 0)
      || decide (compareNames b a ≤ 0) := by
    intro a b
    simp only [Bool.or_eq_true, decide_eq_true_eq, compareNames_le_iff]
    exact le_total a.name b.name
  have hsorted := List.pairwise_mergeSort htrans htotal rows
  refine hsorted.imp fun {a b} hab => ?_
  exact (compareNames_le_iff a b).mp (of_decide_eq_true hab)

/-- Rows with different names are sorted strictly. -/
theorem sortQueues_strict {rows : List Row}
    (h : (rows.map Row.name).Nodup) :
    (sortQueues rows).Pairwise fun a b => a.name < b.name := by
  have hnodup : ((sortQueues rows).map Row.name).Nodup :=
    ((sortQueues_perm rows).map Row.name).nodup_iff.mpr h
  have hne := List.pairwise_map.mp hnodup
  refine ((sortQueues_ascending rows).and hne).imp fun {a b} hab => ?_
  exact lt_of_le_of_ne hab.1 hab.2

/-- **THE ORDER DOES NOT MATTER**: the same rows are sorted the same. -/
theorem sortQueues_eq_of_perm {rows rows' : List Row}
    (h : (rows.map Row.name).Nodup) (hperm : rows'.Perm rows) :
    sortQueues rows' = sortQueues rows := by
  have h' : (rows'.map Row.name).Nodup :=
    (hperm.map Row.name).nodup_iff.mpr h
  have hall := ((sortQueues_perm rows').trans hperm).trans
    (sortQueues_perm rows).symm
  refine List.Perm.eq_of_pairwise ?_ (sortQueues_strict h')
    (sortQueues_strict h) hall
  intro a b _ _ hab hba
  exact absurd (lt_trans hab hba) (lt_irrefl a.name)

/-! ## Over a run -/

theorem Balanced.fits53 {e : Stat} (h : Balanced e) {n : Nat}
    (hle : e.enqueued ≤ n) (hn : n ≤ 2 ^ 53) : Fits53 e := by
  obtain ⟨hb, hdepth, hdeq, hdrn⟩ := h
  have habs : ∀ i : Int, 0 ≤ i → i ≤ e.enqueued → |i| ≤ 2 ^ 53 := by
    intro i h0 hi
    rw [abs_of_nonneg h0]
    omega
  exact ⟨habs _ hdepth (by omega), habs _ (by omega) (by omega),
    habs _ hdeq (by omega), habs _ hdrn (by omega)⟩

/-- Names in UTF-8 stay different. -/
theorem nodup_shown {es : List Stat} (h : (es.map Stat.name).Nodup)
    (hread : ∀ e ∈ es, Readable e.name) :
    ((es.map shown).map Row.name).Nodup := by
  rw [List.map_map]
  refine List.Nodup.map_on ?_ (List.Nodup.of_map _ h)
  intro a ha b hb hab
  obtain ⟨q, hq, hqa⟩ := hread a ha
  obtain ⟨q', hq', hqb⟩ := hread b hb
  have hbytes : jsString q = jsString q' := by
    have hab' : jsString (bytesOf a.name) = jsString (bytesOf b.name) := hab
    rwa [hqa, hqb, bytesOf_goString, bytesOf_goString] at hab'
  refine List.inj_on_of_nodup_map h ha hb ?_
  rw [hqa, hqb, jsString_inj hq hq' hbytes]

/-- **WHAT THE PAGE SHOWS**: in every run with at most 2^53 completed
    operations, whatever was shown before, the page gets a row for every entry
    that the broker has read, with all counters exact, in ascending order.  If
    the names are UTF-8 the order is strict, and another response with the same
    entries shows the same table, however the map was gone through. -/
theorem page_shows {ι κ : Type} [DecidableEq ι] [DecidableEq κ]
    {s : State ι κ} (h : Runs (start ι κ) s) (hn : s.base.done.length ≤ 2 ^ 53)
    (r : Response) (hr : r ∈ s.responses) (urlBase : Bytes)
    (other : Bytes → Answer) :
    ∃ rows : List Row,
      (∀ queues, loadState queues (fetch urlBase other r.stats)
        = (rows, false))
      ∧ rows.Perm (r.stats.queues.map shown)
      ∧ rows.Pairwise (fun a b => a.name ≤ b.name)
      ∧ ((∀ e ∈ r.stats.queues, Readable e.name) →
        rows.Pairwise (fun a b => a.name < b.name)
        ∧ ∀ r' ∈ s.responses, r'.stats.queues.Perm r.stats.queues →
          ∀ queues, loadState queues (fetch urlBase other r'.stats)
            = (rows, false)) := by
  have hload : ∀ r ∈ s.responses, ∀ queues,
      loadState queues (fetch urlBase other r.stats)
        = (sortQueues (r.stats.queues.map shown), false) := by
    intro r hr queues
    have hfits : ∀ e ∈ r.stats.queues, Fits53 e := by
      intro e he
      obtain ⟨hb, hle⟩ := counters_le_done h hr he
      exact Balanced.fits53 hb hle hn
    have hresponse := response_getStats hfits
    rw [loadState, fetch_eq, hresponse]
  refine ⟨sortQueues (r.stats.queues.map shown), hload r hr,
    sortQueues_perm _, sortQueues_ascending _, fun hread => ?_⟩
  have hnames : (r.stats.queues.map Stat.name).Nodup := by
    rw [StatsSnapshot.names_stats]
    exact ((StatsSnapshot.hist_of_runs h).2.readOver r hr).nodup
  have hnodup := nodup_shown hnames hread
  refine ⟨sortQueues_strict hnodup, fun r' hr' hperm queues => ?_⟩
  rw [hload r' hr' queues, sortQueues_eq_of_perm hnodup (hperm.map shown)]

/-! ## Two calls in two orders -/

/-- A call reads two queues and returns. -/
def callOf (s : State Unit Unit) (e e' : String × Pointer) :
    State Unit Unit :=
  let s₁ := begun s
  let x₁ := reading s₁ ⟨s.base.clock, []⟩ e
  let s₂ := afterRead s₁ ⟨s.base.clock, []⟩ e
  let x₂ := reading s₂ x₁ e'
  afterCall (afterRead s₂ x₁ e') x₂

theorem runs_callOf {s : State Unit Unit} {e e' : String × Pointer}
    (hj : s.reader () = none) (he : s.base.broker.queues e.1 = some e.2)
    (he' : s.base.broker.queues e'.1 = some e'.2) (hne : e'.1 ≠ e.1)
    (hall : ∀ name p, s.base.broker.queues name = some p →
      name = e.1 ∨ name = e'.1) : Runs s (callOf s e e') := by
  have hbegun : Runs s (begun s) := .single (.begin () hj)
  have hfirst : Runs s (afterRead (begun s) ⟨s.base.clock, []⟩ e) :=
    .tail hbegun (.read () ⟨s.base.clock, []⟩ e.1 e.2
      (Function.update_self () _ s.reader) he List.not_mem_nil)
  have hsecond : Runs s (afterRead (afterRead (begun s) ⟨s.base.clock, []⟩ e)
      (reading (begun s) ⟨s.base.clock, []⟩ e) e') :=
    .tail hfirst (.read () _ e'.1 e'.2 (afterRead_reader _ _ _) he'
      (by simpa [names, reading, statOf] using hne))
  refine .tail hsecond (.finish () _ (afterRead_reader _ _ _)
    fun name p hp => ?_)
  rcases hall name p hp with rfl | rfl
  · simp [names, reading, statOf]
  · simp [names, reading, statOf]

/-- The queues have been read from b to a and from a to b. -/
def bothOrders : State Unit Unit :=
  callOf (callOf twoQueues ("b", 1) ("a", 0)) ("a", 0) ("b", 1)

theorem runs_bothOrders : Runs (start Unit Unit) bothOrders := by
  have hmade : Runs (start Unit Unit) twoQueues :=
    .tail (.single (.client _ (.createQueue () "a" rfl) fun _ _ _ _ => rfl))
      (.client _ (.createQueue () "b" rfl) fun _ _ _ _ => rfl)
  have hnames : ∀ name p, twoQueues.base.broker.queues name = some p →
      name = "a" ∨ name = "b" := fun name p hp => names_twoQueues hp
  refine (hmade.trans (runs_callOf rfl rfl rfl (by decide) ?_)).trans
    (runs_callOf rfl rfl rfl (by decide) hnames)
  exact fun name p hp => (hnames name p hp).symm

/-- Both show the same table. -/
theorem page_shows_bothOrders :
    loadState [] (fetch [] (fun _ => ⟨404, []⟩)
        ⟨"stats", [⟨"b", 0, 0, 0, 0⟩, ⟨"a", 0, 0, 0, 0⟩]⟩)
      = loadState [] (fetch [] (fun _ => ⟨404, []⟩)
        ⟨"stats", [⟨"a", 0, 0, 0, 0⟩, ⟨"b", 0, 0, 0, 0⟩]⟩) := by
  obtain ⟨rows, hrows, -, -, hstrict⟩ := page_shows runs_bothOrders
    (by decide) _ List.mem_cons_self [] fun _ => ⟨404, []⟩
  have hread : ∀ e ∈ [(⟨"a", 0, 0, 0, 0⟩ : Stat), ⟨"b", 0, 0, 0, 0⟩],
      Readable e.name := by
    intro e he
    simp only [List.mem_cons, List.not_mem_nil, or_false] at he
    rcases he with rfl | rfl
    · exact ⟨ascii "a", validUTF8_of_ascii (forall_of_all (by decide)),
        by decide⟩
    · exact ⟨ascii "b", validUTF8_of_ascii (forall_of_all (by decide)),
        by decide⟩
  obtain ⟨-, hsame⟩ := hstrict hread
  exact (hsame _ (List.mem_cons_of_mem _ List.mem_cons_self)
    (List.Perm.swap _ _ _) []).trans (hrows []).symm

end MemqPage
