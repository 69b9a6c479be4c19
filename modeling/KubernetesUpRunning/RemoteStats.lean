import KubernetesUpRunning.JsonValue
import KubernetesUpRunning.MemqStats
import KubernetesUpRunning.MessageBody

/-! # The statistics, as a client sees them

    `Client.Stats` asks for `/stats` and decodes what `ServeJSON` has written
    of the result of the broker.  Here the address goes through the parser of
    URLs and the result through JSON, both ways.  The counters come through as
    they were for as long as they fit into 64 bits, which they do while fewer
    operations than that have been completed, and a name comes through when it
    is UTF-8. -/

namespace RemoteStats

open AsciiText DecimalText JsonText JsonValue
open MemqStats QueueNames UrlText
open MemqWorker (ClientError)
open MessageBody (lower)

/-! ## The server -/

/-- `memq.Stat` in JSON. -/
def statJSON (e : Stat) : Value :=
  .obj [(ascii "name", .str (bytesOf e.name)),
    (ascii "depth", .num (decimal e.depth)),
    (ascii "enqueued", .num (decimal e.enqueued)),
    (ascii "dequeued", .num (decimal e.dequeued)),
    (ascii "drained", .num (decimal e.drained))]

/-- `memq.Stats` in JSON. -/
def statsJSON (s : Stats) : Value :=
  .obj [(ascii "kind", .str (bytesOf s.kind)),
    (ascii "queues", .arr (s.queues.map statJSON))]

/-- An answer with the bytes of its body. -/
structure Answer where
  status : Nat
  body : Bytes

/-- `Server.GetStats`, with what `Broker.Stats` has returned. -/
def getStats (stats : Stats) : Answer :=
  ⟨200, text (statsJSON stats) ++ [byte '\n']⟩

/-- The route of `AddRoutes` for GET. -/
def statsPath (base : Bytes) : Bytes := base ++ ascii "/stats"

/-- `http.DefaultClient.Do` of a GET.  What the application answers on every
    other path is a parameter. -/
def get (s : Site) (other : Bytes → Answer) (stats : Stats) (url : Bytes) :
    Option Answer :=
  (parse s.hostOk url).map fun u =>
    if byte ' ' ∈ u.rawQuery then ⟨400, ascii "400 Bad Request"⟩
    else if u.path = statsPath s.base then getStats stats
    else other u.path

/-! ## The client -/

/-- A value is put into a string. -/
def setString (old : String) : Value → Option String
  | .null => some old
  | .str s => some (goString s)
  | _ => none

/-- A value is put into an `int64`. -/
def setInt (old : Int) : Value → Option Int
  | .null => some old
  | .num literal => parseInt literal
  | _ => none

/-- One member is put into the field of `memq.Stat` that has its name. -/
def setStatField (e : Stat) (m : Bytes × Value) : Option Stat :=
  let name := m.1.map lower
  if name = ascii "name" then
    (setString e.name m.2).map fun v => { e with name := v }
  else if name = ascii "depth" then
    (setInt e.depth m.2).map fun v => { e with depth := v }
  else if name = ascii "enqueued" then
    (setInt e.enqueued m.2).map fun v => { e with enqueued := v }
  else if name = ascii "dequeued" then
    (setInt e.dequeued m.2).map fun v => { e with dequeued := v }
  else if name = ascii "drained" then
    (setInt e.drained m.2).map fun v => { e with drained := v }
  else some e

/-- A `memq.Stat` before anything is put into it. -/
def zeroStat : Stat := ⟨"", 0, 0, 0, 0⟩

/-- A value is put into a `memq.Stat`. -/
def setStat (e : Stat) : Value → Option Stat
  | .null => some e
  | .obj ms => ms.foldlM setStatField e
  | _ => none

/-- Values are put into a slice, over what it holds. -/
def setQueues : List Stat → List Value → Option (List Stat)
  | _, [] => some []
  | old, v :: vs =>
      (setStat (old.headD zeroStat) v).bind fun e =>
        (setQueues old.tail vs).map (e :: ·)

/-- One member is put into the field of `memq.Stats` that has its name. -/
def setStatsField (s : Stats) (m : Bytes × Value) : Option Stats :=
  let name := m.1.map lower
  if name = ascii "kind" then
    (setString s.kind m.2).map fun v => { s with kind := v }
  else if name = ascii "queues" then
    match m.2 with
    | .null => some { s with queues := [] }
    | .arr vs => (setQueues s.queues vs).map fun v => { s with queues := v }
    | _ => none
  else some s

/-- `json.NewDecoder(resp.Body).Decode(&s)`: a pointer that `null` takes
    away. -/
def decodeStats (body : Bytes) : Option (Option Stats) :=
  match decode body with
  | none => none
  | some .null => some none
  | some (.obj ms) => (ms.foldlM setStatsField ⟨"", []⟩).map some
  | some _ => none

/-- `Client.Stats` after the request. -/
def clientStats (r : Answer) : Except ClientError (Option Stats) :=
  if 300 ≤ r.status then .error (.http r.status)
  else
    match decodeStats r.body with
    | none => .error .decode
    | some s => .ok s

/-- The URL of `Client.Stats`. -/
def statsURL (c : Client) : Bytes := c.baseServerURL ++ ascii "/stats"

/-- `Client.Stats`. -/
def stats (s : Site) (other : Bytes → Answer) (result : Stats) :
    Except ClientError (Option Stats) :=
  match get s other result (statsURL s.client) with
  | none => .error (.request "parse")
  | some r => clientStats r

/-! ## The way there -/

/-- The request gets to `GetStats`. -/
theorem get_statsURL (s : Site) (other : Bytes → Answer) (result : Stats) :
    get s other result (statsURL s.client) = some (getStats result) := by
  obtain ⟨hclean, hhead⟩ := bases_clean s.base s.base_mem
  have hurl : statsURL s.client = ascii "http://" ++ s.host
      ++ (s.base ++ ascii "/") ++ ascii "stats" := by
    have hword : ascii "/stats" = ascii "/" ++ ascii "stats" := by decide
    rw [statsURL, Site.client, hword]
    simp
  have hpath : statsPath s.base = s.base ++ ascii "/" ++ ascii "stats" := by
    have hword : ascii "/stats" = ascii "/" ++ ascii "stats" := by decide
    rw [statsPath, hword, List.append_assoc]
  have hparse := parse_address s.hostOk s.host_clean s.host_noSlash s.host_ok
    hclean hhead (ascii "stats")
  rw [show before (byte '#') (ascii "stats") = ascii "stats" by decide,
    show after (byte '#') (ascii "stats") = [] by decide,
    show before (byte '?') (ascii "stats") = ascii "stats" by decide,
    show after (byte '?') (ascii "stats") = [] by decide,
    show unescape (ascii "stats") = some (ascii "stats") by decide,
    if_neg (by decide)] at hparse
  rw [get, hurl, hparse, Option.map_some, Option.map_some]
  dsimp only
  rw [if_neg List.not_mem_nil, if_pos hpath.symm]

/-! ## The way back -/

/-- An entry whose counters fit into 64 bits. -/
structure Fits64 (e : Stat) : Prop where
  depth : IsInt64 e.depth
  enqueued : IsInt64 e.enqueued
  dequeued : IsInt64 e.dequeued
  drained : IsInt64 e.drained

/-- A string after JSON. -/
def coercedString (s : String) : String := goString (coerce (bytesOf s))

/-- An entry after JSON. -/
def coercedStat (e : Stat) : Stat := { e with name := coercedString e.name }

/-- The statistics after JSON. -/
def coercedStats (s : Stats) : Stats :=
  ⟨coercedString s.kind, s.queues.map coercedStat⟩

/-- The names of the fields are UTF-8. -/
theorem coerce_word {w : Bytes} (h : w ∈ [ascii "name", ascii "depth",
    ascii "enqueued", ascii "dequeued", ascii "drained", ascii "kind",
    ascii "queues"]) : coerce w = w := by
  have hall : ∀ w ∈ [ascii "name", ascii "depth", ascii "enqueued",
      ascii "dequeued", ascii "drained", ascii "kind", ascii "queues"],
      (w.all fun b => decide (b < 0x80)) = true := by decide
  exact coerce_of_valid (validUTF8_of_ascii (forall_of_all (hall w h)))

/-- The statistics nest three deep. -/
theorem written_statsJSON (n : Nat) (s : Stats) :
    Written (n + 3) (statsJSON s) := by
  refine .obj fun m hm => ?_
  rcases List.mem_cons.mp hm with rfl | hm
  · exact .str _ _
  obtain rfl := List.mem_singleton.mp hm
  refine .arr fun v hv => ?_
  obtain ⟨e, -, rfl⟩ := List.mem_map.mp hv
  refine .obj fun m hm => ?_
  rcases List.mem_cons.mp hm with rfl | hm
  · exact .str _ _
  have hint : ∃ i, m.2 = .num (decimal i) := by
    simp only [List.mem_cons, List.not_mem_nil, or_false] at hm
    rcases hm with rfl | rfl | rfl | rfl <;> exact ⟨_, rfl⟩
  obtain ⟨i, hi⟩ := hint
  rw [hi]
  exact .int _ i

/-- What a decoder reads of an entry. -/
theorem coerced_statJSON (e : Stat) :
    coerced (statJSON e) = .obj [(ascii "name", .str (coerce (bytesOf e.name))),
      (ascii "depth", .num (decimal e.depth)),
      (ascii "enqueued", .num (decimal e.enqueued)),
      (ascii "dequeued", .num (decimal e.dequeued)),
      (ascii "drained", .num (decimal e.drained))] := by
  simp only [statJSON, coerced, coercedMembers,
    coerce_word (w := ascii "name") (by simp),
    coerce_word (w := ascii "depth") (by simp),
    coerce_word (w := ascii "enqueued") (by simp),
    coerce_word (w := ascii "dequeued") (by simp),
    coerce_word (w := ascii "drained") (by simp)]

/-- What a decoder reads of the statistics. -/
theorem coerced_statsJSON (s : Stats) :
    coerced (statsJSON s) = .obj
      [(ascii "kind", .str (coerce (bytesOf s.kind))),
        (ascii "queues",
          .arr (s.queues.map fun e => coerced (statJSON e)))] := by
  simp only [statsJSON, coerced, coercedMembers, coercedList_eq, List.map_map,
    coerce_word (w := ascii "kind") (by simp),
    coerce_word (w := ascii "queues") (by simp)]
  rfl

section Fields

variable (e : Stat)

theorem setStatField_name (b : Bytes) : setStatField e (ascii "name", .str b)
    = some { e with name := goString b } := by
  simp only [setStatField]
  rw [if_pos (by decide)]
  rfl

variable {i : Int} (h : IsInt64 i)
include h

theorem setInt_decimal (old : Int) :
    setInt old (.num (decimal i)) = some i := parseInt_decimal h

theorem setStatField_depth : setStatField e (ascii "depth", .num (decimal i))
    = some { e with depth := i } := by
  simp only [setStatField]
  rw [if_neg (by decide), if_pos (by decide), setInt_decimal h, Option.map_some]

theorem setStatField_enqueued :
    setStatField e (ascii "enqueued", .num (decimal i))
      = some { e with enqueued := i } := by
  simp only [setStatField]
  rw [if_neg (by decide), if_neg (by decide), if_pos (by decide),
    setInt_decimal h, Option.map_some]

theorem setStatField_dequeued :
    setStatField e (ascii "dequeued", .num (decimal i))
      = some { e with dequeued := i } := by
  simp only [setStatField]
  rw [if_neg (by decide), if_neg (by decide), if_neg (by decide),
    if_pos (by decide), setInt_decimal h, Option.map_some]

theorem setStatField_drained :
    setStatField e (ascii "drained", .num (decimal i))
      = some { e with drained := i } := by
  simp only [setStatField]
  rw [if_neg (by decide), if_neg (by decide), if_neg (by decide),
    if_neg (by decide), if_pos (by decide), setInt_decimal h, Option.map_some]

end Fields

/-- An entry is read into whatever was there before. -/
theorem setStat_statJSON (old : Stat) {e : Stat} (h : Fits64 e) :
    setStat old (coerced (statJSON e)) = some (coercedStat e) := by
  rw [coerced_statJSON, setStat, List.foldlM_cons, setStatField_name,
    Option.bind_eq_bind, Option.bind_some, List.foldlM_cons,
    setStatField_depth _ h.depth, Option.bind_eq_bind, Option.bind_some,
    List.foldlM_cons, setStatField_enqueued _ h.enqueued, Option.bind_eq_bind,
    Option.bind_some, List.foldlM_cons, setStatField_dequeued _ h.dequeued,
    Option.bind_eq_bind, Option.bind_some, List.foldlM_cons,
    setStatField_drained _ h.drained, Option.bind_eq_bind, Option.bind_some]
  rfl

theorem setQueues_statJSON (old : List Stat) {es : List Stat}
    (h : ∀ e ∈ es, Fits64 e) :
    setQueues old (es.map fun e => coerced (statJSON e))
      = some (es.map coercedStat) := by
  induction es generalizing old with
  | nil => rfl
  | cons e es ih =>
      have hrest := ih old.tail fun x hx => h x (List.mem_cons_of_mem _ hx)
      rw [List.map_cons, setQueues, setStat_statJSON _ (h e List.mem_cons_self),
        Option.bind_some, hrest]
      rfl

/-- **WHAT THE SERVER WRITES IS WHAT THE CLIENT READS**, coerced. -/
theorem decodeStats_getStats {result : Stats}
    (h : ∀ e ∈ result.queues, Fits64 e) :
    decodeStats (getStats result).body = some (some (coercedStats result)) := by
  have hread : decode (getStats result).body
      = some (.obj [(ascii "kind", .str (coerce (bytesOf result.kind))),
        (ascii "queues",
          .arr (result.queues.map fun e => coerced (statJSON e)))]) := by
    rw [getStats, decode_text (written_statsJSON 9997 result),
      coerced_statsJSON]
  have hkind : ∀ s b, setStatsField s (ascii "kind", .str b)
      = some { s with kind := goString b } := by
    intro s b
    simp only [setStatsField]
    rw [if_pos (by decide)]
    rfl
  have hqueues : ∀ s vs, setStatsField s (ascii "queues", .arr vs)
      = (setQueues s.queues vs).map fun v => { s with queues := v } := by
    intro s vs
    simp only [setStatsField]
    rw [if_neg (by decide), if_pos (by decide)]
  rw [decodeStats, hread]
  dsimp only
  rw [List.foldlM_cons, hkind, Option.bind_eq_bind, Option.bind_some,
    List.foldlM_cons, hqueues, setQueues_statJSON _ h]
  rfl

/-- `Client.Stats` returns what the broker has returned, coerced. -/
theorem stats_coerced (s : Site) (other : Bytes → Answer) {result : Stats}
    (h : ∀ e ∈ result.queues, Fits64 e) :
    stats s other result = .ok (some (coercedStats result)) := by
  have hread := decodeStats_getStats h
  have hstatus : ¬ 300 ≤ (getStats result).status :=
    show ¬ 300 ≤ 200 by omega
  rw [stats, get_statsURL]
  dsimp only
  rw [clientStats, if_neg hstatus, hread]

/-! ## Over a run -/

section Runs

variable {ι κ : Type} [DecidableEq ι] [DecidableEq κ] {s : State ι κ}

/-- The counters of a response lie between zero and the number of operations
    that have been completed. -/
theorem counters_le_done (h : Runs (start ι κ) s) {r : Response}
    (hr : r ∈ s.responses) {e : Stat} (he : e ∈ r.stats.queues) :
    Balanced e ∧ e.enqueued ≤ s.base.done.length := by
  have hinv := inv_of_runs h
  obtain ⟨x, hx, rfl⟩ := List.mem_map.mp he
  have hfits := hinv.fits ⟨r.began, r.entries⟩ (.inr ⟨r, hr, rfl⟩) x hx
  refine ⟨hfits.balanced, Int.le_trans hfits.behind.enqueued ?_⟩
  exact hinv.sane.bounded x.pointer

theorem Balanced.fits64 {e : Stat} (h : Balanced e) {n : Nat}
    (hle : e.enqueued ≤ n) (hn : n < 0x8000000000000000) : Fits64 e := by
  obtain ⟨hb, hdepth, hdeq, hdrn⟩ := h
  have hint : ∀ i : Int, 0 ≤ i → i ≤ e.enqueued → IsInt64 i := by
    intro i h0 hi
    exact ⟨by omega, by omega⟩
  exact ⟨hint _ hdepth (by omega), hint _ (by omega) (by omega),
    hint _ hdeq (by omega), hint _ hdrn (by omega)⟩

end Runs

/-- A name that is the text of a byte string in UTF-8. -/
def Readable (name : String) : Prop :=
  ∃ q, ValidUTF8 q ∧ name = goString q

theorem coercedString_eq_iff (name : String) :
    coercedString name = name ↔ Readable name := by
  constructor
  · intro h
    refine ⟨bytesOf name, ?_, ?_⟩
    · have hbytes := congrArg bytesOf h
      rw [coercedString, bytesOf_goString] at hbytes
      exact (coerce_eq_self_iff _).mp hbytes
    · have hbytes := congrArg bytesOf h
      rw [coercedString, bytesOf_goString] at hbytes
      rw [← hbytes]
      exact h.symm
  · rintro ⟨q, hq, rfl⟩
    rw [coercedString, bytesOf_goString, coerce_of_valid hq]

/-- The kind is a word of the program. -/
theorem coercedStats_statsOf (entries : List Entry) :
    coercedStats (statsOf entries)
      = ⟨"stats", (statsOf entries).queues.map coercedStat⟩ := by
  have hkind : coercedString "stats" = "stats" := by
    rw [coercedString_eq_iff]
    refine ⟨ascii "stats", validUTF8_of_ascii (forall_of_all (by decide)), ?_⟩
    decide
  rw [coercedStats]
  show (⟨coercedString "stats", _⟩ : Stats) = _
  rw [hkind]

/-- The statistics come through as they were exactly when every name does. -/
theorem coercedStats_eq_iff (entries : List Entry) :
    coercedStats (statsOf entries) = statsOf entries
      ↔ ∀ e ∈ (statsOf entries).queues, Readable e.name := by
  have hself := List.map_id (statsOf entries).queues
  rw [coercedStats_statsOf]
  constructor
  · intro h e he
    have hqueues : (statsOf entries).queues.map coercedStat
        = (statsOf entries).queues := congrArg Stats.queues h
    have hall := List.map_eq_map_iff.mp (hqueues.trans hself.symm)
    exact (coercedString_eq_iff e.name).mp (congrArg Stat.name (hall e he))
  · intro h
    have hqueues : (statsOf entries).queues.map coercedStat
        = (statsOf entries).queues := by
      refine (List.map_congr_left fun e he => ?_).trans hself
      rw [coercedStat, (coercedString_eq_iff e.name).mpr (h e he)]
      rfl
    rw [hqueues]
    rfl

/-- **THE STATISTICS ARRIVE**: in every run with fewer than 2^63 completed
    operations, a client of any server that asks for the statistics gets the
    entries the broker has read, in their order, with every counter as it was,
    and gets them unchanged exactly when every name is UTF-8. -/
theorem stats_arrive {ι κ : Type} [DecidableEq ι] [DecidableEq κ]
    {s : State ι κ} (h : Runs (start ι κ) s)
    (hn : s.base.done.length < 0x8000000000000000)
    (r : Response) (hr : r ∈ s.responses) (site : Site)
    (other : Bytes → Answer) :
    stats site other r.stats
        = .ok (some ⟨"stats", r.stats.queues.map coercedStat⟩)
      ∧ (∀ e ∈ r.stats.queues, Balanced (coercedStat e))
      ∧ (stats site other r.stats = .ok (some r.stats)
        ↔ ∀ e ∈ r.stats.queues, Readable e.name) := by
  have hfits : ∀ e ∈ r.stats.queues, Fits64 e := by
    intro e he
    obtain ⟨hb, hle⟩ := counters_le_done h hr he
    exact Balanced.fits64 hb hle hn
  have hread := stats_coerced site other hfits
  refine ⟨?_, ?_, ?_⟩
  · rw [hread]
    exact congrArg (fun t => Except.ok (some t))
      (coercedStats_statsOf r.entries)
  · intro e he
    obtain ⟨hb, hdepth, hdeq, hdrn⟩ := (counters_le_done h hr he).1
    exact ⟨hb, hdepth, hdeq, hdrn⟩
  · rw [hread]
    refine Iff.trans ?_ (coercedStats_eq_iff r.entries)
    constructor
    · intro heq
      exact Option.some.inj (Except.ok.inj heq)
    · intro heq
      exact congrArg (fun t => Except.ok (some t)) heq

/-- Between the puts into two queues a client gets what the server had read. -/
theorem stats_arrive_tornCall :
    stats memq (fun _ => ⟨404, []⟩)
        ⟨"stats", [⟨"a", 0, 0, 0, 0⟩, ⟨"b", 1, 1, 0, 0⟩]⟩
      = .ok (some ⟨"stats", [⟨"a", 0, 0, 0, 0⟩, ⟨"b", 1, 1, 0, 0⟩]⟩) := by
  have hstats : Response.stats ⟨2, 9, readBoth.entries⟩
      = ⟨"stats", [⟨"a", 0, 0, 0, 0⟩, ⟨"b", 1, 1, 0, 0⟩]⟩ := by decide
  obtain ⟨-, -, hsame⟩ := stats_arrive runs_tornCall (by decide)
    ⟨2, 9, readBoth.entries⟩ List.mem_cons_self memq fun _ => ⟨404, []⟩
  rw [hstats] at hsame
  refine hsame.mpr fun e he => ?_
  simp only [List.mem_cons, List.not_mem_nil, or_false] at he
  rcases he with rfl | rfl
  · exact ⟨ascii "a", validUTF8_of_ascii (forall_of_all (by decide)),
      by decide⟩
  · exact ⟨ascii "b", validUTF8_of_ascii (forall_of_all (by decide)),
      by decide⟩

end RemoteStats
