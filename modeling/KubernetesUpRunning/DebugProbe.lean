import Mathlib.Data.List.DropRight

/-! # The debug probe

    `kuard/pkg/debugprobe` answers health checks and fails them on request.  All
    of its state is behind one mutex that every call holds to its end, so a run
    is a list of calls, whoever makes them.  Against it stands the whole past:
    the calls there have been and what each has answered.  The counter, the
    identifiers and the history of the code are read off from that past. -/

namespace DebugProbe

variable {τ : Type}

/-! ## The probe -/

/-- `maxHistory`. -/
def maxHistory : Nat := 20

/-- `http.StatusOK`. -/
def statusOK : Int := 200

/-- `http.StatusInternalServerError`. -/
def statusInternalServerError : Int := 500

/-- `ProbeConfig`. -/
structure ProbeConfig where
  failNext : Int
  deriving DecidableEq, Repr

/-- `ProbeHistory`. -/
structure ProbeHistory (τ : Type) where
  id : Int
  when : τ
  code : Int
  deriving DecidableEq, Repr

/-- `Probe`, without its mutex. -/
structure Probe (τ : Type) where
  basePath : String
  lastID : Int
  c : ProbeConfig
  history : List (ProbeHistory τ)
  deriving DecidableEq, Repr

/-- `New`. -/
def new : Probe τ :=
  { basePath := "", lastID := 0, c := { failNext := 0 }, history := [] }

/-- `AddRoutes`, as far as it changes the probe. -/
def addRoutes (base : String) (p : Probe τ) : Probe τ :=
  if p.basePath ≠ "" then { p with basePath := base } else p

-- The path is set only where it is set already.
example (base : String) : addRoutes base (new : Probe τ) = new := rfl

/-- `SetConfig`. -/
def setConfig (c : ProbeConfig) (p : Probe τ) : Probe τ := { p with c := c }

/-- `recordRequest` at the time `now`. -/
def recordRequest (now : τ) (code : Int) (p : Probe τ) : Probe τ :=
  let lastID := p.lastID + 1
  let history := p.history ++ [{ id := lastID, when := now, code := code }]
  { p with
    lastID := lastID
    history :=
      if history.length > maxHistory then
        history.drop (history.length - maxHistory)
      else history }

/-- What is written to the client. -/
structure Response where
  contentType : String
  status : Int
  message : String
  deriving DecidableEq, Repr

/-- The branches of `Handle`: the status, the message and what becomes of the
    configuration. -/
def outcome (c : ProbeConfig) : Int × String × ProbeConfig :=
  if c.failNext > 0 then
    let left := c.failNext - 1
    (statusInternalServerError, s!"fail, {left} left", { failNext := left })
  else if c.failNext < 0 then
    (statusInternalServerError, "fail, permanent", c)
  else (statusOK, "ok", c)

/-- `Handle` at the time `now`. -/
def handle (now : τ) (p : Probe τ) : Response × Probe τ :=
  let (status, message, c) := outcome p.c
  ({ contentType := "text/plain", status := status, message := message },
    recordRequest now status { p with c := c })

/-- `ProbeStatusHistory`. -/
structure ProbeStatusHistory where
  id : Int
  when : String
  relWhen : String
  code : Int
  deriving DecidableEq, Repr

/-- `ProbeStatus`. -/
structure ProbeStatus where
  probePath : String
  failNext : Int
  history : List ProbeStatusHistory
  deriving DecidableEq, Repr

/-- `htmlutils.FriendlyTime` and `htmlutils.RelativeTime` at the moment of the
    call. -/
structure Clock (τ : Type) where
  friendlyTime : τ → String
  relativeTime : τ → String

/-- One entry as it is shown. -/
def Clock.show (k : Clock τ) (v : ProbeHistory τ) : ProbeStatusHistory :=
  { id := v.id
    when := k.friendlyTime v.when
    relWhen := k.relativeTime v.when
    code := v.code }

/-- The loop of `lockedGet` from the index `i` on: the entry at `i` goes to
    the place `l - 1 - i`. -/
def fillHistory (k : Clock τ) (l : Nat) :
    List (ProbeHistory τ) → Nat → List ProbeStatusHistory →
      List ProbeStatusHistory
  | [], _, s => s
  | v :: vs, i, s => fillHistory k l vs (i + 1) (s.set (l - 1 - i) (k.show v))

/-- `lockedGet`. -/
def lockedGet (k : Clock τ) (p : Probe τ) : ProbeStatus :=
  let l := p.history.length
  let zero := { id := 0, when := "", relWhen := "", code := 0 }
  { probePath := p.basePath
    failNext := p.c.failNext
    history := fillHistory k l p.history 0 (List.replicate l zero) }

/-! ## Runs -/

/-- The calls that change a probe. -/
inductive Op (τ : Type) where
  | setConfig (c : ProbeConfig)
  | handle (now : τ)

/-- A call of `Handle` and what it has answered. -/
structure Call (τ : Type) where
  when : τ
  response : Response

/-- The probe and all calls of `Handle` so far. -/
structure State (τ : Type) where
  probe : Probe τ
  calls : List (Call τ)

/-- One call. -/
def step (s : State τ) : Op τ → State τ
  | .setConfig c => { s with probe := setConfig c s.probe }
  | .handle now =>
      let (response, probe) := handle now s.probe
      { probe := probe
        calls := s.calls ++ [{ when := now, response := response }] }

/-- The calls, one after the other. -/
def runFrom (s : State τ) (ops : List (Op τ)) : State τ := ops.foldl step s

/-- The calls on a new probe. -/
def run (ops : List (Op τ)) : State τ :=
  runFrom { probe := new, calls := [] } ops

/-- A run goes on from where it stands. -/
theorem run_append (ops ops' : List (Op τ)) :
    run (ops ++ ops') = runFrom (run ops) ops' := List.foldl_append

/-! ## The countdown -/

/-- What the call after `n` others answers under a configuration. -/
def answered (k : Int) (n : Nat) : Int :=
  if k < 0 ∨ (n : Int) < k then statusInternalServerError else statusOK

/-- What is left of a configuration after `n` calls. -/
def left (k : Int) (n : Nat) : Int :=
  if k < 0 then k else max 0 (k - n)

theorem left_zero (k : Int) : left k 0 = k := by
  rw [left]
  split <;> omega

/-- One call more takes one away, unless nothing is left or the configuration
    is permanent. -/
theorem left_succ (k : Int) (n : Nat) :
    left k (n + 1) = if left k n > 0 then left k n - 1 else left k n := by
  rw [left, left]
  split <;> split <;> omega

/-- A call fails as long as something is left. -/
theorem answered_iff_left (k : Int) (n : Nat) :
    answered k n = if left k n = 0 then statusOK
      else statusInternalServerError := by
  rw [answered, left]
  by_cases hk : k < 0
  · rw [if_pos (.inl hk), if_pos hk, if_neg (by omega)]
  · rw [if_neg hk]
    by_cases hn : (n : Int) < k
    · rw [if_pos (.inr hn), if_neg (by omega)]
    · rw [if_neg (by omega), if_pos (by omega)]

/-- The status and the configuration, whatever branch is taken. -/
theorem outcome_spec (c : ProbeConfig) :
    (outcome c).1 = (if c.failNext = 0 then statusOK
        else statusInternalServerError)
      ∧ (outcome c).2.2.failNext
        = if c.failNext > 0 then c.failNext - 1 else c.failNext := by
  rw [outcome]
  by_cases hpos : c.failNext > 0
  · rw [if_pos hpos, if_pos hpos, if_neg (by omega)]
    exact ⟨rfl, rfl⟩
  · rw [if_neg hpos, if_neg hpos]
    by_cases hneg : c.failNext < 0
    · rw [if_pos hneg, if_neg (by omega)]
      exact ⟨rfl, rfl⟩
    · rw [if_neg hneg, if_pos (by omega)]
      exact ⟨rfl, rfl⟩

/-- The codes the calls have answered, in their order. -/
def State.codes (s : State τ) : List Int := s.calls.map fun c => c.response.status

/-- Calls of `Handle` alone, with a configuration of which `n` calls have been
    made: each answers as its place says. -/
theorem countdown_from (k : Int) :
    ∀ (ts : List τ) (n : Nat) (s : State τ), s.probe.c.failNext = left k n →
      (runFrom s (ts.map .handle)).codes
          = s.codes ++ (List.range' n ts.length).map (answered k)
        ∧ (runFrom s (ts.map .handle)).probe.c.failNext
          = left k (n + ts.length) := by
  intro ts
  induction ts with
  | nil =>
      intro n s hs
      exact ⟨(List.append_nil _).symm, hs⟩
  | cons now ts ih =>
      intro n s hs
      obtain ⟨hstatus, hconfig⟩ := outcome_spec s.probe.c
      have hleft : (step s (.handle now)).probe.c.failNext = left k (n + 1) := by
        rw [left_succ, ← hs]
        exact hconfig
      have hcodes : (step s (.handle now)).codes
          = s.codes ++ [answered k n] := by
        rw [answered_iff_left, ← hs, ← hstatus]
        exact List.map_append
      obtain ⟨h1, h2⟩ := ih (n + 1) (step s (.handle now)) hleft
      refine ⟨?_, ?_⟩
      · show (runFrom (step s (.handle now)) (ts.map .handle)).codes = _
        rw [h1, hcodes, List.append_assoc, List.length_cons, List.range'_succ]
        rfl
      · show (runFrom (step s (.handle now)) (ts.map .handle)).probe.c.failNext
          = _
        rw [h2, List.length_cons, Nat.add_assoc, Nat.add_comm 1]

/-! ## The history -/

/-- All calls as the history would keep them if nothing were dropped. -/
def entries (calls : List (Call τ)) : List (ProbeHistory τ) :=
  calls.mapIdx fun i c =>
    { id := (i : Int) + 1, when := c.when, code := c.response.status }

/-- What the code keeps of the past: the number of calls, and the last of
    them. -/
structure Remembers (s : State τ) : Prop where
  lastID : s.probe.lastID = s.calls.length
  history : s.probe.history = (entries s.calls).rtake maxHistory

/-- A window of the last elements stays one when an element comes in and the
    rest is dropped. -/
theorem rtake_push {α : Type} (n : Nat) (l : List α) (x : α) :
    (if (l.rtake n ++ [x]).length > n then
        (l.rtake n ++ [x]).drop ((l.rtake n ++ [x]).length - n)
      else l.rtake n ++ [x]) = (l ++ [x]).rtake n := by
  have hlen : (l.rtake n).length = min n l.length := by
    rw [List.rtake, List.length_drop]
    omega
  rw [List.length_append, hlen, List.length_singleton, List.rtake, List.rtake,
    List.length_append, List.length_singleton]
  by_cases hn : n ≤ l.length
  · rw [if_pos (by omega), ← List.drop_append_of_le_length (by omega),
      List.drop_drop]
    congr 1
    omega
  · rw [if_neg (by omega), show l.length - n = 0 by omega,
      show l.length + 1 - n = 0 by omega]
    rfl

/-- One call. -/
theorem Remembers.step {s : State τ} (h : Remembers s) (op : Op τ) :
    Remembers (step s op) := by
  cases op with
  | setConfig c => exact ⟨h.lastID, h.history⟩
  | handle now =>
      constructor
      case lastID =>
        show s.probe.lastID + 1 = ((s.calls ++ [_]).length : Int)
        rw [h.lastID, List.length_append]
        rfl
      case history =>
        have hentries : entries (DebugProbe.step s (.handle now)).calls
            = entries s.calls ++
              [{ id := s.probe.lastID + 1
                 when := now
                 code := (outcome s.probe.c).1 }] := by
          rw [h.lastID]
          exact List.mapIdx_concat
        rw [hentries, ← rtake_push, ← h.history]
        rfl

/-- In every state of a run. -/
theorem remembers_run (ops : List (Op τ)) : Remembers (run ops) := by
  have h : ∀ s : State τ, Remembers s → Remembers (runFrom s ops) := by
    induction ops with
    | nil => exact fun _ hs => hs
    | cons op ops ih => exact fun s hs => ih (step s op) (hs.step op)
  exact h _ ⟨rfl, rfl⟩

/-- The loop of `lockedGet`: what is left to be shown fills the free places
    from the back. -/
theorem fillHistory_eq (k : Clock τ) (zero : ProbeStatusHistory) {l : Nat} :
    ∀ (vs : List (ProbeHistory τ)) (i : Nat) (acc : List ProbeStatusHistory),
      i + vs.length = l →
      fillHistory k l vs i (List.replicate vs.length zero ++ acc)
        = (vs.map k.show).reverse ++ acc := by
  intro vs
  induction vs with
  | nil => exact fun i acc _ => rfl
  | cons v vs ih =>
      intro i acc hl
      rw [List.length_cons] at hl
      have hset : (List.replicate (vs.length + 1) zero ++ acc).set
          (l - 1 - i) (k.show v)
          = List.replicate vs.length zero ++ (k.show v :: acc) := by
        rw [show l - 1 - i = vs.length by omega, List.replicate_succ',
          List.append_assoc, List.set_append_right _ _ (by simp)]
        simp
      rw [fillHistory, List.length_cons, hset, ih (i + 1) _ (by omega)]
      simp

/-- The history is shown with the newest entry first. -/
theorem lockedGet_history (k : Clock τ) (p : Probe τ) :
    (lockedGet k p).history = p.history.reverse.map k.show := by
  have h := fillHistory_eq k { id := 0, when := "", relWhen := "", code := 0 }
    p.history 0 [] (Nat.zero_add _)
  rw [List.append_nil, List.append_nil] at h
  rw [lockedGet, List.map_reverse]
  exact h

/-- The entry at the place `j` from the front is the `j`-th last call. -/
theorem shown_entry (k : Clock τ) {s : State τ} (h : Remembers s) {j : Nat}
    (hj : j < min s.calls.length maxHistory) :
    ∃ call, s.calls[s.calls.length - 1 - j]? = some call
      ∧ (lockedGet k s.probe).history[j]? = some
        { id := (s.calls.length : Int) - j
          when := k.friendlyTime call.when
          relWhen := k.relativeTime call.when
          code := call.response.status } := by
  have hlt : s.calls.length - 1 - j < s.calls.length := by omega
  have hcall : s.calls[s.calls.length - 1 - j]?
      = some (s.calls.get ⟨_, hlt⟩) := List.getElem?_eq_getElem hlt
  have hlen : (entries s.calls).length = s.calls.length := List.length_mapIdx
  refine ⟨_, hcall, ?_⟩
  -- the window is the front of all entries read backwards
  rw [lockedGet_history, h.history, List.rtake_eq_reverse_take_reverse,
    List.reverse_reverse, List.getElem?_map, List.getElem?_take,
    if_pos (by omega), List.getElem?_reverse (by omega), hlen, entries,
    List.getElem?_mapIdx, hcall]
  simp only [Option.map_some, Clock.show]
  congr 2
  omega

/-- As many entries are shown as are kept. -/
theorem shown_length (k : Clock τ) {s : State τ} (h : Remembers s) :
    (lockedGet k s.probe).history.length
      = min s.calls.length maxHistory := by
  have hlen : (entries s.calls).length = s.calls.length := List.length_mapIdx
  rw [lockedGet_history, List.length_map, List.length_reverse, h.history,
    List.rtake, List.length_drop, hlen]
  omega

/-- The time of a call of `Handle`. -/
def Op.handled : Op τ → Option τ
  | .setConfig _ => none
  | .handle now => some now

/-- The calls are those of the run, in its order. -/
theorem calls_run (ops : List (Op τ)) :
    (run ops).calls.map Call.when = ops.filterMap Op.handled := by
  have h : ∀ s : State τ, (runFrom s ops).calls.map Call.when
      = s.calls.map Call.when ++ ops.filterMap Op.handled := by
    induction ops with
    | nil => exact fun s => (List.append_nil _).symm
    | cons op ops ih =>
        intro s
        show (runFrom (step s op) ops).calls.map Call.when = _
        rw [ih]
        cases op with
        | setConfig c => rfl
        | handle now =>
            show (s.calls ++ [_]).map Call.when ++ _ = _
            rw [List.map_append, List.append_assoc]
            rfl
  exact h _

/-- **THE PROBE FAILS AS CONFIGURED AND REMEMBERS THE LATEST CALLS**: after a
    configuration and any calls of `Handle` since, wherever in a run, these
    have answered as the configuration says and what is left of it is shown;
    and after any run the history shows the last calls of it, at most twenty,
    the newest first, with their numbers and what they have answered. -/
theorem probe_correct (k : Clock τ) (pre : List (Op τ)) (c : ProbeConfig)
    (ts : List τ) (ops : List (Op τ)) :
    ((run (pre ++ .setConfig c :: ts.map .handle)).codes
        = (run pre).codes ++ (List.range ts.length).map (answered c.failNext)
      ∧ (lockedGet k
          (run (pre ++ .setConfig c :: ts.map .handle)).probe).failNext
        = left c.failNext ts.length)
      ∧ (run ops).calls.map Call.when = ops.filterMap Op.handled
      ∧ (lockedGet k (run ops).probe).history.length
        = min (run ops).calls.length 20
      ∧ ∀ j, j < min (run ops).calls.length 20 →
        ∃ call, (run ops).calls[(run ops).calls.length - 1 - j]? = some call
          ∧ (lockedGet k (run ops).probe).history[j]? = some
            { id := ((run ops).calls.length : Int) - j
              when := k.friendlyTime call.when
              relWhen := k.relativeTime call.when
              code := call.response.status } := by
  refine ⟨?_, calls_run ops, shown_length k (remembers_run ops),
    fun j hj => shown_entry k (remembers_run ops) hj⟩
  have hset : (step (run pre) (.setConfig c)).probe.c.failNext
      = left c.failNext 0 := (left_zero _).symm
  obtain ⟨h1, h2⟩ := countdown_from c.failNext ts 0 _ hset
  rw [run_append, List.range_eq_range']
  refine ⟨h1, ?_⟩
  rw [Nat.zero_add] at h2
  exact h2

end DebugProbe
