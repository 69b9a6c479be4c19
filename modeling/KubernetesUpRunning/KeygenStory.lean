import KubernetesUpRunning.KeygenWorkers

/-! # What one keygen worker puts out

    The lines of `workload` and of `memQWorker`, and the order in which one
    worker puts them out: a workload starts, numbers its items from one, and
    exits; a MemQ worker starts, goes round its loop, and shuts down.  What the
    lines have from elsewhere is a parameter of the step. -/

namespace KeygenStory

open KeygenWorkers
open MemqWorker (Config ClientError Next afterDequeue)

/-! ## The lines -/

/-- What a line has from elsewhere: `generateKey` and `humanize.RelTime`, and
    an error of the client as a text. -/
structure Texts where
  desc : String
  relTime : String
  error : String

/-- The end of a line about an item. -/
def described (desc : String) : String := if desc ≠ "" then ": " ++ desc else ""

def startingLine (id : Int) : String :=
  "(ID " ++ toString id ++ ") Workload starting"

def exitingLine (id : Int) : String :=
  "(ID " ++ toString id ++ ") Workload exiting"

/-- `itemDone` of a `workload`; `timed` says whether it has a timer. -/
def itemLine (c : Config) (id generated : Int) (timed : Bool) (t : Texts) :
    String :=
  let count :=
    if 0 < c.numToGen then
      " " ++ toString generated ++ "/" ++ toString c.numToGen
    else " " ++ toString generated ++ "/Inf"
  let timeleft := if timed then " " ++ t.relTime else ""
  "(ID " ++ toString id ++ count ++ timeleft ++ ") Item done"
    ++ described t.desc

/-- The line that goes with a step of a `workload`. -/
def workLine (c : Config) (t : Texts) (w w' : Workload) : Option String :=
  match w.phase, w'.phase with
  | .starting, .selecting => some (startingLine w'.id)
  | .generating, .selecting =>
      some (itemLine c w'.id w'.generated w'.timeout.isSome t)
  | .done _, .logged _ => some (exitingLine w'.id)
  | _, _ => none

def memQStarting : String := "MemQ Worker starting"

def memQStopping : String := "MemQ Worker shutting down"

def errorLine (t : Texts) : String :=
  "Error talking to server: " ++ t.error ++ ". Retrying after 1s."

def emptyLine : String := "Queue is empty. Retrying after 1s."

/-- `itemDone` of a `memQWorker`. -/
def memQItemLine (t : Texts) : String := "Item done" ++ described t.desc

/-- The line that goes with a step of a `memQWorker`. -/
def memQLine (t : Texts) : MemQPhase → MemQPhase → Option String
  | .starting, .selecting => some memQStarting
  | .returned (.error _), .sleeping => some (errorLine t)
  | .returned (.ok _), .sleeping => some emptyLine
  | .returned _, .selecting => some (memQItemLine t)
  | .stopping, .stopped => some memQStopping
  | _, _ => none

/-- The line that goes with a step of a worker. -/
def lineOf (t : Texts) (g g' : Goroutine) : Option String :=
  match g.worker, g'.worker with
  | .workload w, .workload w' => workLine g.c t w w'
  | .memQ ph, .memQ ph' => memQLine t ph ph'
  | _, _ => none

/-! ## The story of a workload -/

/-- How far a workload has come. -/
inductive Chapter where
  | before
  | items
  | over
deriving DecidableEq

def chapterOf : WorkPhase → Chapter
  | .starting => .before
  | .selecting | .counting | .generating | .done _ => .items
  | .logged _ | .returned | .exited _ => .over

/-- The workload starts, numbers its items from one, and exits. -/
def story (c : Config) (id : Int) (ts : List Texts) : Chapter → List String
  | .before => []
  | .items => startingLine id :: ts.mapIdx fun j t =>
      itemLine c id (j + 1) (decide (0 < c.timeToRun)) t
  | .over => (startingLine id :: ts.mapIdx fun j t =>
      itemLine c id (j + 1) (decide (0 < c.timeToRun)) t) ++ [exitingLine id]

/-- What a workload has put out is its story, with at most as many items as it
    is to generate; it ends the process only when it is told to, with all of
    them or at a timeout. -/
structure Told (c : Config) (w : Workload) (lines : List String) : Prop where
  story : ∃ ts : List Texts, w.generated = ts.length
    ∧ lines = story c w.id ts (chapterOf w.phase)
  limit : 0 < c.numToGen → w.generated ≤ c.numToGen
  complete : ∀ code, w.phase = .exited code →
    c.exitOnComplete = true ∧ code = c.exitCode
      ∧ (reached c w.generated ∨ 0 < c.timeToRun)

/-- And what it knows of itself on the way. -/
structure Telling (c : Config) (w : Workload) (lines : List String) : Prop
    extends Told c w lines where
  fresh : w.phase = .starting → w.generated = 0 ∧ w.timeout = none
  below : w.phase = .generating → 0 < c.numToGen → w.generated < c.numToGen
  timed : w.phase = .selecting ∨ w.phase = .counting ∨ w.phase = .generating →
    w.timeout.isSome = decide (0 < c.timeToRun)
  ended : w.phase = .done false ∨ w.phase = .logged false →
    reached c w.generated ∨ 0 < c.timeToRun

theorem telling_start (c : Config) (k : Int) :
    Telling c ⟨k, 0, none, .starting⟩ [] := by
  refine ⟨⟨⟨[], rfl, rfl⟩, fun h => Int.le_of_lt h, ?_⟩, fun _ => ⟨rfl, rfl⟩,
    ?_, ?_, ?_⟩ <;> simp

/-- **EVERY STEP OF A WORKLOAD** goes on with its story. -/
theorem telling_step {c : Config} {ctx : Bool} {w w' : Workload} {e : Input}
    {lines : List String} (h : Telling c w lines) (hs : WorkStep c ctx w e w')
    (t : Texts) : Telling c w' (lines ++ (workLine c t w w').toList) := by
  obtain ⟨⟨⟨ts, hlen, rfl⟩, hlimit, hcomplete⟩, hfresh, hbelow, htimed, hended⟩
    := h
  cases hs with
  | @startWork k n tm =>
      obtain ⟨rfl, rfl⟩ := hfresh rfl
      obtain rfl : ts = [] := by simpa using hlen.symm
      refine ⟨⟨⟨[], rfl, rfl⟩, hlimit, by simp⟩, by simp, by simp, ?_, by simp⟩
      intro _
      show (if 0 < c.timeToRun then some false else none).isSome = _
      split <;> simp_all
  | @fire k n ph =>
      have hno : ph ≠ .starting := by
        rintro rfl
        exact absurd (hfresh rfl).2 (by simp)
      have hline : workLine c t ⟨k, n, some false, ph⟩ ⟨k, n, some true, ph⟩
          = none := by
        cases ph <;> rfl
      rw [hline, Option.toList_none, List.append_nil]
      exact ⟨⟨⟨ts, hlen, rfl⟩, hlimit, hcomplete⟩, fun hp => absurd hp hno,
        hbelow, htimed, hended⟩
  | canceled hc =>
      exact ⟨⟨⟨ts, hlen, List.append_nil _⟩, hlimit, by simp⟩, by simp, by simp,
        by simp, by simp⟩
  | timeout =>
      have ht := htimed (Or.inl rfl)
      refine ⟨⟨⟨ts, hlen, List.append_nil _⟩, hlimit, by simp⟩, by simp,
        by simp, by simp, fun _ => Or.inr ?_⟩
      simpa using ht.symm
  | default hc ht =>
      exact ⟨⟨⟨ts, hlen, List.append_nil _⟩, hlimit, by simp⟩, by simp, by simp,
        fun _ => htimed (Or.inl rfl), by simp⟩
  | complete hr =>
      exact ⟨⟨⟨ts, hlen, List.append_nil _⟩, hlimit, by simp⟩, by simp, by simp,
        by simp, fun _ => Or.inl hr⟩
  | @notDone k n tm hr =>
      refine ⟨⟨⟨ts, hlen, List.append_nil _⟩, hlimit, by simp⟩, by simp,
        fun _ hpos => ?_, fun _ => htimed (Or.inr (Or.inl rfl)), by simp⟩
      show n < c.numToGen
      by_contra hge
      exact hr ⟨hpos, by omega⟩
  | @itemDone k n tm =>
      have hn : n = ts.length := hlen
      have ht : tm.isSome = decide (0 < c.timeToRun) :=
        htimed (Or.inr (Or.inr rfl))
      refine ⟨⟨⟨ts ++ [t], ?_, ?_⟩, fun hpos => ?_, by simp⟩, by simp, by simp,
        fun _ => ht, by simp⟩
      · simp [hn]
      · show (startingLine k :: _)
            ++ [itemLine c k (n + 1) tm.isSome t] = startingLine k :: _
        rw [List.mapIdx_concat, ht, hn]
        rfl
      · have hlt : n < c.numToGen := hbelow rfl hpos
        show n + 1 ≤ c.numToGen
        omega
  | log b =>
      refine ⟨⟨⟨ts, hlen, rfl⟩, hlimit, by simp⟩, by simp, by simp, by simp, ?_⟩
      simp only [WorkPhase.logged.injEq, reduceCtorEq, false_or]
      rintro rfl
      exact hended (Or.inl rfl)
  | exit he =>
      refine ⟨⟨⟨ts, hlen, List.append_nil _⟩, hlimit, ?_⟩, by simp, by simp,
        by simp, by simp⟩
      rintro code hcode
      obtain rfl : c.exitCode = code := by simpa using hcode
      exact ⟨he, rfl, hended (Or.inr rfl)⟩
  | stop hb =>
      exact ⟨⟨⟨ts, hlen, List.append_nil _⟩, hlimit, by simp⟩, by simp, by simp,
        by simp, by simp⟩

/-! ## The story of a MemQ worker -/

/-- A line of the loop; that the queue is empty is put out only where this does
    not end the process. -/
inductive LoopLine (c : Config) : String → Prop where
  | error (t : Texts) : LoopLine c (errorLine t)
  | empty (h : c.exitOnComplete = false) : LoopLine c emptyLine
  | item (t : Texts) : LoopLine c (memQItemLine t)

def memQChapterOf : MemQPhase → Chapter
  | .starting => .before
  | .stopped => .over
  | _ => .items

/-- The worker starts, goes round its loop, and shuts down. -/
def memQStory (middle : List String) : Chapter → List String
  | .before => []
  | .items => memQStarting :: middle
  | .over => (memQStarting :: middle) ++ [memQStopping]

/-- What a MemQ worker has put out is its story. -/
def MemQTold (c : Config) (ph : MemQPhase) (lines : List String) : Prop :=
  ∃ middle, (∀ l ∈ middle, LoopLine c l)
    ∧ (ph = .starting → middle = [])
    ∧ lines = memQStory middle (memQChapterOf ph)

section MemQ

variable {c : Config} {ph ph' : MemQPhase} {lines : List String}

/-- One more line from the loop. -/
theorem MemQTold.line {text : String} (h : MemQTold c ph lines)
    (hl : LoopLine c text) (hph : memQChapterOf ph = .items)
    (hph' : memQChapterOf ph' = .items) :
    MemQTold c ph' (lines ++ [text]) := by
  obtain ⟨middle, hall, -, rfl⟩ := h
  refine ⟨middle ++ [text], fun l hmem => ?_, ?_, ?_⟩
  · rcases List.mem_append.mp hmem with hmem | hmem
    · exact hall l hmem
    · rw [List.mem_singleton.mp hmem]
      exact hl
  · rintro rfl
    exact absurd hph' (by simp [memQChapterOf])
  · rw [hph, hph']
    rfl

/-- A step without a line. -/
theorem MemQTold.quiet (h : MemQTold c ph lines)
    (hph : memQChapterOf ph = .items) (hph' : memQChapterOf ph' = .items) :
    MemQTold c ph' lines := by
  obtain ⟨middle, hall, -, rfl⟩ := h
  refine ⟨middle, hall, ?_, ?_⟩
  · rintro rfl
    exact absurd hph' (by simp [memQChapterOf])
  · rw [hph, hph']

/-- **EVERY STEP OF A MEMQ WORKER** goes on with its story. -/
theorem memQTold_step {ctx : Bool} {e : Input} (h : MemQTold c ph lines)
    (hs : MemQStep c ctx ph e ph') (t : Texts) :
    MemQTold c ph' (lines ++ (memQLine t ph ph').toList) := by
  cases hs with
  | startWork =>
      obtain ⟨middle, -, hnil, rfl⟩ := h
      obtain rfl := hnil rfl
      exact ⟨[], by simp, fun _ => rfl, rfl⟩
  | canceled hc =>
      rw [show memQLine t .selecting .stopping = none from rfl,
        Option.toList_none, List.append_nil]
      exact h.quiet rfl rfl
  | default hc =>
      rw [show memQLine t .selecting .calling = none from rfl,
        Option.toList_none, List.append_nil]
      exact h.quiet rfl rfl
  | reply x =>
      rw [show memQLine t .calling (.returned x) = none from rfl,
        Option.toList_none, List.append_nil]
      exact h.quiet rfl rfl
  | @retry x hx =>
      cases x with
      | error err => exact h.line (.error t) rfl rfl
      | ok m =>
          refine h.line (.empty ?_) rfl rfl
          cases m with
          | none =>
              rw [afterDequeue] at hx
              split at hx
              · exact absurd hx (by simp)
              · rename_i hex
                simpa using hex
          | some m => exact absurd hx (by simp [afterDequeue])
  | @exit x code hx =>
      have hline : memQLine t (.returned x) (.exited code) = none := by
        cases x <;> rfl
      rw [hline, Option.toList_none, List.append_nil]
      exact h.quiet rfl rfl
  | @itemDone x hx =>
      have hline : memQLine t (.returned x) .selecting
          = some (memQItemLine t) := by
        cases x <;> rfl
      rw [hline]
      exact h.line (.item t) rfl rfl
  | wake =>
      rw [show memQLine t .sleeping .selecting = none from rfl,
        Option.toList_none, List.append_nil]
      exact h.quiet rfl rfl
  | log =>
      obtain ⟨middle, hall, -, rfl⟩ := h
      exact ⟨middle, hall, by simp, rfl⟩

end MemQ

end KeygenStory
