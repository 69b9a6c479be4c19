import KubernetesUpRunning.MemqStats
import KubernetesUpRunning.MemqWorker
import Mathlib.Algebra.BigOperators.Group.Finset.Basic
import Mathlib.Algebra.BigOperators.Group.Finset.Piecewise
import Mathlib.Data.Fintype.Basic

/-! # A job of many workers on one queue

    Any number of worker processes draw from one queue of the broker, into
    which nobody puts and which nobody drains or deletes.  A request may fail
    before it gets to the server; a reply always comes through.  The course of
    each worker is the one that `MemqWorker` describes; here their messages add
    up: every message of the queue is done once. -/

namespace MemqJob

open MemqBroker MemqStats MemqWorker

/-- The broker, where the workers are, and what has happened to them, in
    order. -/
structure World (ι : Type) where
  broker : Broker
  phase : ι → Phase
  log : List (ι × Event)

/-- All workers start. -/
def start (ι : Type) (b : Broker) : World ι := ⟨b, fun _ => .ready, []⟩

section Job

variable {ι : Type}

/-- The messages that the server took out. -/
def tooks (log : List (ι × Event)) : List Message :=
  (log.map Prod.snd).filterMap Event.took?

theorem tooks_append (log : List (ι × Event)) (j : ι) (es : List Event) :
    tooks (log ++ es.map (Prod.mk j))
      = tooks log ++ es.filterMap Event.took? := by
  rw [tooks, List.map_append, List.filterMap_append, List.map_map]
  congr 2
  exact List.map_id es

variable [DecidableEq ι]

/-- A step of one worker, or something that leaves the queue alone. -/
inductive Step (c : ι → Config) (name : String) (s : World ι) :
    World ι → Prop
  | worker (i : ι) {es : List Event} {ph : Phase} {b : Broker}
      (h : Local (c i) s.broker (s.phase i) es ph b) :
      Step c name s ⟨b, Function.update s.phase i ph,
        s.log ++ es.map (Prod.mk i)⟩
  | elsewhere (b : Broker) (h : ∀ p, s.broker.queues name = some p →
      b.queues name = some p ∧ b.heap p = s.broker.heap p) :
      Step c name s { s with broker := b }

/-- Runs of the job. -/
abbrev Runs (c : ι → Config) (name : String) : World ι → World ι → Prop :=
  Relation.ReflTransGen (Step c name)

/-- What has happened to one worker. -/
def mine (i : ι) (log : List (ι × Event)) : List Event :=
  (log.filter fun x => decide (x.1 = i)).map Prod.snd

theorem mine_append (i : ι) (log : List (ι × Event)) (j : ι)
    (es : List Event) :
    mine i (log ++ es.map (Prod.mk j))
      = mine i log ++ if j = i then es else [] := by
  have hnew : mine i (es.map (Prod.mk j)) = if j = i then es else [] := by
    induction es with
    | nil => simp [mine]
    | cons e es ih =>
        by_cases hj : j = i
        · rw [if_pos hj] at ih ⊢
          rw [List.map_cons, mine, List.filter_cons_of_pos (by simp [hj])]
          exact congrArg (e :: ·) ih
        · rw [if_neg hj] at ih ⊢
          rw [List.map_cons, mine, List.filter_cons_of_neg (by simp [hj])]
          exact ih
  rw [← hnew, mine, List.filter_append, List.map_append]
  rfl

theorem mine_sublist (i : ι) (log : List (ι × Event)) :
    (mine i log).Sublist (log.map Prod.snd) :=
  List.filter_sublist.map Prod.snd

/-- Every message was taken out for one worker. -/
theorem sum_tooks [Fintype ι] (log : List (ι × Event)) :
    ∑ i, ((mine i log).filterMap Event.took?).length
      = (tooks log).length := by
  induction log with
  | nil => simp [mine, tooks]
  | cons x log ih =>
      obtain ⟨j, e⟩ := x
      have hone : ∀ i, ((mine i ((j, e) :: log)).filterMap Event.took?).length
          = (if j = i then e.took?.toList.length else 0)
            + ((mine i log).filterMap Event.took?).length := by
        intro i
        by_cases hj : j = i
        · rw [if_pos hj, mine, List.filter_cons_of_pos (by simp [hj]),
            List.map_cons, List.filterMap_cons]
          cases e.took? with
          | none => exact (Nat.zero_add _).symm
          | some m => exact Nat.add_comm _ 1
        · rw [if_neg hj, mine, List.filter_cons_of_neg (by simp [hj]),
            Nat.zero_add]
          rfl
      have hlog : (tooks ((j, e) :: log)).length
          = e.took?.toList.length + (tooks log).length := by
        rw [tooks, List.map_cons, List.filterMap_cons]
        cases e.took? with
        | none => exact (Nat.zero_add _).symm
        | some m => exact Nat.add_comm _ 1
      rw [Finset.sum_congr rfl fun i _ => hone i, Finset.sum_add_distrib, ih,
        hlog, Finset.sum_ite_eq, if_pos (Finset.mem_univ j)]

/-! ## The queue of the job -/

/-- The server has said, or is saying, that the queue is empty. -/
def SaysEmpty : Phase → Prop
  | .answered r => clientDequeue r = .ok none
  | .returned x => x = .ok none
  | .exited _ => True
  | _ => False

/-- What the second section of `GetMessage` does to a queue. -/
theorem getMessage_cases (q : Queue) :
    (q.messages = [] ∧ q.getMessage = (.error .emptyQueue, q))
      ∨ ∃ m, q.getMessage.1 = .ok m
        ∧ q.messages = m :: q.getMessage.2.messages := by
  rw [Queue.getMessage]
  cases hm : q.messages with
  | nil => exact Or.inl ⟨rfl, rfl⟩
  | cons m rest => exact Or.inr ⟨m, rfl, rfl⟩

/-- The queue of the broker is what is left of it. -/
theorem heap_getMessage (b : Broker) (p : Pointer) :
    (b.getMessage p).2.heap p = (b.heap p).getMessage.2
      ∧ (b.getMessage p).2.queues = b.queues := by
  rw [Broker.getMessage, Queue.getMessage]
  cases (b.heap p).messages with
  | nil => exact ⟨rfl, rfl⟩
  | cons m rest => exact ⟨Function.update_self _ _ _, rfl⟩

/-- What holds in every state of a job that started with the queue `q₀`. -/
structure Inv (c : ι → Config) (name : String) (p : Pointer) (q₀ : Queue)
    (s : World ι) : Prop where
  queue : s.broker.queues name = some p
  conserved : Conserved (s.broker.heap p)
  drained : (s.broker.heap p).drained = 0
  fifo : q₀.messages = tooks s.log ++ (s.broker.heap p).messages
  life : ∀ i, Life (c i) (mine i s.log) (s.phase i)
  serving : ∀ i p', s.phase i = .serving p' → p' = p
  empty : ∀ i, SaysEmpty (s.phase i) → (s.broker.heap p).messages = []

/-- What one step of a worker does to the queue: nothing, or it takes the first
    message out; and it says that the queue is empty only if it is. -/
theorem queue_of_local {c : Config} {b b' : Broker} {es : List Event}
    {ph ph' : Phase} (h : Local c b ph es ph' b') {p : Pointer}
    (hname : b.queues c.memQQueue = some p)
    (hserving : ∀ p', ph = .serving p' → p' = p)
    (hq : Conserved (b.heap p)) (hd : (b.heap p).drained = 0)
    (hempty : SaysEmpty ph → (b.heap p).messages = []) :
    b'.queues = b.queues
      ∧ Conserved (b'.heap p) ∧ (b'.heap p).drained = 0
      ∧ (b.heap p).messages = es.filterMap Event.took? ++ (b'.heap p).messages
      ∧ (∀ p', ph' = .serving p' → p' = p)
      ∧ (SaysEmpty ph' → (b'.heap p).messages = []) := by
  cases h with
  | call => exact ⟨rfl, hq, hd, rfl, by simp, fun h => h.elim⟩
  | unsent text => exact ⟨rfl, hq, hd, rfl, by simp, fun h => by cases h⟩
  | unnamed h =>
      refine ⟨rfl, hq, hd, rfl, by simp, fun hsays => ?_⟩
      exact absurd (clientDequeue_emptyNameReply.symm.trans hsays) (by simp)
  | missing h he =>
      rw [Broker.getQueue, hname] at he
      exact absurd he (by simp)
  | found h hp =>
      rw [Broker.getQueue, hname] at hp
      refine ⟨rfl, hq, hd, rfl, ?_, fun h => h.elim⟩
      intro p' hp'
      rw [← Phase.serving.inj hp']
      exact (Except.ok.inj hp).symm
  | getMessage p' =>
      obtain rfl := hserving p' rfl
      obtain ⟨hheap, hqueues⟩ := heap_getMessage b p'
      have hdrained : (b.heap p').getMessage.2.drained = 0 := by
        rw [Queue.getMessage]
        split <;> exact hd
      rw [hheap]
      refine ⟨hqueues, (conserved_getMessage hq).1, hdrained, ?_, by simp, ?_⟩
      · rcases getMessage_cases (b.heap p') with ⟨hm, hget⟩ | ⟨m, hget, hm⟩
        · rw [hget, hm]
          rfl
        · rw [hget, hm]
          rfl
      · intro hsays
        have hsays' : clientDequeue (dequeueReply (b.heap p').getMessage.1)
            = .ok none := hsays
        rcases getMessage_cases (b.heap p') with ⟨hm, hget⟩ | ⟨m, hget, -⟩
        · rw [hget]
          exact hm
        · rw [hget, clientDequeue_dequeueReply] at hsays'
          exact absurd hsays' (by simp)
  | returned r =>
      refine ⟨rfl, hq, hd, ?_, by simp, fun h => hempty h⟩
      rcases clientDequeue r with e | _ | m <;> rfl
  | retry h => exact ⟨rfl, hq, hd, rfl, by simp, fun h => h.elim⟩
  | exit h => exact ⟨rfl, hq, hd, rfl, by simp, fun _ => hempty (exit_of_next h).2⟩
  | itemDone h => exact ⟨rfl, hq, hd, rfl, by simp, fun h => h.elim⟩
  | wake => exact ⟨rfl, hq, hd, rfl, by simp, fun h => h.elim⟩

variable {c : ι → Config} {name : String} {p : Pointer} {q₀ : Queue}
  {s s' : World ι}

/-- **ONE STEP** keeps the invariant. -/
theorem inv_step (hname : ∀ i, (c i).memQQueue = name)
    (h : Inv c name p q₀ s) (hst : Step c name s s') : Inv c name p q₀ s' := by
  cases hst with
  | elsewhere b hb =>
      obtain ⟨hqueue, hheap⟩ := hb p h.queue
      refine ⟨hqueue, ?_, ?_, ?_, h.life, h.serving, ?_⟩
      · rw [hheap]
        exact h.conserved
      · rw [hheap]
        exact h.drained
      · rw [hheap]
        exact h.fifo
      · rw [hheap]
        exact h.empty
  | @worker i es ph b hl =>
      -- the queue by what the step does to it, the others by their phase
      obtain ⟨hqueues, hq, hd, hmsgs, hserving, hempty⟩ := queue_of_local hl
        (p := p) (by rw [hname i]; exact h.queue) (h.serving i) h.conserved
        h.drained (h.empty i)
      have hphase : ∀ j, j ≠ i →
          Function.update s.phase i ph j = s.phase j :=
        fun j hj => Function.update_of_ne hj _ _
      refine ⟨?_, hq, hd, ?_, ?_, ?_, ?_⟩
      · show b.queues name = some p
        rw [hqueues]
        exact h.queue
      · show q₀.messages = tooks (s.log ++ es.map (Prod.mk i)) ++ _
        rw [tooks_append, h.fifo, hmsgs, List.append_assoc]
      · intro j
        show Life (c j) (mine j (s.log ++ es.map (Prod.mk i)))
          (Function.update s.phase i ph j)
        rw [mine_append]
        by_cases hj : j = i
        · subst hj
          rw [if_pos rfl, Function.update_self]
          exact .step (h.life j) hl
        · rw [if_neg (Ne.symm hj), List.append_nil, hphase j hj]
          exact h.life j
      · intro j p' hp'
        rcases of_update hp' with ⟨-, hnew⟩ | ⟨-, hold⟩
        · exact hserving p' hnew
        · exact h.serving j p' hold
      · intro j hsays
        have hsays' : SaysEmpty (Function.update s.phase i ph j) := hsays
        by_cases hj : j = i
        · subst hj
          rw [Function.update_self] at hsays'
          exact hempty hsays'
        · rw [hphase j hj] at hsays'
          -- an empty queue stays empty
          have hnil := h.empty j hsays'
          rw [hnil] at hmsgs
          exact (List.append_eq_nil_iff.mp hmsgs.symm).2

/-- **A RUN** keeps it. -/
theorem inv_of_runs {b : Broker} (hname : ∀ i, (c i).memQQueue = name)
    (hp : b.queues name = some p) (hq : Conserved (b.heap p))
    (hd : (b.heap p).drained = 0) (h : Runs c name (start ι b) s) :
    Inv c name p (b.heap p) s := by
  induction h with
  | refl =>
      refine ⟨hp, hq, hd, rfl, fun i => .start, ?_, fun i h => h.elim⟩
      exact fun i p' hp' => absurd hp' (by simp [start])
  | tail _ hst ih => exact inv_step hname ih hst

/-! ## Exactly once -/

/-- The job processes every message exactly once. -/
structure ExactlyOnce [Fintype ι] (p : Pointer) (q₀ : Queue) (s : World ι) :
    Prop where
  apart : ∀ i j m m', .got m ∈ mine i s.log → .got m' ∈ mine j s.log →
    m.id = m'.id → i = j
  once : ∀ i, (((mine i s.log).filterMap Event.got?).map Message.id).Nodup
  items : ∀ i pre m post, mine i s.log = pre ++ .got m :: post →
    post = [] ∨ post.takeWhile inside = [.itemDone]
  empty : ∀ i code, s.phase i = .exited code →
    (s.broker.heap p).messages = []
  total : Nonempty ι → (∀ i, ∃ code, s.phase i = .exited code) →
    ∑ i, (mine i s.log).count .itemDone = q₀.messages.length
      ∧ (s.broker.heap p).depth = 0
      ∧ (s.broker.heap p).dequeued = (s.broker.heap p).enqueued

/-- The messages taken out, each with its worker. -/
def takers (log : List (ι × Event)) : List (ι × Message) :=
  log.filterMap fun x => x.2.took?.map (Prod.mk x.1)

omit [DecidableEq ι] in
theorem map_snd_takers (log : List (ι × Event)) :
    (takers log).map Prod.snd = tooks log := by
  rw [takers, tooks, List.map_filterMap, List.filterMap_map]
  refine List.filterMap_congr fun x _ => ?_
  show (x.2.took?.map (Prod.mk x.1)).map Prod.snd = x.2.took?
  rw [Option.map_map]
  exact Option.map_id'

/-- A message that `Dequeue` returned to a worker was taken out for it. -/
theorem mem_takers_of_got (h : Inv c name p q₀ s) {i : ι} {m : Message}
    (hm : .got m ∈ mine i s.log) : (i, m) ∈ takers s.log := by
  have hgot : m ∈ (mine i s.log).filterMap Event.got? :=
    List.mem_filterMap.mpr ⟨_, hm, rfl⟩
  have htook : m ∈ (mine i s.log).filterMap Event.took? := by
    rw [tooks_of_life (h.life i)]
    exact List.mem_append_left _ hgot
  obtain ⟨e, he, hem⟩ := List.mem_filterMap.mp htook
  obtain ⟨⟨j, e'⟩, hx, rfl⟩ := List.mem_map.mp he
  obtain ⟨hlog, hj⟩ := List.mem_filter.mp hx
  have hij : j = i := by simpa using hj
  refine List.mem_filterMap.mpr ⟨(j, e'), hlog, ?_⟩
  show e'.took?.map (Prod.mk j) = some (i, m)
  rw [show e'.took? = some m from hem, hij]
  rfl

/-- **EXACTLY ONCE**: in every run of any number of workers on a queue from
    which nothing was drained, with messages that have different ids. -/
theorem exactlyOnce_of_runs [Fintype ι] {b : Broker}
    (hname : ∀ i, (c i).memQQueue = name) (hp : b.queues name = some p)
    (hq : Conserved (b.heap p)) (hd : (b.heap p).drained = 0)
    (hids : ((b.heap p).messages.map Message.id).Nodup)
    (h : Runs c name (start ι b) s) : ExactlyOnce p (b.heap p) s := by
  have hinv := inv_of_runs hname hp hq hd h
  have htooks : ((tooks s.log).map Message.id).Nodup := by
    rw [hinv.fifo, List.map_append] at hids
    exact (List.nodup_append.mp hids).1
  refine ⟨?_, ?_, ?_, ?_, ?_⟩
  · -- both took a message of that id out, and each id came out once
    intro i j m m' hm hm' hid
    have hnodup : ((takers s.log).map fun x => x.2.id).Nodup := by
      rw [← map_snd_takers, List.map_map] at htooks
      exact htooks
    have heq := List.inj_on_of_nodup_map hnodup (mem_takers_of_got hinv hm)
      (mem_takers_of_got hinv hm') hid
    exact congrArg Prod.fst heq
  · intro i
    have hsub : ((mine i s.log).filterMap Event.got?).Sublist (tooks s.log) := by
      refine List.Sublist.trans ?_ ((mine_sublist i s.log).filterMap Event.took?)
      rw [tooks_of_life (hinv.life i)]
      exact List.sublist_append_left _ _
    exact htooks.sublist (hsub.map Message.id)
  · intro i pre m post hsplit
    exact (since_of_life (hinv.life i) hsplit).takeWhile_inside
  · intro i code hi
    exact hinv.empty i (by rw [hi]; trivial)
  · -- nobody has a message on its way any more, and nobody one in hand
    rintro ⟨i₀⟩ hall
    have hnil : (s.broker.heap p).messages = [] := by
      obtain ⟨code, hi⟩ := hall i₀
      exact hinv.empty i₀ (by rw [hi]; trivial)
    have hcount : ∀ i, (mine i s.log).count .itemDone
        = ((mine i s.log).filterMap Event.took?).length := by
      intro i
      obtain ⟨code, hi⟩ := hall i
      have hitems := items_of_life (hinv.life i)
      have htook := tooks_of_life (hinv.life i)
      rw [hi] at hitems htook
      rw [htook, show Phase.inflight (.exited code) = [] from rfl,
        List.append_nil, hitems]
      rfl
    have hdepth : (s.broker.heap p).depth = 0 := by
      rw [hinv.conserved.depth, hnil]
      rfl
    refine ⟨?_, hdepth, ?_⟩
    · rw [Finset.sum_congr rfl fun i _ => hcount i, sum_tooks, hinv.fifo, hnil,
        List.append_nil]
    · have hbalance := hinv.conserved.balance
      have hdrained := hinv.drained
      omega

end Job

/-! ## Two workers and one message -/

/-- A worker of the queue jobs. -/
def jobConfig : Config := ⟨true, 0, 0, "http://memq", "jobs", true, 0⟩

/-- The queue jobs with one message. -/
def oneJob : Broker :=
  ((newBroker.createQueue "jobs").2.putMessage 0
    (newMessage (.ok (Vector.replicate 16 7)) 0 "x")).2

/-- The run goes on with a step of one worker. -/
theorem exists_next {ι : Type} [DecidableEq ι] {c : ι → Config} {name : String}
    {s₀ : World ι} {b b' : Broker} {phase : ι → Phase} (i : ι)
    {es : List Event} {ph : Phase}
    (h : ∃ s, Runs c name s₀ s ∧ s.broker = b ∧ s.phase = phase)
    (hl : Local (c i) b (phase i) es ph b') :
    ∃ s, Runs c name s₀ s ∧ s.broker = b'
      ∧ s.phase = Function.update phase i ph := by
  obtain ⟨s, hs, rfl, rfl⟩ := h
  exact ⟨_, hs.tail (.worker i hl), rfl, rfl⟩

/-- Two workers look the queue up, one of them gets the message and does it,
    and both find the queue empty and exit. -/
theorem exactlyOnce_twoWorkers :
    ∃ s : World Bool, (∀ i, ∃ code, s.phase i = .exited code)
      ∧ ExactlyOnce 0 (oneJob.heap 0) s := by
  have hfound : oneJob.getQueue jobConfig.memQQueue = .ok 0 := rfl
  have hfound' : (oneJob.getMessage 0).2.getQueue jobConfig.memQQueue
      = .ok 0 := rfl
  have hname : jobConfig.memQQueue ≠ "" := by decide
  have h : ∃ s, Runs (fun _ : Bool => jobConfig) "jobs" (start Bool oneJob) s
      ∧ s.broker = oneJob ∧ s.phase = fun _ => .ready := ⟨_, .refl, rfl, rfl⟩
  -- both are in `GetMessage`
  have h := exists_next true h .call
  have h := exists_next false h .call
  have h := exists_next true h (.found hname hfound)
  have h := exists_next false h (.found hname hfound)
  -- the first gets the message, the second nothing
  have h := exists_next true h (.getMessage 0)
  have h := exists_next false h (.getMessage 0)
  have h := exists_next false h (.returned _)
  have h := exists_next false h (.exit rfl)
  have h := exists_next true h (.returned _)
  have h := exists_next true h (.itemDone rfl)
  -- the first again
  have h := exists_next true h .call
  have h := exists_next true h (.found hname hfound')
  have h := exists_next true h (.getMessage 0)
  have h := exists_next true h (.returned _)
  have h := exists_next true h (.exit rfl)
  obtain ⟨s, hs, -, hphase⟩ := h
  have hqueue : oneJob.queues "jobs" = some 0 := rfl
  have hone : Conserved (oneJob.heap 0) := ⟨rfl, rfl, le_rfl, le_rfl⟩
  refine ⟨s, ?_, exactlyOnce_of_runs (fun _ => rfl) hqueue hone rfl
    (List.nodup_singleton _) hs⟩
  rw [hphase]
  rintro (_ | _)
  · exact ⟨0, rfl⟩
  · exact ⟨0, rfl⟩

end MemqJob
