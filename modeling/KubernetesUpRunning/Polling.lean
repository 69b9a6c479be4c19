import KubernetesUpRunning.Convergence

/-! # The polling operator

    Operator v1 has no queue and no informers: on every tick it lists the CRs
    of all namespaces and hands each item of the list to `reconcileOne`, one
    after the other.  By the time an item has its turn the list is old.  It is
    harmless: `pass_eq` says that the pass does what a fresh fetch of every key
    would do.  So three ticks that get a list bring the cluster to rest. -/

namespace Polling

open ApiServer CallProgram ClusterRuns Convergence FairRounds FixedPoint GoJson
open KubeObjects Neighbours Reconcile ReconcileEffect ReconcileRun ServerSteps
open VersionedStore

/-- The answer of the `List` call. -/
abbrev Listed := Except ApiError (List (Versioned Multiplicador))

/-- The loop of `reconcileAll`; an error is logged, a panic is not caught. -/
def reconcileItems : List (Versioned Multiplicador) → Api Outcome
  | [] => return .nil
  | item :: rest => do
      match ← reconcileOne item with
      | .panic => return .panic
      | _ => reconcileItems rest

/-- `reconcileAll`. -/
def reconcileAll : Listed → Api Outcome
  | .error e => return .error (.wrap "lista multiplicadores: " (.api e))
  | .ok items => reconcileItems items

/-- Where an item of the list is stored. -/
def itemKey (u : Versioned Multiplicador) : Key := (nsOf u.obj, u.obj.name)

/-- The list holds every stored CR once, as it is stored. -/
structure Lists (c : Cluster) (items : List (Versioned Multiplicador)) :
    Prop where
  once : (items.map itemKey).Nodup
  stored : ∀ u ∈ items, c.crs (itemKey u) = some u
  complete : ∀ k, c.crs k ≠ none → k ∈ items.map itemKey

/-! ## An old list is as good as fresh reads -/

/-- Fetch and reconcile every key in turn, up to the first panic. -/
def freshPass (c : Cluster) : List Key → Cluster × Outcome
  | [] => (c, .nil)
  | k :: ks =>
      if outcomeOf c k = .panic then (reconcileNow c k, .panic)
      else freshPass (reconcileNow c k) ks

/-- A reconcile of the stored CR is a fetch and a reconcile. -/
theorem run_item {c : Cluster} {u : Versioned Multiplicador}
    (h : c.crs (itemKey u) = some u) :
    (reconcileOne u).run serve c
      = (reconcileNow c (itemKey u), outcomeOf c (itemKey u)) := by
  rw [reconcileNow, outcomeOf, run_reconcileKey_of_some h]

/-- **A PASS OVER AN OLD LIST** does what a fresh fetch of every key does: the
    reconcile of one CR leaves the other CRs as they were listed. -/
theorem pass_eq {c : Cluster} (h : WellFormed c)
    {items : List (Versioned Multiplicador)}
    (honce : (items.map itemKey).Nodup)
    (hstored : ∀ u ∈ items, c.crs (itemKey u) = some u) :
    (reconcileAll (.ok items)).run serve c
      = freshPass c (items.map itemKey) := by
  show (reconcileItems items).run serve c = _
  induction items generalizing c with
  | nil => rfl
  | cons u rest ih =>
      rw [List.map_cons, List.nodup_cons] at honce
      have hu := hstored u List.mem_cons_self
      rw [reconcileItems, List.map_cons, freshPass, Prog.run_bind, run_item hu]
      -- the rest of the list is still current after the turn of `u`
      have hrest : ∀ v ∈ rest,
          (reconcileNow c (itemKey u)).crs (itemKey v) = some v := by
        intro v hv
        have hne : itemKey v ≠ itemKey u :=
          fun e => honce.1 (e ▸ List.mem_map_of_mem hv)
        rw [reconcileNow_crs_of_ne h hne]
        exact hstored v (List.mem_cons_of_mem u hv)
      have hnext := ih (wellFormed_reconcileNow h) honce.2 hrest
      cases ho : outcomeOf c (itemKey u) with
      | nil =>
          rw [if_neg (by simp)]
          exact hnext
      | error e =>
          rw [if_neg (by simp)]
          exact hnext
      | panic =>
          rw [if_pos rfl]
          rfl

/-! ## Passes that panic nowhere -/

theorem freshPass_of_maps {c : Cluster} (h : WellFormed c) (hm : HaveMaps c)
    (ks : List Key) : freshPass c ks = (turns reconcileNow c ks, .nil) := by
  induction ks generalizing c with
  | nil => rfl
  | cons k ks ih =>
      rw [freshPass, outcomeOf_of_maps h hm, if_neg (by simp)]
      exact ih (wellFormed_reconcileNow h) (haveMaps_reconcileNow hm k)

/-! ## The loop of the program -/

/-- What a tick does, given what the `List` call answers. -/
def tick (c : Cluster) (l : Listed) : Cluster × Outcome :=
  (reconcileAll l).run serve c

/-- The loop of `main`: a panic ends the process, an error waits for the next
    tick.  What every tick returned comes with the cluster. -/
def loop (c : Cluster) : List Listed → Cluster × List Outcome
  | [] => (c, [])
  | l :: ls =>
      let r := tick c l
      if r.2 = .panic then (r.1, [.panic])
      else ((loop r.1 ls).1, r.2 :: (loop r.1 ls).2)

/-- Every list that comes back is one of the cluster as it then is. -/
def Truthful (c : Cluster) : List Listed → Prop
  | [] => True
  | l :: ls => (∀ items, l = .ok items → Lists c items)
      ∧ Truthful (tick c l).1 ls

/-- How many ticks get a list. -/
def answered (ls : List Listed) : Nat := ls.countP Except.isOk

section Loop

variable {c : Cluster}

/-- A tick of a peaceful cluster. -/
theorem tick_eq (h : Peaceful c) {items : List (Versioned Multiplicador)}
    (hl : Lists c items) :
    tick c (.ok items)
      = (turns reconcileNow c (items.map itemKey), .nil) := by
  rw [tick, pass_eq h.wellFormed hl.once hl.stored,
    freshPass_of_maps h.wellFormed h.maps]

theorem loop_cons (c : Cluster) (l : Listed) (ls : List Listed)
    (h : (tick c l).2 ≠ .panic) :
    loop c (l :: ls)
      = ((loop (tick c l).1 ls).1, (tick c l).2 :: (loop (tick c l).1 ls).2) := by
  rw [loop]
  exact if_neg h

/-- **THE LOOP CLIMBS** one stage with every list it gets, and never stops. -/
theorem stage_loop {n : Nat} (hn : n ≤ 3) (h : Peaceful c)
    (hall : ∀ k, ladder.stage n c k) {ls : List Listed} (ht : Truthful c ls) :
    Peaceful (loop c ls).1
      ∧ (∀ k, ladder.stage (min (n + answered ls) 3) (loop c ls).1 k)
      ∧ ∀ o ∈ (loop c ls).2, o ≠ .panic := by
  induction ls generalizing c n with
  | nil =>
      refine ⟨h, ?_, fun o ho => absurd ho List.not_mem_nil⟩
      rw [answered, List.countP_nil, Nat.add_zero, Nat.min_eq_left hn]
      exact hall
  | cons l ls ih =>
      obtain ⟨hl, ht⟩ := ht
      cases l with
      | error e =>
          have hrest := ih hn h hall ht
          rw [loop_cons c _ ls (by simp [tick, reconcileAll])]
          refine ⟨hrest.1, hrest.2.1, ?_⟩
          intro o ho
          rcases List.mem_cons.mp ho with rfl | ho
          · simp [tick, reconcileAll]
          · exact hrest.2.2 o ho
      | ok items =>
          have hlist := hl items rfl
          have htick := tick_eq h hlist
          rw [htick] at ht
          have hnext := ladder.stage_of_round hn h hall hlist.complete
          have hrest := ih (Nat.min_le_right (n + 1) 3)
            (turns_keep ladder.inv_step h (items.map itemKey)) hnext ht
          rw [loop_cons c _ ls (by rw [htick]; simp), htick]
          refine ⟨hrest.1, ?_, ?_⟩
          · have hcount : answered (Except.ok items :: ls)
                = answered ls + 1 := List.countP_cons_of_pos rfl
            rw [hcount]
            rw [show min (n + (answered ls + 1)) 3
              = min (min (n + 1) 3 + answered ls) 3 by omega]
            exact hrest.2.1
          · intro o ho
            rcases List.mem_cons.mp ho with rfl | ho
            · simp
            · exact hrest.2.2 o ho

/-- Where nobody moves any more the loop goes on without writing. -/
theorem loop_at_rest (h : Peaceful c)
    (hrest : ∀ k, reconcileNow c k = c) {ls : List Listed}
    (ht : Truthful c ls) : (loop c ls).1 = c := by
  induction ls with
  | nil => rfl
  | cons l ls ih =>
      obtain ⟨hl, ht⟩ := ht
      cases l with
      | error e =>
          rw [loop_cons c _ ls (by simp [tick, reconcileAll])]
          exact ih ht
      | ok items =>
          have htick := tick_eq h (hl items rfl)
          rw [turns_rest hrest] at htick
          rw [htick] at ht
          rw [loop_cons c _ ls (by rw [htick]; simp), htick]
          exact ih ht

theorem Truthful.left {ls ls' : List Listed} (h : Truthful c (ls ++ ls')) :
    Truthful c ls := by
  induction ls generalizing c with
  | nil => trivial
  | cons l ls ih => exact ⟨h.1, ih h.2⟩

/-- The loop goes on from where its first ticks leave it. -/
theorem loop_append {ls ls' : List Listed}
    (hnp : ∀ o ∈ (loop c ls).2, o ≠ .panic) (ht : Truthful c (ls ++ ls')) :
    Truthful (loop c ls).1 ls'
      ∧ (loop c (ls ++ ls')).1 = (loop (loop c ls).1 ls').1 := by
  induction ls generalizing c with
  | nil => exact ⟨ht, rfl⟩
  | cons l ls ih =>
      have hne : (tick c l).2 ≠ .panic := by
        intro hp
        have hloop : loop c (l :: ls) = ((tick c l).1, [.panic]) := by
          rw [loop]
          exact if_pos hp
        rw [hloop] at hnp
        exact hnp .panic (List.mem_singleton_self _) rfl
      rw [loop_cons c l ls hne] at hnp ⊢
      rw [List.cons_append, loop_cons c l _ hne]
      exact ih (fun o ho => hnp o (List.mem_cons_of_mem _ ho)) ht.2

end Loop

/-- **POLLING COMES TO REST**: the loop never panics; when three ticks have got
    a list, in whatever order each of them names the CRs and whatever other
    ticks failed to get one, every CR has what it asks for and no later tick
    changes anything. -/
theorem polling_rests {c : Cluster} (h : Peaceful c) {ls ls' : List Listed}
    (ht : Truthful c (ls ++ ls')) (hthree : 3 ≤ answered ls) :
    (loop c (ls ++ ls')).1 = (loop c ls).1
      ∧ (∀ o ∈ (loop c (ls ++ ls')).2, o ≠ .panic)
      ∧ ∀ k u, (loop c ls).1.crs k = some u →
        Settled (loop c ls).1 u.obj := by
  have hzero : ∀ k, ladder.stage 0 c k := ladder.zero c
  have hwhole := stage_loop (Nat.zero_le 3) h hzero ht
  obtain ⟨hpeace, htop, hnp⟩ := stage_loop (Nat.zero_le 3) h hzero ht.left
  rw [show min (0 + answered ls) 3 = 3 by omega] at htop
  obtain ⟨ht', heq⟩ := loop_append hnp ht
  refine ⟨?_, hwhole.2.2, htop⟩
  rw [heq]
  exact loop_at_rest hpeace
    (fun k => reconcileNow_of_settled hpeace.wellFormed fun u => htop _ u) ht'

/-! ## Lists in a given order -/

/-- The stored CRs, in the order of the keys. -/
def listOf (c : Cluster) (ks : List Key) : List (Versioned Multiplicador) :=
  ks.filterMap c.crs

/-- It is a list of the cluster. -/
theorem lists_listOf {c : Cluster} {ks : List Key} (h : WellFormed c)
    (honce : ks.Nodup) (hks : ∀ k, c.crs k ≠ none → k ∈ ks) :
    Lists c (listOf c ks) := by
  have hkey : ∀ k u, c.crs k = some u → itemKey u = k :=
    fun k u hu => (h.stored k u hu).key
  have hsub : ((listOf c ks).map itemKey).Sublist ks := by
    clear honce hks
    induction ks with
    | nil => exact List.Sublist.refl []
    | cons k ks ih =>
        rw [listOf, List.filterMap_cons]
        cases hk : c.crs k with
        | none => exact ih.cons k
        | some u =>
            rw [List.map_cons, hkey k u hk]
            exact ih.cons_cons k
  refine ⟨hsub.nodup honce, ?_, ?_⟩
  · intro u hu
    obtain ⟨k, -, hk⟩ := List.mem_filterMap.mp hu
    rw [hkey k u hk]
    exact hk
  · intro k hk
    obtain ⟨u, hu⟩ := Option.ne_none_iff_exists'.mp hk
    have hmem := List.mem_map_of_mem (f := itemKey)
      (List.mem_filterMap.mpr ⟨k, hks k hk, hu⟩)
    rwa [hkey k u hu] at hmem

/-- What the `List` calls answer when the n-th list comes in the n-th order. -/
def polls (c : Cluster) : List (List Key) → List Listed
  | [] => []
  | ks :: rest =>
      .ok (listOf c ks) :: polls (tick c (.ok (listOf c ks))).1 rest

/-- The cluster after these ticks. -/
def polled (c : Cluster) : List (List Key) → Cluster
  | [] => c
  | ks :: rest => polled (tick c (.ok (listOf c ks))).1 rest

theorem polls_append (c : Cluster) (orders orders' : List (List Key)) :
    polls c (orders ++ orders')
      = polls c orders ++ polls (polled c orders) orders' := by
  induction orders generalizing c with
  | nil => rfl
  | cons ks rest ih => exact congrArg (List.cons _) (ih _)

theorem answered_polls (c : Cluster) (orders : List (List Key)) :
    answered (polls c orders) = orders.length := by
  induction orders generalizing c with
  | nil => rfl
  | cons ks rest ih =>
      exact (List.countP_cons_of_pos rfl).trans (congrArg (· + 1) (ih _))

/-- These answers are true. -/
theorem truthful_polls {c : Cluster} (h : Peaceful c)
    {orders : List (List Key)} (hn : ∀ ks ∈ orders, ks.Nodup)
    (hks : ∀ ks ∈ orders, ladder.Covers c ks) :
    Truthful c (polls c orders) := by
  induction orders generalizing c with
  | nil => trivial
  | cons ks rest ih =>
      have hlist : Lists c (listOf c ks) :=
        lists_listOf h.wellFormed (hn ks List.mem_cons_self)
          (hks ks List.mem_cons_self)
      refine ⟨fun items hi => ?_, ?_⟩
      · rw [← Except.ok.inj hi]
        exact hlist
      · rw [tick_eq h hlist]
        refine ih (turns_keep ladder.inv_step h _)
          (fun ks' hk => hn ks' (List.mem_cons_of_mem _ hk)) fun ks' hk => ?_
        exact (hks ks' (List.mem_cons_of_mem _ hk)).turns ladder _

/-- Ticks over the shared host, three and then one more. -/
theorem polling_rests_sharedHost :
    (loop sharedHost (polls sharedHost [forth, back, forth]
        ++ polls (polled sharedHost [forth, back, forth]) [back])).1
      = (loop sharedHost (polls sharedHost [forth, back, forth])).1 := by
  have htrue : Truthful sharedHost (polls sharedHost
      ([forth, back, forth] ++ [back])) := by
    refine truthful_polls peaceful_sharedHost (by decide) ?_
    intro ks hks
    simp only [List.cons_append, List.nil_append, List.mem_cons,
      List.not_mem_nil, or_false] at hks
    rcases hks with rfl | rfl | rfl | rfl
    · exact fun _ => mem_forth
    · exact fun _ => mem_back
    · exact fun _ => mem_forth
    · exact fun _ => mem_back
  rw [polls_append] at htrue
  refine (polling_rests peaceful_sharedHost htrue ?_).1
  rw [answered_polls]
  decide

end Polling
