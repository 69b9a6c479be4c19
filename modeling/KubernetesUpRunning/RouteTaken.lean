import KubernetesUpRunning.Bookkeeping
import KubernetesUpRunning.EventRest

/-! # A route that is taken away unseen

    What the event loop of operator v2 does where `in_service_when_quiet` does
    not apply: a CR that still has the route of another on record, and asks for
    something else by now, takes that route out of the proxy when it gets its
    turn.  No informer reports it, so the CR that is served under the route
    gets no turn, and the route stays away until somebody else reports that
    CR.  As in `EventLoop`, turns do not overlap; a worker that had the CR in
    process meanwhile could bring its route back. -/

namespace RouteTaken

open ApiServer Convergence EventLoop FixedPoint GoJson Idempotence KubeObjects
open Neighbours Notifications ProxyShape ProxyView QueueWorkers Reconcile
open ReconcileEffect ReconcileRun ServerSteps VersionedStore EventRest WorkQueue
open ClusterRuns hiding Move

/-! ## The proxy -/

/-- The proxy, if it is there, has no route under the prefix. -/
def Gone (p : String) (o : Option Fields) : Prop :=
  ∀ x, o = some x → ∀ r ∈ routesOf x, hasPrefix p r = false

section Proxy

variable {p : String} {v : Multiplicador} {P : Key → Option Fields} {q : Key}

/-- A CR that leaves takes the route it has on record with it. -/
theorem gone_leaveContent (hp : p ≠ "") (uid : String) (o : Option Fields) :
    Gone p (leaveContent uid p o) := by
  intro m hm r hr
  cases o with
  | none => exact absurd hm (by simp [leaveContent])
  | some x =>
      obtain ⟨rfl, -⟩ := leaveContent_some hm
      rw [routesOf_stripProxy, keptRoutes, if_neg hp] at hr
      simpa using (List.mem_filter.mp hr).2

theorem Gone.leaveContent {o : Option Fields} (h : Gone p o)
    (uid route : String) : Gone p (leaveContent uid route o) := by
  intro m hm r hr
  cases o with
  | none => exact absurd hm (by simp [ReconcileRun.leaveContent])
  | some x =>
      obtain ⟨rfl, -⟩ := leaveContent_some hm
      rw [routesOf_stripProxy] at hr
      exact h x rfl r ((keptRoutes_sublist _ _).subset hr)

/-- A merge puts the route of its own CR there and no other. -/
theorem gone_mergeContent {o : Option Fields} {m : Fields}
    (hne : prefixOf v ≠ p) (hm : mergeContent v o = some m)
    (h : ∀ r ∈ mergeBase v ((o.map routesOf).getD []),
      hasPrefix p r = false) : Gone p (some m) := by
  intro x hx r hr
  rw [← Option.some.inj hx, (mergeContent_spec hm).2.1] at hr
  rcases mem_upsertRoute hr with rfl | hr
  · simpa [hasPrefix] using hne
  · exact h r hr

/-- **GONE IS GONE** through the reconciles of CRs that are not served under
    the prefix. -/
theorem Gone.kept (h : Gone p (P q))
    (hmerge : joins v = true → q = targetKey v → prefixOf v ≠ p) :
    Gone p (proxiesAfter v P q) := by
  refine kept_proxiesAfter (fun _ _ ho => ho.leaveContent _ _) ?_ h
  intro hj hq o m ho hm
  refine gone_mergeContent (hmerge hj hq) hm fun r hr => ?_
  cases o with
  | none => exact absurd ((mergeBase_sublist v _).subset hr) (by simp)
  | some x => exact ho x rfl r ((mergeBase_sublist v _).subset hr)

/-- **A CR THAT HAS THE ROUTE ON RECORD TAKES IT AWAY**, whether it moves to
    another proxy or to another prefix of the same. -/
theorem gone_of_record (hp : p ≠ "") (hj : joins v = true)
    (hold : oldKey v = q) (hroute : prevRoute v = p) (hrec : prevProxy v ≠ "")
    (hmerge : q = targetKey v → prefixOf v ≠ p ∧
      ∃ m, mergeContent v (P q) = some m) :
    Gone p (proxiesAfter v P q) := by
  have hlive : v.deletionTimestamp.isSome = false := by
    obtain ⟨ha, -⟩ := joins_iff.mp hj
    rw [(active_iff.mp ha).1]
    rfl
  rw [proxiesAfter_eq, joinProxies, if_pos hj]
  by_cases hmove : prevProxy v = proxyNameOf v
  · -- it stays where it is and is to be served under another prefix
    have htarget : q = targetKey v := by
      rw [← hold, oldKey, hmove]
      rfl
    obtain ⟨hne, m, hm⟩ := hmerge htarget
    have hdep : departs v = false := by
      rw [departs, hlive, if_neg (by simp), movesAway]
      simp [hmove]
    have hsame : departProxies v P = P := by
      rw [departProxies, if_neg (by simp [hdep])]
    have hm' : mergeContent v (departProxies v P (targetKey v)) = some m := by
      rw [hsame, ← htarget]
      exact hm
    rw [installProxies_ok hm', show (nsOf v, proxyNameOf v) = q from
      htarget.symm, Function.update_self]
    refine gone_mergeContent hne hm fun r hr => ?_
    rw [mergeBase, if_pos ⟨hmove, by rw [hroute]; exact hp,
      by rw [hroute]; exact hne.symm⟩, hroute] at hr
    simpa using (List.mem_filter.mp hr).2
  · -- it leaves for another proxy
    have hdep : departs v = true := by
      rw [departs, hlive, if_neg (by simp), hj, movesAway]
      simp [hmove, hrec]
    have hne : q ≠ targetKey v := by
      rw [← hold]
      exact oldKey_ne_targetKey hj hdep
    have hleft : departProxies v P q = leaveContent v.uid p (P q) := by
      rw [departProxies, if_pos hdep, hold, hroute, Function.update_self]
    have hrest : installProxies v (departProxies v P) q
        = departProxies v P q := by
      cases hm : mergeContent v (departProxies v P (targetKey v)) with
      | none => rw [installProxies_panic hm]
      | some m =>
          rw [installProxies_ok hm]
          exact Function.update_of_ne hne _ _
    rw [hrest, hleft]
    exact gone_leaveContent hp _ _

/-- Where its route is gone, a CR is not served. -/
theorem not_serves_of_gone {u : Multiplicador} {m : Fields}
    (h : Gone (prefixOf u) (some m)) : ¬ Serves u m := by
  intro hs
  obtain ⟨-, spec, hspec, ⟨rs, hrts, hfind⟩, -⟩ := serves_iff.mp hs
  have hmem : routeFor u ∈ routesOf m := by
    rw [show routesOf m = rs by simp [routesOf, hspec, hrts]]
    exact List.mem_of_find?_eq_some hfind
  have hno := h m rfl _ hmem
  rw [hasPrefix, firstPrefix_routeFor] at hno
  exact absurd hno (by simp)

end Proxy

/-! ## The queue -/

/-- No Deployment of another CR names the CR at `k` as its owner. -/
def Strangers (k : Key) (c : Cluster) : Prop :=
  ∀ k' d, k' ≠ k → content c.deployments (deploymentKey k') = some d →
    d.ns = k'.1 ∧ keyFor k.1 k.2 ∉ enqueueOwner d.ns d.ownerReferences

/-- The CR at `k` is not queued and not about to be. -/
structure Unheeded (k : Key) (s : Loop) : Prop where
  unqueued : keyFor k.1 k.2 ∉ s.queue.queue
  unreported : ∀ n ∈ s.pending, keyFor k.1 k.2 ∉ n.keys
  strangers : Strangers k s.cluster

/-- A key of two parts is the key of what the worker reads from it. -/
theorem keyFor_splitKey {key : String} (hns : (splitKey key).1 ≠ "")
    (hname : (splitKey key).2 ≠ "") :
    keyFor (splitKey key).1 (splitKey key).2 = key := by
  have hsplit := List.takeWhile_append_dropWhile
    (p := fun ch => decide (ch ≠ '/')) (l := key.toList)
  rw [keyFor, if_neg hns]
  apply String.toList_inj.mp
  rw [String.toList_append, String.toList_append, splitKey,
    String.toList_ofList, String.toList_ofList]
  conv_rhs => rw [← hsplit]
  rw [List.append_assoc]
  congr 1
  cases hd : key.toList.dropWhile fun ch => decide (ch ≠ '/') with
  | nil =>
      refine absurd ?_ hname
      show String.ofList _ = ""
      rw [hd]
      rfl
  | cons ch rest =>
      have hhead := List.head?_dropWhile_not
        (fun ch => decide (ch ≠ '/')) key.toList
      rw [hd] at hhead
      obtain rfl : ch = '/' := by simpa using hhead
      show ['/'] ++ (String.ofList rest).toList = _
      rw [String.toList_ofList]
      rfl

section Queue

variable {ks : List Key} {s s' : Loop} {m : Move} {k k' : Key}

theorem keyFor_ne (h : Fit ks s) {u v : Versioned Multiplicador}
    (hu : s.cluster.crs k = some u) (hv : s.cluster.crs k' = some v)
    (hne : k' ≠ k) : keyFor k'.1 k'.2 ≠ keyFor k.1 k.2 := by
  intro e
  have hk := keyFor_stored h hu
  rw [← e, keyFor_stored h hv] at hk
  exact hne hk

/-- An informer reports an object as it was or as it is. -/
theorem mem_changes {α : Type} [DecidableEq α] {old new : Option α}
    {e : Event α} (h : e ∈ changes old new) :
    some e.subject = old ∨ some e.subject = new := by
  cases old with
  | none =>
      cases new with
      | none => exact absurd h List.not_mem_nil
      | some new =>
          rw [List.mem_singleton.mp h]
          exact Or.inr rfl
  | some old =>
      cases new with
      | none =>
          rw [List.mem_singleton.mp h]
          exact Or.inl rfl
      | some new =>
          rw [changes] at h
          split at h
          · exact absurd h List.not_mem_nil
          · rw [List.mem_singleton.mp h]
            exact Or.inr rfl

theorem crKeys_eq (e : Event Multiplicador) :
    crKeys e = [keyFor e.subject.ns e.subject.name] := by
  cases e <;> rfl

theorem deploymentKeys_sub {e : Event Deployment} {key : String}
    (h : key ∈ deploymentKeys e) :
    key ∈ enqueueOwner e.subject.ns e.subject.ownerReferences := by
  cases e with
  | add d => exact h
  | update old new => exact h
  | delete d => exact h
  | tombstone key d => exact absurd h List.not_mem_nil

/-- An owner reference at the end of the list is found last. -/
theorem mem_enqueueOwner_append {ns key : String} {rs : List OwnerReference}
    {r : OwnerReference} (h : key ∈ enqueueOwner ns (rs ++ [r])) :
    key ∈ enqueueOwner ns rs ∨ key = keyFor ns r.name := by
  induction rs with
  | nil =>
      rw [List.nil_append, enqueueOwner] at h
      split at h
      · exact Or.inr (List.mem_singleton.mp h)
      · exact Or.inl h
  | cons r' rest ih =>
      rw [List.cons_append, enqueueOwner] at h
      rw [enqueueOwner]
      split
      · rename_i hh
        rw [if_pos hh] at h
        exact Or.inl h
      · rename_i hh
        rw [if_neg hh] at h
        exact ih h

/-- The Deployment of a CR names that CR as its owner, and no stranger. -/
theorem strangers_turn (hf : Fit ks s) {u : Versioned Multiplicador}
    (hu : s.cluster.crs k = some u) (h : Strangers k s.cluster)
    (hne : k' ≠ k) : Strangers k (reconcileNow s.cluster k') := by
  intro j d hj hd
  cases hv : s.cluster.crs k' with
  | none =>
      rw [reconcileNow_of_none hv] at hd
      exact h j d hj hd
  | some v =>
      have hn := hf.wellFormed.stored k' v hv
      have hother : keyFor k.1 k.2 ≠ keyFor k'.1 v.obj.name := by
        rw [hn.name]
        exact (keyFor_ne hf hu hv hne).symm
      rw [reconcileNow_deployments hf.wellFormed hv] at hd
      split at hd
      · by_cases hjk : j = k'
        · subst hjk
          rw [Function.update_self] at hd
          rw [← Option.some.inj hd]
          cases hold : content s.cluster.deployments (deploymentKey j) with
          | none =>
              refine ⟨hn.nsOf, fun hmem => ?_⟩
              have hns : (newDeployment v.obj).ns = j.1 := hn.nsOf
              have hlast := @mem_enqueueOwner_append _ _ [] _ hmem
              rcases hlast with hmem | hmem
              · exact absurd hmem List.not_mem_nil
              · rw [show (deploymentAfter v.obj none).ns = j.1 from hns]
                  at hmem
                exact hother hmem
          | some d₀ =>
              obtain ⟨hns, hno⟩ := h j d₀ hj hold
              refine ⟨hns, fun hmem => ?_⟩
              have hrefs : (deploymentAfter v.obj (some d₀)).ownerReferences
                  = d₀.ownerReferences
                ∨ (deploymentAfter v.obj (some d₀)).ownerReferences
                  = d₀.ownerReferences
                    ++ [newControllerRef v.obj (gvkOf v.obj)] := by
                show (if _ then _ else _) = _ ∨ (if _ then _ else _) = _
                split
                · exact Or.inl rfl
                · exact Or.inr rfl
              rcases hrefs with hrefs | hrefs
              · rw [hrefs] at hmem
                exact hno hmem
              · rw [hrefs] at hmem
                rcases mem_enqueueOwner_append hmem with hmem | hmem
                · exact hno hmem
                · rw [show (deploymentAfter v.obj (some d₀)).ns = j.1 from hns]
                    at hmem
                  exact hother hmem
        · rw [Function.update_of_ne
            (fun e => hjk (deploymentKey_inj.mp e))] at hd
          exact h j d hj hd
      · exact h j d hj hd

/-- What is reported of the reconcile of another CR does not name this one. -/
theorem newsOf_strange (hf : Fit ks s) {u : Versioned Multiplicador}
    (hu : s.cluster.crs k = some u) (h : Strangers k s.cluster)
    (hne : k' ≠ k) :
    ∀ n ∈ newsOf s.cluster (reconcileNow s.cluster k') k',
      keyFor k.1 k.2 ∉ n.keys := by
  intro n hn hmem
  rw [newsOf, List.mem_append, List.mem_map, List.mem_map] at hn
  rcases hn with ⟨e, he, rfl⟩ | ⟨e, he, rfl⟩
  · -- the CR itself, before or after
    have hcr : ∃ v, s.cluster.crs k' = some v := by
      cases hv : s.cluster.crs k' with
      | some v => exact ⟨v, rfl⟩
      | none =>
          rw [reconcileNow_of_none hv, content_of_none hv] at he
          exact absurd he List.not_mem_nil
    obtain ⟨v, hv⟩ := hcr
    have hstored : Stored k' e.subject := by
      rcases mem_changes he with hs | hs
      · obtain ⟨w, hw, hobj⟩ := Option.map_eq_some_iff.mp hs.symm
        rw [← hobj]
        exact hf.wellFormed.stored k' w hw
      · obtain ⟨w, hw, hobj⟩ := Option.map_eq_some_iff.mp hs.symm
        rw [← hobj]
        exact (wellFormed_reconcileNow hf.wellFormed).stored k' w hw
    have hmem' : keyFor k.1 k.2 ∈ crKeys e := hmem
    rw [crKeys_eq, crKeys_stored hstored, List.mem_singleton] at hmem'
    exact keyFor_ne hf hu hv hne hmem'.symm
  · -- its Deployment
    have hkey := deploymentKeys_sub hmem
    rcases mem_changes he with hs | hs
    · exact (h k' _ hne hs.symm).2 hkey
    · exact (strangers_turn hf hu h hne k' _ hne hs.symm).2 hkey

/-- The keys that are added are in the queue, or they were before. -/
theorem of_mem_addAll {q : Queue String} {keys : List String} {key : String}
    (h : key ∈ (addAll q keys).queue) : key ∈ q.queue ∨ key ∈ keys := by
  induction keys generalizing q with
  | nil => exact Or.inl h
  | cons key' keys ih =>
      rcases ih h with h | h
      · rw [Queue.add] at h
        split at h
        · exact Or.inl h
        · split at h
          · exact Or.inl h
          · rcases List.mem_append.mp h with h | h
            · exact Or.inl h
            · exact Or.inr (List.mem_singleton.mp h ▸ List.mem_cons_self)
      · exact Or.inr (List.mem_cons_of_mem _ h)

/-- A turn that takes a queued key is the turn of another CR. -/
theorem turn_ne (hf : Fit ks s) {u : Versioned Multiplicador}
    (hu : s.cluster.crs k = some u) (h : Unheeded k s) {key : String}
    {q : Queue String} (hg : s.queue.get = some (key, q)) :
    splitKey key ≠ k := by
  rintro rfl
  have hn := hf.wellFormed.stored _ u hu
  refine h.unqueued ?_
  rw [keyFor_splitKey hn.nonempty hn.named, (queue_of_turn hf.resting hg).2]
  exact List.mem_cons_self

/-- **NOBODY TURNS TO IT**: a CR that is not queued stays so until somebody
    else reports it. -/
theorem unheeded_step (hf : Fit ks s) {u : Versioned Multiplicador}
    (hu : s.cluster.crs k = some u) (h : Unheeded k s)
    (hno : ∀ n, m = .report n → keyFor k.1 k.2 ∉ n.keys)
    (hs : Step s m s') : Unheeded k s' := by
  cases hs with
  | report n =>
      refine ⟨h.unqueued, fun n' hn' => ?_, h.strangers⟩
      rcases List.mem_append.mp hn' with hn' | hn'
      · exact h.unreported n' hn'
      · rw [List.mem_singleton.mp hn']
        exact hno n rfl
  | deliver before after n hp =>
      refine ⟨fun hmem => ?_, fun n' hn' => h.unreported n' ?_, h.strangers⟩
      · rcases of_mem_addAll hmem with hmem | hmem
        · exact h.unqueued hmem
        · refine h.unreported n ?_ hmem
          rw [hp]
          exact List.mem_append_right _ List.mem_cons_self
      · rw [hp]
        rcases List.mem_append.mp hn' with hn' | hn'
        · exact List.mem_append_left _ hn'
        · exact List.mem_append_right _ (List.mem_cons_of_mem _ hn')
  | work key q hg ho =>
      have hne := turn_ne hf hu h hg
      refine ⟨fun hmem => h.unqueued ?_, fun n hn => ?_,
        strangers_turn hf hu h.strangers hne⟩
      · rw [(queue_of_turn hf.resting hg).2]
        exact List.mem_cons_of_mem _ hmem
      · rcases List.mem_append.mp hn with hn | hn
        · exact h.unreported n hn
        · exact newsOf_strange hf hu h.strangers hne n hn

end Queue

/-! ## The route -/

/-- The CR at `k` is to be served, its route is not there, and nobody turns to
    it. -/
structure Missed (k : Key) (u : Versioned Multiplicador) (s : Loop) :
    Prop where
  stays : s.cluster.crs k = some u
  joins : joins u.obj = true
  gone : Gone (prefixOf u.obj) (content s.cluster.proxies (targetKey u.obj))
  unheeded : Unheeded k s

section Route

variable {ks : List Key} {s s' : Loop} {m : Move} {ms : List Move} {k k' : Key}
  {u v : Versioned Multiplicador}

theorem missed_step (hf : Fit ks s) (hp : Peaceful s.cluster)
    (h : Missed k u s) (hno : ∀ n, m = .report n → keyFor k.1 k.2 ∉ n.keys)
    (hs : Step s m s') : Missed k u s' := by
  have hun := unheeded_step hf h.stays h.unheeded hno hs
  cases hs with
  | report n => exact ⟨h.stays, h.joins, h.gone, hun⟩
  | deliver before after n hb => exact ⟨h.stays, h.joins, h.gone, hun⟩
  | work key q hg ho =>
      have hne := turn_ne hf h.stays h.unheeded hg
      refine ⟨?_, h.joins, ?_, hun⟩
      · show (reconcileNow s.cluster (splitKey key)).crs k = some u
        rw [reconcileNow_crs_of_ne hf.wellFormed hne.symm]
        exact h.stays
      · show Gone _ (content (reconcileNow s.cluster (splitKey key)).proxies _)
        cases hv : s.cluster.crs (splitKey key) with
        | none =>
            rw [reconcileNow_of_none hv]
            exact h.gone
        | some v =>
            rw [reconcileNow_proxies hv]
            refine h.gone.kept fun hj ht => ?_
            have hapart := hp.apart k _ u v h.stays hv hne
            exact (hapart.routes h.joins hj ht).1

theorem missed_run (hf : Fit ks s) (hp : Peaceful s.cluster)
    (h : Missed k u s) (hr : Run s ms s')
    (hno : ∀ n, .report n ∈ ms → keyFor k.1 k.2 ∉ n.keys) :
    Missed k u s' := by
  induction hr with
  | nil s => exact h
  | cons hs _ ih =>
      refine ih (fit_step hf hs)
        (keep_step (fun _ j hc => hc.step j) hp hs) ?_
        fun n hn => hno n (List.mem_cons_of_mem _ hn)
      exact missed_step hf hp h
        (fun n hm => hno n (hm ▸ List.mem_cons_self)) hs

/-- **TAKEN AWAY UNSEEN**: a CR gets its turn that has the route of another on
    record and asks for something else by now; after that, whatever the order
    of the deliveries and of the turns, the other is served no more until
    somebody reports it. -/
theorem taken_unseen (hf : Fit ks s) (hp : Peaceful s.cluster)
    (hu : s.cluster.crs k = some u) (hj : joins u.obj = true)
    (hun : Unheeded k s) {key : String} {s₁ : Loop}
    (hv : s.cluster.crs (splitKey key) = some v)
    (hjv : joins v.obj = true) (hold : oldKey v.obj = targetKey u.obj)
    (hroute : prevRoute v.obj = prefixOf u.obj)
    (hs : Step s (.work key) s₁) (hr : Run s₁ ms s')
    (hno : ∀ n, .report n ∈ ms → keyFor k.1 k.2 ∉ n.keys) :
    s'.cluster.crs k = some u
      ∧ ∀ o, content s'.cluster.proxies (targetKey u.obj) = some o →
        (∀ r ∈ routesOf o, hasPrefix (prefixOf u.obj) r = false)
        ∧ ¬ Serves u.obj o := by
  have hun' := unheeded_step hf hu hun
    (fun n hm => absurd hm (by simp)) hs
  have hpeace := keep_step (I := Peaceful) (fun _ j hc => hc.step j) hp hs
  have hfit := fit_step hf hs
  have hmissed : Missed k u s₁ := by
    cases hs with
    | work _ q hg ho =>
        have hne := turn_ne hf hu hun hg
        refine ⟨?_, hj, ?_, hun'⟩
        · show (reconcileNow s.cluster (splitKey key)).crs k = some u
          rw [reconcileNow_crs_of_ne hf.wellFormed hne.symm]
          exact hu
        · show Gone _
            (content (reconcileNow s.cluster (splitKey key)).proxies _)
          rw [reconcileNow_proxies hv]
          have hrec : prevProxy v.obj ≠ "" := by
            rw [show prevProxy v.obj = proxyNameOf u.obj from
              congrArg Prod.snd hold]
            exact Bookkeeping.proxyNameOf_ne (hf.wellFormed.stored k u hu)
          refine gone_of_record (Bookkeeping.prefixOf_ne _) hjv hold hroute
            hrec fun ht => ⟨?_, ?_⟩
          · exact ((hp.apart k _ u v hu hv hne).routes hj hjv ht).1
          · obtain ⟨m, hm⟩ := exists_merge_of_maps hf.maps v.obj
            rw [leaveProxies_target, ← ht] at hm
            exact ⟨m, hm⟩
  have hend := missed_run hfit hpeace hmissed hr hno
  refine ⟨hend.stays, fun o ho => ?_⟩
  have hgone := hend.gone
  rw [ho] at hgone
  exact ⟨hgone o rfl, not_serves_of_gone hgone⟩

end Route

/-! ## A route that has changed hands -/

/-- The CR that is served as a.com/calc. -/
def servedCR : Multiplicador :=
  { newCR "web" "a.com" "calc" with
    annotations := some [(annProxy, "vhost-a-com"), (annProxyRoute, "/calc")]
    finalizers := [finalizerName] }

/-- The CR that was served as a.com/calc before, and has been edited. -/
def movedCR : Multiplicador :=
  { newCR "api" "b.com" "sum" with
    annotations := some [(annProxy, "vhost-a-com"), (annProxyRoute, "/calc")]
    finalizers := [finalizerName] }

/-- The edit has been delivered, and the first CR has had its turn. -/
def changedHands : Loop where
  cluster := clusterOf
    [(("default", "web"), ⟨servedCR, 1⟩), (("default", "api"), ⟨movedCR, 2⟩)]
    [] [(("default", "vhost-a-com"), ⟨newProxy servedCR, 3⟩)] 3
  pending := []
  queue := Queue.empty.add "default/api"

theorem peaceful_changedHands : Peaceful changedHands.cluster :=
  peaceful_clusterOf
    (wellFormed_clusterOf (by decide) (by decide) (by decide))
    (by decide) (by decide)

theorem fit_changedHands :
    Fit [("default", "web"), ("default", "api")] changedHands := by
  have hp := peaceful_changedHands
  have hmem : ∀ k, changedHands.cluster.crs k ≠ none →
      k ∈ [("default", "web"), ("default", "api")] := by
    intro k hk
    cases hcr : changedHands.cluster.crs k with
    | none => exact absurd hcr hk
    | some u => exact List.mem_map_of_mem (f := Prod.fst) (mem_of_storeOf hcr)
  refine ⟨hp.wellFormed, hp.maps, ?_, fun k hk => ?_, hmem,
    resting_add resting_empty⟩
  · intro k k' u v hu hv he
    by_contra hne
    exact (hp.apart k k' u v hu hv (Ne.symm hne)).uids he
  · have hk := hmem k hk
    simp only [List.mem_cons, List.not_mem_nil, or_false] at hk
    rcases hk with rfl | rfl <;> decide

/-- The first CR is served before the turn of the other, and not after it. -/
theorem taken_unseen_changedHands :
    (∃ o, content changedHands.cluster.proxies ("default", "vhost-a-com")
        = some o ∧ Serves servedCR o)
      ∧ ∃ s, Run changedHands [.work "default/api"] s
        ∧ ∀ o, content s.cluster.proxies ("default", "vhost-a-com") = some o →
          ¬ Serves servedCR o := by
  refine ⟨⟨newProxy servedCR, rfl, ?_⟩, ?_⟩
  · exact serves_newProxy servedCR
  · have hf := fit_changedHands
    have hg : changedHands.queue.get
        = some ("default/api", (changedHands.queue.get.get (by decide)).2) :=
      rfl
    have hs := Step.work (s := changedHands) "default/api" _ hg
      (outcomeOf_of_maps hf.wellFormed hf.maps _)
    refine ⟨_, .cons hs (.nil _), fun o ho => ?_⟩
    have hun : Unheeded ("default", "web") changedHands :=
      ⟨by decide, fun n hn => absurd hn List.not_mem_nil,
        fun k' d _ hd => absurd (show none = some d from hd) (by simp)⟩
    exact ((taken_unseen (k := ("default", "web")) hf peaceful_changedHands
      rfl rfl hun (v := ⟨movedCR, 2⟩) rfl rfl rfl rfl hs (.nil _)
      (fun n hn => absurd hn List.not_mem_nil)).2 o ho).2

end RouteTaken
