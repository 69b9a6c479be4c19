import KubernetesUpRunning.ClusterRuns
import KubernetesUpRunning.Idempotence

/-! # The reconciler comes to rest

    One reconcile of a live and valid CR puts its Deployment, its Service and
    the HTTPProxies in place; the CR itself needs up to three, because only the
    first change of a reconcile lands.  Once everything else is in place
    (`InPlace`) a reconcile does to the CR what `markStep` says: the annotations
    first, then the record with the finalizer, then the status.  So three
    passes are enough and nothing moves afterwards. -/

namespace FixedPoint

open AssocMap ApiServer CallProgram ClusterRuns GoJson Idempotence KubeObjects
open ProxyShape ProxyView Reconcile ReconcileEffect ReconcileRun ServerSteps
open VersionedStore

/-! ## Everything else in place -/

/-- The Deployment, the Service and the HTTPProxies are as the reconcile of
    `u` wants them. -/
structure InPlace (u : Multiplicador) (c : Cluster) : Prop where
  deployment : ∃ d, content c.deployments (nsOf u, deplNameOf u.name) = some d
    ∧ repairDeployment u d = d
  service : ∃ s, content c.services (nsOf u, svcNameOf u.name) = some s
    ∧ repairService u s = s
  left : u.ruta ≠ "" → movesAway u = true →
    leaveContent u.uid (prevRoute u) (content c.proxies (oldKey u))
      = content c.proxies (oldKey u)
  merged : u.ruta ≠ "" → ∃ m, content c.proxies (targetKey u) = some m
    ∧ Serves u m ∧ dropOldPrefix u m = m

/-- What the reconciler writes into the CR does not matter. -/
theorem InPlace.continues {u v : Multiplicador} {c : Cluster}
    (h : InPlace u c) (hc : Continues u v) : InPlace v c := by
  obtain ⟨⟨a, f, s, rfl⟩, hrec⟩ := hc
  refine ⟨h.deployment, h.service, ?_, ?_⟩
  · intro hr hm
    rcases hrec with ⟨hp, hroute⟩ | ⟨hp, -⟩
    · have hm' : movesAway u = true := by
        rw [movesAway, hp] at hm
        exact hm
      show leaveContent u.uid _ (content c.proxies (nsOf u, _)) =
        content c.proxies (nsOf u, _)
      rw [hp, hroute]
      exact h.left hr hm'
    · rw [movesAway, hp, decide_eq_true_eq] at hm
      exact absurd rfl hm.2
  · intro hr
    obtain ⟨m, hm, hs, hd⟩ := h.merged hr
    refine ⟨m, hm, ⟨hs.owned, hs.spec⟩, ?_⟩
    rw [dropOldPrefix]
    split
    · rename_i hcond
      rcases hrec with ⟨hp, hroute⟩ | ⟨-, hroute⟩
      · rw [hp, hroute] at hcond
        have hcond' : prevProxy u = proxyNameOf u ∧ prevRoute u ≠ ""
            ∧ prevRoute u ≠ prefixOf u := hcond
        rw [hroute]
        rw [dropOldPrefix, if_pos hcond'] at hd
        exact hd
      · exact absurd hroute hcond.2.2
    · rfl

/-! ## The first pass puts everything in place -/

section Pass

variable {w : Versioned Multiplicador} {c : Cluster}

theorem ensureState_deployments (w : Versioned Multiplicador) (c : Cluster) :
    (ensureState w c).1.deployments = c.deployments := by
  by_cases hr : w.obj.ruta = ""
  · rw [ensureState_of_no_ruta hr]
    rfl
  · rw [ensureState_of_ruta hr]
    rw [installState]
    dsimp only
    split
    · exact leaveState_deployments _ _
    · exact leaveState_deployments _ _

theorem ensureState_services (w : Versioned Multiplicador) (c : Cluster) :
    content (ensureState w c).1.services (nsOf w.obj, svcNameOf w.obj.name)
      = some (serviceAfter w.obj
          (content c.services (nsOf w.obj, svcNameOf w.obj.name))) := by
  have hsvc : content (serviceState w.obj c).services
      (nsOf w.obj, svcNameOf w.obj.name) = some (serviceAfter w.obj
        (content c.services (nsOf w.obj, svcNameOf w.obj.name))) := by
    rw [serviceState, setService_services, Function.update_self]
  by_cases hr : w.obj.ruta = ""
  · rw [ensureState_of_no_ruta hr]
    exact hsvc
  · rw [ensureState_of_ruta hr]
    rw [installState]
    dsimp only
    split
    · rw [leaveState_services]
      exact hsvc
    · rw [writeCR_services, setProxy_services, leaveState_services]
      exact hsvc

/-- The Deployment after the valid branch. -/
theorem validState_deployments (w : Versioned Multiplicador) (c : Cluster) :
    content (validState w c).1.deployments
        (nsOf w.obj, deplNameOf w.obj.name)
      = some (deploymentAfter w.obj
          (content c.deployments (nsOf w.obj, deplNameOf w.obj.name))) := by
  unfold validState
  dsimp only
  cases content c.deployments (nsOf w.obj, deplNameOf w.obj.name) with
  | none =>
      show content (ensureState _ _).1.deployments _ = _
      rw [ensureState_deployments, writeCR_deployments]
      exact (congrFun (setDeployment_deployments _ _ _) _).trans
        (Function.update_self _ _ _)
  | some d =>
      have hdep := (congrFun (setDeployment_deployments
        (writeCR c (nsOf w.obj, w.obj.name) w.version
          (admitCR (annotated w.obj))) (nsOf w.obj, deplNameOf w.obj.name)
        (some (repairDeployment (annotated w.obj) d))) _).trans
        (Function.update_self (nsOf w.obj, deplNameOf w.obj.name) _ _)
      unfold repairState
      dsimp only
      split
      · rw [writeCR_deployments, ensureState_deployments]
        exact hdep
      · rw [ensureState_deployments]
        exact hdep

/-- The Service after the valid branch. -/
theorem validState_services (w : Versioned Multiplicador) (c : Cluster) :
    content (validState w c).1.services (nsOf w.obj, svcNameOf w.obj.name)
      = some (serviceAfter w.obj
          (content c.services (nsOf w.obj, svcNameOf w.obj.name))) := by
  unfold validState
  dsimp only
  cases content c.deployments (nsOf w.obj, deplNameOf w.obj.name) with
  | none =>
      exact (ensureState_services ⟨withReady (annotated w.obj), w.version⟩ _)
  | some d =>
      have hsvc := ensureState_services ⟨annotated w.obj, w.version⟩
        (setDeployment (writeCR c (nsOf w.obj, w.obj.name) w.version
          (admitCR (annotated w.obj))) (nsOf w.obj, deplNameOf w.obj.name)
          (some (repairDeployment (annotated w.obj) d)))
      unfold repairState
      dsimp only
      split
      · exact hsvc
      · exact hsvc

end Pass

/-- Every HTTPProxy has a metadata and a spec. -/
def HaveMaps (c : Cluster) : Prop :=
  ∀ q v, c.proxies q = some v →
    (metadataOf v.obj).isSome ∧ (specOf v.obj).isSome

section First

variable {u : Versioned Multiplicador} {c : Cluster} {k : Key}

theorem reconcileNow_valid (hk : c.crs k = some u)
    (hlive : u.obj.deletionTimestamp = none)
    (hpos : 0 < u.obj.multiplicador) :
    reconcileNow c k = (validState u c).1 := by
  rw [reconcileNow, run_reconcileKey_of_some hk, reconcileOne_valid hlive hpos,
    run_reconcileValid]

/-- Leaving the old proxy does not touch the target. -/
theorem leaveProxies_target (u : Multiplicador) (P : Key → Option Fields) :
    leaveProxies u P (targetKey u) = P (targetKey u) := by
  rw [leaveProxies]
  split
  · rename_i hm
    rw [movesAway, decide_eq_true_eq] at hm
    refine Function.update_of_ne ?_ _ _
    intro e
    exact hm.2 (congrArg Prod.snd e).symm
  · rfl

/-- Among proxies with a metadata and a spec no merge panics. -/
theorem exists_merge_of_maps (hmaps : HaveMaps c) (u : Multiplicador) :
    ∃ m, mergeContent u (leaveProxies u (content c.proxies) (targetKey u))
      = some m := by
  rw [leaveProxies_target]
  cases hq : c.proxies (targetKey u) with
  | none =>
      rw [content_of_none hq]
      exact ⟨_, rfl⟩
  | some o =>
      rw [content_of_some hq]
      obtain ⟨hmd, hspec⟩ := hmaps _ o hq
      obtain ⟨m, hm, -⟩ := mergeProxy_maps (u := u) hmd hspec
      exact ⟨m, hm⟩

/-- After a complete reconcile everything is in place. -/
theorem inPlace_reconcileNow (hk : c.crs k = some u)
    (hlive : u.obj.deletionTimestamp = none)
    (hpos : 0 < u.obj.multiplicador) (hmaps : HaveMaps c) :
    InPlace u.obj (reconcileNow c k) := by
  have hproxies : u.obj.ruta ≠ "" → ∃ m,
      mergeContent u.obj (leaveProxies u.obj (content c.proxies)
        (targetKey u.obj)) = some m
      ∧ content (reconcileNow c k).proxies
        = Function.update (leaveProxies u.obj (content c.proxies))
            (targetKey u.obj) (some m) := by
    intro hr
    obtain ⟨m, hm⟩ := exists_merge_of_maps hmaps u.obj
    have hj : joins u.obj = true := by simp [joins, hlive, hpos, hr]
    refine ⟨m, hm, ?_⟩
    rw [reconcileNow_proxies hk, proxiesAfter_eq, joinProxies, if_pos hj,
      departProxies_of_joins hj]
    exact installProxies_ok hm
  refine ⟨?_, ?_, ?_, ?_⟩
  · rw [reconcileNow_valid hk hlive hpos]
    exact ⟨_, validState_deployments u c,
      repairDeployment_deploymentAfter u.obj _⟩
  · rw [reconcileNow_valid hk hlive hpos]
    exact ⟨_, validState_services u c, repairService_serviceAfter u.obj _⟩
  · -- the old proxy was left in this very reconcile
    intro hr hmove
    obtain ⟨m, -, hP⟩ := hproxies hr
    have hne : oldKey u.obj ≠ targetKey u.obj := by
      rw [movesAway, decide_eq_true_eq] at hmove
      intro e
      exact hmove.2 (congrArg Prod.snd e)
    rw [hP, Function.update_of_ne hne, leaveProxies, if_pos hmove]
    have hold : (nsOf u.obj, prevProxy u.obj) = oldKey u.obj := rfl
    rw [hold, Function.update_self, leaveContent_leaveContent]
  · intro hr
    obtain ⟨m, hm, hP⟩ := hproxies hr
    refine ⟨m, ?_, serves_mergeContent hm, dropOldPrefix_mergeContent hm⟩
    rw [hP, Function.update_self]

end First

/-! ## A pass over what is in place -/

section Next

variable {u : Multiplicador} {n : Nat} {c : Cluster}

/-- `ensureServiceAndProxy` then writes no more than CRs. -/
theorem ensureState_inPlace (h : InPlace u c) :
    ∃ r, (ensureState ⟨u, n⟩ c).1 = c.putCRs r := by
  obtain ⟨s, hs, hsfix⟩ := h.service
  have hservice : serviceState u c = c := by
    refine setService_eq_self c _ ?_
    rw [hs]
    exact congrArg some hsfix
  by_cases hr : u.ruta = ""
  · rw [ensureState_of_no_ruta hr, hservice]
    exact ⟨(c.crs, c.rev), rfl⟩
  · have hleave : leaveState u c = c := by
      rw [leaveState]
      split
      · rename_i hm
        exact setProxy_eq_self c _ (h.left hr hm)
      · rfl
    obtain ⟨m, hm, hserves, hdrop⟩ := h.merged hr
    have hmerge : mergeContent u (content c.proxies (nsOf u, proxyNameOf u))
        = some m := by
      show mergeContent u (content c.proxies (targetKey u)) = some m
      rw [hm]
      exact mergeProxy_of_serves hserves hdrop
    have hset : setProxy c (nsOf u, proxyNameOf u) (some m) = c :=
      setProxy_eq_self c _ hm.symm
    rw [ensureState_of_ruta hr, hservice, hleave, installState_ok hmerge, hset]
    exact ⟨_, rfl⟩

/-- So does the repair branch. -/
theorem repairState_inPlace {d : Deployment} (h : InPlace u c)
    (hd : content c.deployments (nsOf u, deplNameOf u.name) = some d)
    (hfix : repairDeployment u d = d) :
    ∃ r, (repairState ⟨u, n⟩ d c).1 = c.putCRs r := by
  have hdep : setDeployment c (nsOf u, deplNameOf u.name)
      (some (repairDeployment u d)) = c := by
    refine setDeployment_eq_self c _ ?_
    rw [hfix]
    exact hd.symm
  obtain ⟨r, hr⟩ := ensureState_inPlace (n := n) h
  rw [repairState]
  dsimp only
  rw [hdep]
  split
  · rw [hr]
    exact ⟨_, rfl⟩
  · rw [hr]
    exact ⟨_, rfl⟩

/-- So does the whole reconcile. -/
theorem validState_inPlace {w : Versioned Multiplicador}
    (h : InPlace w.obj c) : ∃ r, (validState w c).1 = c.putCRs r := by
  have ha := h.continues (continues_annotated w.obj)
  obtain ⟨d, hd, hfix⟩ := ha.deployment
  have hd' : content c.deployments (nsOf w.obj, deplNameOf w.obj.name)
      = some d := hd
  have ha₁ : InPlace (annotated w.obj) (writeCR c (nsOf w.obj, w.obj.name)
      w.version (admitCR (annotated w.obj))) :=
    ⟨ha.deployment, ha.service, ha.left, ha.merged⟩
  obtain ⟨r, hr⟩ := repairState_inPlace (n := w.version) ha₁ hd hfix
  unfold validState
  dsimp only
  rw [hd']
  exact ⟨_, hr⟩

/-- The write that lands is the first of the three. -/
theorem crAfter_inPlace (h : InPlace u c) :
    crAfter u (content c.deployments (nsOf u, deplNameOf u.name))
      (content c.proxies) = markStep u := by
  obtain ⟨d, hd, -⟩ := h.deployment
  have hboth : recordWrite u (content c.proxies) u = registered u
      ∧ panics u (content c.proxies) = false := by
    rw [recordWrite, registered, panics]
    by_cases hr : u.ruta = ""
    · simp [hr]
    · obtain ⟨m, hm, hserves, hdrop⟩ := h.merged hr
      have htarget : leaveProxies u (content c.proxies)
          (nsOf u, proxyNameOf u) = some m :=
        (leaveProxies_target u _).trans hm
      have hmerge : mergeContent u (some m) = some m :=
        mergeProxy_of_serves hserves hdrop
      rw [if_neg hr, if_neg hr, htarget, hmerge]
      exact ⟨mainWrite_settled u (some m), by simp⟩
  unfold crAfter markStep
  rw [hd, hboth.1, hboth.2]
  simp

end Next

/-! ## Passes -/

/-- The cluster after `n` complete reconciles of the CR at `k`. -/
def passes (c : Cluster) (k : Key) : Nat → Cluster
  | 0 => c
  | n + 1 => reconcileNow (passes c k n) k

/-- `c` holds `v`, which continues `u`; everything else is in place for it and
    its annotations are written. -/
structure Tended (u : Multiplicador) (k : Key) (c : Cluster)
    (v : Versioned Multiplicador) : Prop where
  wellFormed : WellFormed c
  stored : c.crs k = some v
  continues : Continues u v.obj
  inPlace : InPlace v.obj c
  annotated : annotated v.obj = v.obj

section Passes

variable {c : Cluster} {k : Key}

theorem deletionTimestamp_of_continues {u v : Multiplicador}
    (h : Continues u v) : v.deletionTimestamp = u.deletionTimestamp := by
  obtain ⟨⟨a, f, s, rfl⟩, -⟩ := h
  rfl

theorem multiplicador_of_continues {u v : Multiplicador}
    (h : Continues u v) : v.multiplicador = u.multiplicador := by
  obtain ⟨⟨a, f, s, rfl⟩, -⟩ := h
  rfl

/-- The CR after a complete reconcile, with its version. -/
theorem since_reconcileNow {u : Versioned Multiplicador} (h : WellFormed c)
    (hk : c.crs k = some u) (hlive : u.obj.deletionTimestamp = none)
    (hpos : 0 < u.obj.multiplicador) :
    Since u.obj u.version (reconcileNow c k).crs k
      (crAfter u.obj (content c.deployments
        (nsOf u.obj, deplNameOf u.obj.name)) (content c.proxies)) := by
  have hkey := (h.stored k u hk).key
  have hget : c.crs (nsOf u.obj, u.obj.name) = some u := by
    rw [hkey]
    exact hk
  have hs := since_reconcileOne hlive hpos (h.crs k u hk) hget
  rw [hkey] at hs
  rw [reconcileNow, run_reconcileKey_of_some hk]
  exact hs

/-- The first pass. -/
theorem tended_first {u : Versioned Multiplicador} (h : WellFormed c)
    (hk : c.crs k = some u) (hlive : u.obj.deletionTimestamp = none)
    (hpos : 0 < u.obj.multiplicador) (hmaps : HaveMaps c) :
    ∃ v, Tended u.obj k (reconcileNow c k) v := by
  obtain ⟨n, hv, -⟩ := (since_reconcileNow h hk hlive hpos).stored
  have hcont := continues_crAfter u.obj (content c.deployments
    (nsOf u.obj, deplNameOf u.obj.name)) (content c.proxies)
  exact ⟨_, wellFormed_reconcileNow h, hv, hcont,
    (inPlace_reconcileNow hk hlive hpos hmaps).continues hcont,
    annotated_crAfter _ _ _⟩

/-- **ONE MORE PASS**: only CRs are written, this CR takes the first write of
    the three that changes it, and nothing is written when none does. -/
theorem Tended.pass {u : Multiplicador} {v : Versioned Multiplicador}
    (h : Tended u k c v) (hlive : u.deletionTimestamp = none)
    (hpos : 0 < u.multiplicador) :
    ∃ v', Tended u k (reconcileNow c k) v' ∧ v'.obj = markStep v.obj
      ∧ (∃ r, reconcileNow c k = c.putCRs r)
      ∧ (v'.obj = v.obj → (reconcileNow c k).crs = c.crs) := by
  have hlive' : v.obj.deletionTimestamp = none := by
    rw [deletionTimestamp_of_continues h.continues]
    exact hlive
  have hpos' : 0 < v.obj.multiplicador := by
    rw [multiplicador_of_continues h.continues]
    exact hpos
  obtain ⟨n, hv, hver⟩ :=
    (since_reconcileNow h.wellFormed h.stored hlive' hpos').stored
  rw [crAfter_inPlace h.inPlace] at hv hver
  have hcont : Continues v.obj (markStep v.obj) := by
    rw [← crAfter_inPlace h.inPlace]
    exact continues_crAfter _ _ _
  obtain ⟨r, hr⟩ : ∃ r, reconcileNow c k = c.putCRs r := by
    rw [reconcileNow_valid h.stored hlive' hpos']
    exact validState_inPlace h.inPlace
  have hplace : InPlace v.obj (reconcileNow c k) := by
    rw [hr]
    exact ⟨h.inPlace.deployment, h.inPlace.service, h.inPlace.left,
      h.inPlace.merged⟩
  refine ⟨⟨markStep v.obj, n⟩, ⟨wellFormed_reconcileNow h.wellFormed, hv,
    h.continues.trans hcont, hplace.continues hcont, ?_⟩, rfl, ⟨r, hr⟩, ?_⟩
  · exact (markStep_second h.annotated).1
  · intro hsame
    funext k'
    by_cases hk : k' = k
    · subst hk
      rw [hv, h.stored, hver.mpr hsame, show markStep v.obj = v.obj from hsame]
    · exact reconcileNow_crs_of_ne h.wellFormed hk

end Passes

/-- The CR `v` carries what the spec of `u` asks for. -/
structure InForce (u v : Multiplicador) : Prop where
  spec : v.spec = u.spec
  status : v.status = some (.obj [
    ("ready", .bool true),
    ("replicas", .int ((getIntField u "replicas").getD 1)),
    ("multiplicador", .int ((getIntField u "multiplicador").getD 2))])
  valid : v.ann.lookup annValid = some "true"
  multiplicador : v.ann.lookup annMultiplicador
    = some (sprintD ((getIntField u "multiplicador").getD 2))
  record : u.ruta ≠ "" → v.ann.lookup annProxy = some (proxyNameOf u)
    ∧ v.ann.lookup annProxyRoute = some ("/" ++ u.ruta)
    ∧ finalizerName ∈ v.finalizers

/-- Replicas that fit in an `int32` are taken as they are. -/
theorem replicas_of_int32 {u : Multiplicador}
    (h : ∀ r, getIntField u "replicas" = some r →
      -2147483648 ≤ r ∧ r ≤ 2147483647) :
    u.replicas = (getIntField u "replicas").getD 1 := by
  rw [Multiplicador.replicas]
  cases hr : getIntField u "replicas" with
  | none => rfl
  | some r =>
      have hb := h r hr
      exact Int.bmod_eq_of_le_mul_two (by omega) (by omega)

/-- Annotations, record and status written, the CR is in force. -/
theorem inForce_of_rest {u v : Multiplicador} (hc : Continues u v)
    (ha : annotated v = v) (hreg : registered v = v) (hs : withReady v = v)
    (hrep : u.replicas = (getIntField u "replicas").getD 1) :
    InForce u v := by
  obtain ⟨a, hann, hv, hm⟩ := annotated_eq_self_iff.mp ha
  have hva : v.ann = a := by rw [Multiplicador.ann, hann]; rfl
  have hrecord : Registered v := by
    rw [← hreg]
    exact registered_registered v
  obtain ⟨⟨a', f, s, rfl⟩, -⟩ := hc
  refine ⟨rfl, ?_, ?_, ?_, ?_⟩
  · have hst := congrArg Multiplicador.status hs
    rw [← hst, ← hrep]
    rfl
  · rw [hva]
    exact hv
  · rw [hva]
    exact hm
  · intro hr
    obtain ⟨b, hb, hp, hroute, hfin⟩ := hrecord hr
    have hab : b = a := Option.some.inj (hb.symm.trans hann)
    rw [hva, ← hab]
    exact ⟨hp, hroute, hfin⟩

section Run

variable {c : Cluster} {k : Key} {u : Versioned Multiplicador}

/-- After each pass but the first, one more write is done. -/
theorem tended_passes (h : WellFormed c) (hk : c.crs k = some u)
    (hlive : u.obj.deletionTimestamp = none)
    (hpos : 0 < u.obj.multiplicador) (hmaps : HaveMaps c) (n : Nat) :
    ∃ v, Tended u.obj k (passes c k (n + 1)) v
      ∧ (1 ≤ n → registered v.obj = v.obj)
      ∧ (2 ≤ n → withReady v.obj = v.obj) := by
  induction n with
  | zero =>
      obtain ⟨v, hv⟩ := tended_first h hk hlive hpos hmaps
      exact ⟨v, hv, by omega, by omega⟩
  | succ n ih =>
      obtain ⟨v, hv, hreg, -⟩ := ih
      obtain ⟨v', hv', hstep, -, -⟩ := hv.pass hlive hpos
      refine ⟨v', hv', ?_, ?_⟩
      · intro _
        rw [hstep]
        exact (markStep_second hv.annotated).2
      · intro hn
        rw [hstep, markStep_third hv.annotated (hreg (by omega))]
        rfl

/-- **THREE PASSES**: the Deployments, the Services and the HTTPProxies stay as
    the first pass leaves them, the CRs as the third pass leaves them, and the
    CR is then in force. -/
theorem rests_after_three (h : WellFormed c) (hk : c.crs k = some u)
    (hlive : u.obj.deletionTimestamp = none)
    (hpos : 0 < u.obj.multiplicador)
    (hint : ∀ r, getIntField u.obj "replicas" = some r →
      -2147483648 ≤ r ∧ r ≤ 2147483647)
    (hmaps : HaveMaps c) :
    (∀ n, 1 ≤ n →
      (passes c k n).deployments = (passes c k 1).deployments
        ∧ (passes c k n).services = (passes c k 1).services
        ∧ (passes c k n).proxies = (passes c k 1).proxies)
    ∧ ∀ n, 3 ≤ n → (passes c k n).crs = (passes c k 3).crs
        ∧ ∃ v, (passes c k n).crs k = some v ∧ InForce u.obj v.obj := by
  have htended := tended_passes h hk hlive hpos hmaps
  constructor
  · intro n hn
    induction n, hn using Nat.le_induction with
    | base => exact ⟨rfl, rfl, rfl⟩
    | succ n hn ih =>
        obtain ⟨m, rfl⟩ := Nat.exists_eq_add_of_le' hn
        obtain ⟨v, hv, -⟩ := htended m
        obtain ⟨v', -, -, ⟨r, hr⟩, -⟩ := hv.pass hlive hpos
        have hpass : passes c k (m + 1 + 1)
            = (passes c k (m + 1)).putCRs r := hr
        rw [hpass]
        exact ih
  · intro n hn
    have hforce : ∀ m, 3 ≤ m →
        ∃ v, Tended u.obj k (passes c k m) v ∧ registered v.obj = v.obj
          ∧ withReady v.obj = v.obj := by
      intro m hm
      obtain ⟨m', rfl⟩ := Nat.exists_eq_add_of_le' (show 1 ≤ m by omega)
      obtain ⟨v, hv, hreg, hready⟩ := htended m'
      exact ⟨v, hv, hreg (by omega), hready (by omega)⟩
    constructor
    · induction n, hn using Nat.le_induction with
      | base => rfl
      | succ n hn ih =>
          obtain ⟨v, hv, hreg, hready⟩ := hforce n hn
          obtain ⟨v', -, hstep, -, hsame⟩ := hv.pass hlive hpos
          have hfix : v'.obj = v.obj := by
            rw [hstep, markStep_third hv.annotated hreg, hready]
          exact (hsame hfix).trans ih
    · obtain ⟨v, hv, hreg, hready⟩ := hforce n hn
      exact ⟨v, hv.stored, inForce_of_rest hv.continues hv.annotated hreg
        hready (replicas_of_int32 hint)⟩

end Run

/-! ## A CR whose host has changed -/

/-- A CR served as old.com/old that asks for a.com/calc now. -/
def movedCR : Multiplicador :=
  { newCR "web" "a.com" "calc" with
    annotations := some [(annProxy, "vhost-old-com"), (annProxyRoute, "/old")] }

/-- Its cluster: the old proxy is there, the Deployment and the Service are
    not. -/
def movedHost : Cluster :=
  clusterOf [(("default", "web"), ⟨movedCR, 1⟩)] []
    [(("default", "vhost-old-com"), ⟨newProxy (newCR "web" "old.com" "old"), 2⟩)]
    2

theorem rests_movedHost :
    (passes movedHost ("default", "web") 7).proxies
        = (passes movedHost ("default", "web") 1).proxies
      ∧ (passes movedHost ("default", "web") 7).crs
        = (passes movedHost ("default", "web") 3).crs := by
  have hwf : WellFormed movedHost :=
    wellFormed_clusterOf (by decide) (by decide) (by decide)
  have hmaps : HaveMaps movedHost := by
    intro q v hv
    have hmem : (q, v) ∈ [(("default", "vhost-old-com"),
        (⟨newProxy (newCR "web" "old.com" "old"), 2⟩ : Versioned Fields))] :=
      mem_of_storeOf hv
    rw [(Prod.mk.inj (List.mem_singleton.mp hmem)).2]
    exact ⟨rfl, rfl⟩
  have hint : ∀ r, getIntField movedCR "replicas" = some r →
      -2147483648 ≤ r ∧ r ≤ 2147483647 := by
    have hnone : getIntField movedCR "replicas" = none := by decide
    intro r hr
    rw [hnone] at hr
    exact absurd hr (by simp)
  obtain ⟨hchildren, hcrs⟩ := rests_after_three (c := movedHost)
    (k := ("default", "web")) (u := ⟨movedCR, 1⟩) hwf rfl rfl (by decide)
    hint hmaps
  exact ⟨(hchildren 7 (by decide)).2.2, (hcrs 7 (by decide)).1⟩

end FixedPoint
