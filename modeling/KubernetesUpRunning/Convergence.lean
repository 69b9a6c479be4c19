import KubernetesUpRunning.FairRounds
import KubernetesUpRunning.Neighbours

/-! # Many CRs come to rest together

    `FixedPoint` follows one CR that nobody disturbs.  Here all the CRs of a
    cluster are reconciled in any order, sharing their HTTPProxies, and each
    reconcile may undo what another has done.  As long as no two CRs want the
    same route, they come to rest all the same, in three rounds: in the first
    each CR gets its annotations, its Deployment, its Service and its place
    among the owners; in the second its record, so that nobody who moves takes
    a route away any more; in the third its route and its status. -/

namespace Convergence

open ApiServer ClusterRuns FairRounds FixedPoint GoJson Idempotence KubeObjects
open Neighbours ProxyShape Reconcile ReconcileEffect ReconcileRun ServerSteps
open VersionedStore

/-! ## Clusters in which nobody is in dispute -/

/-- `u` is not in dispute with `v`: they do not want the same route of one
    proxy, and `v`, if it is being deleted, has not recorded the route that `u`
    wants. -/
structure Undisputed (u v : Multiplicador) : Prop where
  uids : u.uid ≠ v.uid
  routes : joins u = true → joins v = true → targetKey u = targetKey v →
    Compatible u v
  records : joins u = true → v.deletionTimestamp.isSome = true →
    targetKey u = oldKey v → prevRoute v ≠ prefixOf u

/-- No two CRs are in dispute, and every proxy can be merged into. -/
structure Peaceful (c : Cluster) : Prop where
  wellFormed : WellFormed c
  maps : HaveMaps c
  apart : ∀ k k' u v, c.crs k = some u → c.crs k' = some v → k' ≠ k →
    Undisputed u.obj v.obj

/-- `v` demands of the others what `u` demands of them: the same route of the
    same proxy, and, of a CR that is being deleted, the recorded one. -/
structure SameDemands (u v : Multiplicador) : Prop where
  ns : v.ns = u.ns
  name : v.name = u.name
  uid : v.uid = u.uid
  spec : v.spec = u.spec
  deleted : v.deletionTimestamp = u.deletionTimestamp
  record : u.deletionTimestamp.isSome = true →
    prevProxy v = prevProxy u ∧ prevRoute v = prevRoute u

theorem SameDemands.refl (u : Multiplicador) : SameDemands u u :=
  ⟨rfl, rfl, rfl, rfl, rfl, fun _ => ⟨rfl, rfl⟩⟩

section SameDemands

variable {u v : Multiplicador} (h : SameDemands u v)
include h

theorem SameDemands.field (f : String) :
    getStringField v f = getStringField u f := by
  simp [getStringField, h.spec]

theorem SameDemands.nsOf : nsOf v = nsOf u := by simp [Reconcile.nsOf, h.ns]

theorem SameDemands.host : v.host = u.host := h.field "host"

theorem SameDemands.ruta : v.ruta = u.ruta := h.field "ruta"

theorem SameDemands.prefixOf : prefixOf v = prefixOf u := by
  simp [Reconcile.prefixOf, h.ruta]

theorem SameDemands.multiplicador : v.multiplicador = u.multiplicador := by
  simp [Multiplicador.multiplicador, getIntField, h.spec]

theorem SameDemands.joins : joins v = joins u := by
  rw [ReconcileEffect.joins, ReconcileEffect.joins, h.deleted,
    h.multiplicador, h.ruta]

theorem SameDemands.target : targetKey v = targetKey u := by
  simp [targetKey, proxyNameOf, h.nsOf, h.host, h.name]

theorem SameDemands.oldKey (hdel : u.deletionTimestamp.isSome = true) :
    oldKey v = oldKey u := by
  simp [ReconcileEffect.oldKey, h.nsOf, (h.record hdel).1]

end SameDemands

theorem SameDemands.of_sameClaims {u v : Multiplicador} (h : SameClaims u v) :
    SameDemands u v := by
  refine ⟨?_, ?_, h.uid, h.spec, h.deleted, fun hdel => ⟨?_, ?_⟩⟩
  · obtain ⟨⟨a, f, s, rfl⟩, -⟩ := h
    rfl
  · obtain ⟨⟨a, f, s, rfl⟩, -⟩ := h
    rfl
  · exact congrArg Prod.snd (h.oldKey hdel)
  · exact h.prevRoute hdel

/-- Whoever demands the same things is not in dispute either. -/
theorem Undisputed.of_sameDemands {u v u' v' : Multiplicador}
    (h : Undisputed u v) (hu : SameDemands u u') (hv : SameDemands v v') :
    Undisputed u' v' := by
  refine ⟨?_, ?_, ?_⟩
  · rw [hu.uid, hv.uid]
    exact h.uids
  · intro hju hjv ht
    rw [hu.joins] at hju
    rw [hv.joins] at hjv
    rw [hu.target, hv.target] at ht
    rw [Compatible, hu.prefixOf, hv.prefixOf, hu.host, hv.host]
    exact h.routes hju hjv ht
  · intro hju hdel ht
    rw [hu.joins] at hju
    rw [hv.deleted] at hdel
    rw [hu.target, hv.oldKey hdel] at ht
    rw [hu.prefixOf, (hv.record hdel).2]
    exact h.records hju hdel ht

/-- The CRs of `c'` are those of `c`, with the same demands. -/
def SameDemanded (c c' : Cluster) : Prop :=
  ∀ k v, c'.crs k = some v → ∃ u, c.crs k = some u ∧ SameDemands u.obj v.obj

/-- Who demands the same things starts no dispute. -/
theorem Peaceful.of_sameDemanded {c c' : Cluster} (h : Peaceful c)
    (hs : SameDemanded c c') (hwf : WellFormed c') (hm : HaveMaps c') :
    Peaceful c' := by
  refine ⟨hwf, hm, ?_⟩
  intro i j u v hu hv hne
  obtain ⟨u₀, hu₀, hdu⟩ := hs i u hu
  obtain ⟨v₀, hv₀, hdv⟩ := hs j v hv
  exact (h.apart i j u₀ v₀ hu₀ hv₀ hne).of_sameDemands hdu hdv

/-- A reconcile starts no dispute. -/
theorem Peaceful.step {c : Cluster} (h : Peaceful c) (k : Key) :
    Peaceful (reconcileNow c k) := by
  refine h.of_sameDemanded ?_ (wellFormed_reconcileNow h.wellFormed)
    (haveMaps_reconcileNow h.maps k)
  intro j v hv
  obtain ⟨u, hu, hsame⟩ := sameCRs_reconcileNow h.wellFormed k j v hv
  exact ⟨u, hu, .of_sameClaims hsame⟩

/-! ## How far a CR has come -/

/-- After its first turn: the CR is annotated, its children are in place and
    it is an owner of its proxy; one that is being deleted has left its proxy
    and given up its finalizer. -/
structure Begun (c : Cluster) (u : Multiplicador) : Prop where
  released : u.deletionTimestamp.isSome = true →
    finalizerName ∉ u.finalizers
  left : u.deletionTimestamp.isSome = true → prevProxy u ≠ "" →
    Left u.uid (prevRoute u) (content c.proxies (oldKey u))
  refused : u.deletionTimestamp = none → u.multiplicador ≤ 0 →
    markedInvalid u = u
  annotated : active u = true → annotated u = u
  deployment : active u = true → ∃ d,
    content c.deployments (nsOf u, deplNameOf u.name) = some d
      ∧ repairDeployment u d = d
  service : active u = true → ∃ s,
    content c.services (nsOf u, svcNameOf u.name) = some s
      ∧ repairService u s = s
  owned : joins u = true → OwnedBy u.uid (content c.proxies (targetKey u))

/-- After its second turn: the proxy is recorded in the CR. -/
structure Recorded (c : Cluster) (u : Multiplicador) : Prop where
  begun : Begun c u
  registered : active u = true → registered u = u

/-- After its third turn: the proxy serves the CR and the status says so. -/
structure Settled (c : Cluster) (u : Multiplicador) : Prop where
  recorded : Recorded c u
  ready : active u = true → withReady u = u
  served : joins u = true → ∃ m,
    content c.proxies (targetKey u) = some m ∧ Serves u m

/-- A recorded CR does not move. -/
theorem record_of_registered {u : Multiplicador} (h : registered u = u)
    (hr : u.ruta ≠ "") :
    prevProxy u = proxyNameOf u ∧ prevRoute u = prefixOf u := by
  have hrec := registered_registered u
  rw [h] at hrec
  obtain ⟨a, ha, hp, hroute, -⟩ := hrec hr
  have hann : u.ann = a := by rw [Multiplicador.ann, ha]; rfl
  constructor
  · rw [prevProxy, hann, annGet, hp]
    rfl
  · rw [prevRoute, hann, annGet, hroute]
    rfl

theorem movesAway_of_registered {u : Multiplicador} (h : registered u = u)
    (hr : u.ruta ≠ "") : movesAway u = false := by
  rw [movesAway]
  simp [(record_of_registered h hr).1]

/-- A recorded CR departs only when it is deleted. -/
theorem deleted_of_departs {c : Cluster} {u : Multiplicador}
    (h : Recorded c u) (hd : departs u = true) :
    u.deletionTimestamp.isSome = true := by
  by_contra hlive
  rw [departs, if_neg hlive, Bool.and_eq_true] at hd
  obtain ⟨hact, hr⟩ := joins_iff.mp hd.1
  rw [movesAway_of_registered (h.registered hact) hr] at hd
  exact absurd hd.2 (by simp)

/-! ## A turn of its own -/

section Own

variable {c : Cluster} {k : Key} {u v : Versioned Multiplicador}

/-- The first turn of a CR that is being deleted. -/
theorem begun_deleted (h : WellFormed c) (hk : c.crs k = some u)
    (hv : (reconcileNow c k).crs k = some v)
    (hdel : u.obj.deletionTimestamp.isSome = true) :
    Begun (reconcileNow c k) v.obj := by
  have hnext := reconcileNow_cr h hk
  rw [content_of_some hv] at hnext
  have hsame := sameClaims_crNext hnext.symm
  have hvdel : v.obj.deletionTimestamp.isSome = true := by
    rw [hsame.deleted]
    exact hdel
  have hvlive : v.obj.deletionTimestamp ≠ none := by
    rw [← Option.isSome_iff_ne_none]
    exact hvdel
  have hact : active v.obj ≠ true := fun ha => hvlive (active_iff.mp ha).1
  refine ⟨?_, ?_, fun hn => absurd hn hvlive, fun ha => absurd ha hact,
    fun ha => absurd ha hact, fun ha => absurd ha hact,
    fun hj => absurd (joins_iff.mp hj).1 hact⟩
  · intro _
    rw [crNext, if_pos hdel] at hnext
    split at hnext
    · rw [admitCR] at hnext
      split at hnext
      · exact absurd hnext (by simp)
      · rw [Option.some.inj hnext]
        simp [withoutFinalizer]
    · rename_i hfin
      rw [Option.some.inj hnext]
      exact hfin
  · intro _ hp
    have hann : v.obj.annotations = u.obj.annotations := hsame.record hdel
    have hprev : prevProxy v.obj = prevProxy u.obj := by
      rw [prevProxy, prevProxy, Multiplicador.ann, Multiplicador.ann, hann]
    have hd : departs u.obj = true := by
      rw [departs, if_pos hdel, decide_eq_true_eq, ← hprev]
      exact hp
    have hj : joins u.obj ≠ true := by
      rw [← hsame.joins]
      exact fun hj => hact (joins_iff.mp hj).1
    rw [hsame.uid, hsame.prevRoute hdel, hsame.oldKey hdel,
      reconcileNow_proxies hk, proxiesAfter_eq, joinProxies, if_neg hj,
      departProxies, if_pos hd, Function.update_self]
    exact leaveContent_leaveContent _ _ _

/-- The first turn of an invalid CR. -/
theorem begun_invalid (h : WellFormed c) (hk : c.crs k = some u)
    (hv : (reconcileNow c k).crs k = some v)
    (hlive : u.obj.deletionTimestamp = none)
    (hle : u.obj.multiplicador ≤ 0) : Begun (reconcileNow c k) v.obj := by
  have hnext := reconcileNow_cr h hk
  rw [content_of_some hv, crNext, hlive, if_neg (by simp), if_pos hle]
    at hnext
  have hobj := Option.some.inj hnext
  have hact : active v.obj ≠ true := by
    intro ha
    have hpos : 0 < v.obj.multiplicador := (active_iff.mp ha).2
    rw [hobj] at hpos
    have hsame : (markedInvalid u.obj).multiplicador = u.obj.multiplicador :=
      rfl
    omega
  have hvlive : v.obj.deletionTimestamp = none := by
    rw [hobj]
    exact hlive
  refine ⟨fun hd => ?_, fun hd => ?_, fun _ _ => ?_, fun ha => absurd ha hact,
    fun ha => absurd ha hact, fun ha => absurd ha hact,
    fun hj => absurd (joins_iff.mp hj).1 hact⟩
  · rw [hvlive] at hd
    exact absurd hd (by simp)
  · rw [hvlive] at hd
    exact absurd hd (by simp)
  · rw [hobj]
    rfl

/-- What every turn of an active CR leaves. -/
theorem begun_active (h : Peaceful c) (hk : c.crs k = some u)
    (hv : (reconcileNow c k).crs k = some v) (ha : active u.obj = true) :
    Begun (reconcileNow c k) v.obj ∧ InPlace v.obj (reconcileNow c k) := by
  obtain ⟨hlive, hpos⟩ := active_iff.mp ha
  have hle : ¬ u.obj.multiplicador ≤ 0 := by omega
  have hnext := reconcileNow_cr h.wellFormed hk
  rw [content_of_some hv, crNext, hlive, if_neg (by simp), if_neg hle]
    at hnext
  have hobj := Option.some.inj hnext
  have hcont := continues_crAfter u.obj
    (content c.deployments (k.1, deplNameOf k.2)) (content c.proxies)
  rw [← hobj] at hcont
  have hplace : InPlace v.obj (reconcileNow c k) :=
    (inPlace_reconcileNow hk hlive hpos h.maps).continues hcont
  have hvlive : v.obj.deletionTimestamp = none := by
    rw [deletionTimestamp_of_continues hcont]
    exact hlive
  refine ⟨⟨fun hd => ?_, fun hd => ?_, fun _ hn => ?_, fun _ => ?_,
    fun _ => hplace.deployment, fun _ => hplace.service, fun hj => ?_⟩, hplace⟩
  · rw [hvlive] at hd
    exact absurd hd (by simp)
  · rw [hvlive] at hd
    exact absurd hd (by simp)
  · rw [multiplicador_of_continues hcont] at hn
    exact absurd hn hle
  · rw [hobj]
    exact annotated_crAfter _ _ _
  · obtain ⟨m, hm, hserves, -⟩ := hplace.merged (joins_iff.mp hj).2
    exact ⟨m, hm, hserves.owned⟩

/-- **FIRST TURN.** -/
theorem begun_turn (h : Peaceful c) (hk : c.crs k = some u)
    (hv : (reconcileNow c k).crs k = some v) :
    Begun (reconcileNow c k) v.obj := by
  by_cases hdel : u.obj.deletionTimestamp.isSome = true
  · exact begun_deleted h.wellFormed hk hv hdel
  · have hlive : u.obj.deletionTimestamp = none := by simpa using hdel
    by_cases hpos : 0 < u.obj.multiplicador
    · exact (begun_active h hk hv (active_iff.mpr ⟨hlive, hpos⟩)).1
    · exact begun_invalid h.wellFormed hk hv hlive (by omega)

/-- A merge into a target that is there writes the whole record. -/
theorem recordWrite_of_target {u : Multiplicador} {P : Key → Option Fields}
    (h : u.ruta ≠ "" → ∃ m m', P (targetKey u) = some m
      ∧ mergeContent u (some m) = some m') :
    recordWrite u P u = registered u ∧ panics u P = false := by
  rw [recordWrite, registered, panics]
  by_cases hr : u.ruta = ""
  · simp [hr]
  · obtain ⟨m, m', hm, hmerge⟩ := h hr
    have htarget : leaveProxies u P (nsOf u, proxyNameOf u) = some m :=
      (leaveProxies_target u P).trans hm
    rw [if_neg hr, if_neg hr, htarget, hmerge]
    exact ⟨mainWrite_settled u (some m), by simp⟩

/-- The write that lands, when the Deployment is there and the target has the
    CR among its owners, is the first of the three. -/
theorem crAfter_begun (h : Peaceful c) (hb : Begun c u.obj)
    (ha : active u.obj = true) :
    crAfter u.obj
      (content c.deployments (nsOf u.obj, deplNameOf u.obj.name))
      (content c.proxies) = markStep u.obj := by
  obtain ⟨d, hd, -⟩ := hb.deployment ha
  obtain ⟨hrecord, hpanics⟩ :
      recordWrite u.obj (content c.proxies) u.obj = registered u.obj
        ∧ panics u.obj (content c.proxies) = false := by
    refine recordWrite_of_target fun hr => ?_
    obtain ⟨m, hm, -⟩ := hb.owned (joins_iff.mpr ⟨ha, hr⟩)
    obtain ⟨m', hmerge⟩ := exists_merge_of_maps h.maps u.obj
    rw [leaveProxies_target, hm] at hmerge
    exact ⟨m, m', hm, hmerge⟩
  unfold crAfter markStep
  rw [hd, hrecord, hpanics]
  simp

/-- The CR after a turn of its own, once it has begun. -/
theorem markStep_turn (h : Peaceful c) (hk : c.crs k = some u)
    (hv : (reconcileNow c k).crs k = some v) (hb : Begun c u.obj)
    (ha : active u.obj = true) : v.obj = markStep u.obj := by
  obtain ⟨hlive, hpos⟩ := active_iff.mp ha
  have hle : ¬ u.obj.multiplicador ≤ 0 := by omega
  have hn := h.wellFormed.stored k u hk
  have hnext := reconcileNow_cr h.wellFormed hk
  rw [content_of_some hv, crNext, hlive, if_neg (by simp), if_neg hle]
    at hnext
  rw [Option.some.inj hnext, ← crAfter_begun h hb ha, hn.nsOf, hn.name]

/-- A CR that is not active has no more to do after its first turn. -/
theorem active_turn (h : Peaceful c) (hk : c.crs k = some u)
    (hv : (reconcileNow c k).crs k = some v) :
    active v.obj = active u.obj := by
  have hnext := reconcileNow_cr h.wellFormed hk
  rw [content_of_some hv] at hnext
  exact (sameClaims_crNext hnext.symm).active

/-- **SECOND TURN.** -/
theorem recorded_turn (h : Peaceful c) (hk : c.crs k = some u)
    (hv : (reconcileNow c k).crs k = some v) (hb : Begun c u.obj) :
    Recorded (reconcileNow c k) v.obj := by
  refine ⟨begun_turn h hk hv, fun ha => ?_⟩
  rw [active_turn h hk hv] at ha
  rw [markStep_turn h hk hv hb ha]
  exact (markStep_second (hb.annotated ha)).2

/-- **THIRD TURN.** -/
theorem settled_turn (h : Peaceful c) (hk : c.crs k = some u)
    (hv : (reconcileNow c k).crs k = some v) (hr : Recorded c u.obj) :
    Settled (reconcileNow c k) v.obj := by
  refine ⟨recorded_turn h hk hv hr.begun, fun ha => ?_, fun hj => ?_⟩
  · rw [active_turn h hk hv] at ha
    rw [markStep_turn h hk hv hr.begun ha,
      markStep_third (hr.begun.annotated ha) (hr.registered ha)]
    rfl
  · obtain ⟨ha, hruta⟩ := joins_iff.mp hj
    rw [active_turn h hk hv] at ha
    obtain ⟨m, hm, hserves, -⟩ := (begun_active h hk hv ha).2.merged hruta
    exact ⟨m, hm, hserves⟩

end Own

/-! ## The turns of others -/

section Others

variable {c : Cluster} {k k' : Key} {u v : Versioned Multiplicador}

/-- What a first turn leaves, nobody takes away. -/
theorem Begun.kept (h : Peaceful c) (hk : c.crs k = some u)
    (hk' : c.crs k' = some v) (hne : k' ≠ k) (hb : Begun c u.obj) :
    Begun (reconcileNow c k') u.obj := by
  have hn := h.wellFormed.stored k u hk
  have hapart := h.apart k k' u v hk hk' hne
  have huid : v.obj.uid ≠ u.obj.uid := hapart.uids.symm
  have hdepl : deploymentKey k ≠ deploymentKey k' :=
    fun e => hne (deploymentKey_inj.mp e).symm
  have hsvc : serviceKey k ≠ serviceKey k' :=
    fun e => hne (serviceKey_inj.mp e).symm
  have hwhere : (nsOf u.obj, deplNameOf u.obj.name) = deploymentKey k := by
    rw [hn.nsOf, hn.name]
    rfl
  have hwhere' : (nsOf u.obj, svcNameOf u.obj.name) = serviceKey k := by
    rw [hn.nsOf, hn.name]
    rfl
  refine ⟨hb.released, fun hdel hp => ?_, hb.refused, hb.annotated,
    fun ha => ?_, fun ha => ?_, fun hj => ?_⟩
  · rw [reconcileNow_proxies hk']
    refine (hb.left hdel hp).kept huid fun hj ht => ?_
    exact ((h.apart k' k v u hk' hk hne.symm).records hj hdel ht.symm).symm
  · obtain ⟨d, hd, hfix⟩ := hb.deployment ha
    refine ⟨d, ?_, hfix⟩
    rw [hwhere, reconcileNow_deployments_of_ne h.wellFormed hdepl, ← hwhere]
    exact hd
  · obtain ⟨s, hs, hfix⟩ := hb.service ha
    refine ⟨s, ?_, hfix⟩
    rw [hwhere', reconcileNow_services_of_ne h.wellFormed hsvc, ← hwhere']
    exact hs
  · rw [reconcileNow_proxies hk']
    exact (hb.owned hj).kept huid

/-- Once the others are recorded, they take no route away. -/
theorem Settled.kept (h : Peaceful c) (hk : c.crs k = some u)
    (hk' : c.crs k' = some v) (hne : k' ≠ k) (hs : Settled c u.obj)
    (hother : Recorded c v.obj) : Settled (reconcileNow c k') u.obj := by
  have hapart := h.apart k k' u v hk hk' hne
  have huid : v.obj.uid ≠ u.obj.uid := hapart.uids.symm
  refine ⟨⟨hs.recorded.begun.kept h hk hk' hne, hs.recorded.registered⟩,
    hs.ready, fun hj => ?_⟩
  obtain ⟨m, hm, hserves⟩ := hs.served hj
  rw [reconcileNow_proxies hk']
  refine Serves.kept hm hserves huid ?_ ?_
  · intro hd ht
    exact hapart.records hj (deleted_of_departs hother hd) ht
  · intro hjv ht
    obtain ⟨hact, hr⟩ := joins_iff.mp hjv
    refine ⟨hapart.routes hj hjv ht, fun _ hroute => ?_⟩
    exact absurd (record_of_registered (hother.registered hact) hr).2 hroute

end Others

/-! ## At rest -/

section Rest

variable {c : Cluster} {k : Key} {u : Versioned Multiplicador}

theorem writeCR_eq_self {ad : Multiplicador → Option Multiplicador}
    (hk : c.crs k = some u) (h : ad u.obj = some u.obj) :
    writeCR c k u.version ad = c := by
  have hw : write c.crs c.rev k (some u.obj) = (c.crs, c.rev) :=
    write_eq_self (content_of_some hk).symm
  rw [writeCR, writeAt_of_current hk, h, hw]
  rfl

theorem admitCR_self {u : Multiplicador} (h : u.deletionTimestamp = none) :
    admitCR u u = some u := admitCR_live h

/-- A settled CR that is being deleted. -/
theorem rest_deleted (hs : Settled c u.obj)
    (hdel : u.obj.deletionTimestamp.isSome = true) :
    ((reconcileOne u).run serve c).1 = c := by
  have hlen := (length_withoutFinalizer u.obj).mpr
    (hs.recorded.begun.released hdel)
  rw [reconcileOne_deleted hdel, run_reconcileDeleted, deletedState]
  dsimp only
  rw [if_pos hlen]
  split
  · rfl
  · rename_i hp
    exact setProxy_eq_self c _ (hs.recorded.begun.left hdel hp)

/-- A settled CR that is invalid. -/
theorem rest_invalid (hget : c.crs (nsOf u.obj, u.obj.name) = some u)
    (hs : Settled c u.obj) (hlive : u.obj.deletionTimestamp = none)
    (hle : u.obj.multiplicador ≤ 0) :
    ((reconcileOne u).run serve c).1 = c := by
  rw [reconcileOne_invalid hlive hle, run_reconcileInvalid]
  refine writeCR_eq_self hget ?_
  exact congrArg some (hs.recorded.begun.refused hlive hle)

/-- A settled CR that is active. -/
theorem rest_active (hget : c.crs (nsOf u.obj, u.obj.name) = some u)
    (hs : Settled c u.obj) (ha : active u.obj = true) :
    ((reconcileOne u).run serve c).1 = c := by
  obtain ⟨hlive, hpos⟩ := active_iff.mp ha
  obtain ⟨d, hd, hdfix⟩ := hs.recorded.begun.deployment ha
  obtain ⟨s, hsvc, hsfix⟩ := hs.recorded.begun.service ha
  have hann := hs.recorded.begun.annotated ha
  have hreg := hs.recorded.registered ha
  have hready := hs.ready ha
  have hadmit : admitCR u.obj u.obj = some u.obj := admitCR_self hlive
  have hservice : serviceState u.obj c = c := by
    refine setService_eq_self c _ ?_
    rw [hsvc]
    exact congrArg some hsfix
  have hensure : ensureState u c = (c, .nil, u.obj) := by
    by_cases hr : u.obj.ruta = ""
    · rw [ensureState_of_no_ruta hr, hservice]
    · obtain ⟨m, hm, hserves⟩ := hs.served (joins_iff.mpr ⟨ha, hr⟩)
      have hleave : leaveState u.obj c = c := by
        rw [leaveState, movesAway_of_registered hreg hr]
        rfl
      have hdrop : dropOldPrefix u.obj m = m := by
        rw [dropOldPrefix, if_neg]
        exact fun hc => hc.2.2 (record_of_registered hreg hr).2
      have hm' : content c.proxies (nsOf u.obj, proxyNameOf u.obj) = some m :=
        hm
      have hmerge : mergeContent u.obj
          (content c.proxies (nsOf u.obj, proxyNameOf u.obj)) = some m := by
        rw [hm']
        exact mergeProxy_of_serves hserves hdrop
      have hset : setProxy c (nsOf u.obj, proxyNameOf u.obj) (some m) = c :=
        setProxy_eq_self c _ hm'.symm
      have hsettled : settled u.obj (some m) = u.obj := by
        rw [registered, if_neg hr] at hreg
        exact hreg
      rw [ensureState_of_ruta hr, hservice, hleave, installState_ok hmerge,
        hset, hm', hsettled, writeCR_eq_self hget hadmit]
  have hdepl : setDeployment c (nsOf u.obj, deplNameOf u.obj.name)
      (some (repairDeployment u.obj d)) = c := by
    refine setDeployment_eq_self c _ ?_
    rw [hdfix]
    exact hd.symm
  rw [reconcileOne_valid hlive hpos, run_reconcileValid]
  unfold validState
  dsimp only
  rw [hann, writeCR_eq_self hget hadmit, hd]
  dsimp only
  rw [repairState]
  dsimp only
  rw [hdepl, hensure]
  dsimp only [wrapEnsure]
  rw [hready]
  exact writeCR_eq_self hget rfl

/-- **NOTHING MOVES** when everybody is settled. -/
theorem reconcileNow_of_settled (h : WellFormed c)
    (hs : ∀ u, c.crs k = some u → Settled c u.obj) :
    reconcileNow c k = c := by
  cases hk : c.crs k with
  | none => exact reconcileNow_of_none hk
  | some u =>
      have hset := hs u hk
      have hget : c.crs (nsOf u.obj, u.obj.name) = some u := by
        rw [(h.stored k u hk).key]
        exact hk
      rw [reconcileNow, run_reconcileKey_of_some hk]
      by_cases hdel : u.obj.deletionTimestamp.isSome = true
      · exact rest_deleted hset hdel
      · have hlive : u.obj.deletionTimestamp = none := by simpa using hdel
        by_cases hpos : 0 < u.obj.multiplicador
        · exact rest_active hget hset (active_iff.mpr ⟨hlive, hpos⟩)
        · exact rest_invalid hget hset hlive (by omega)

end Rest

/-! ## The rounds -/

/-- How far a CR has come after its first, second and third turn. -/
def stageOf : Nat → Cluster → Multiplicador → Prop
  | 0, _, _ => True
  | 1, c, u => Begun c u
  | 2, c, u => Recorded c u
  | _, c, u => Settled c u

/-- **THREE STAGES**, in which nobody throws anybody back. -/
def ladder : Ladder reconcileNow 3 where
  inv := Peaceful
  live c k := c.crs k ≠ none
  stage n c k := ∀ u, c.crs k = some u → stageOf n c u.obj
  inv_step _ k h := h.step k
  live_step c k k' h := by
    intro hk
    cases hcr : (reconcileNow c k').crs k with
    | none => exact h hcr
    | some v =>
        obtain ⟨u, hu, -⟩ := sameUids_reconcileNow c k' k v hcr
        rw [hk] at hu
        exact absurd hu (by simp)
  zero _ _ _ _ := trivial
  idle n c k h u hu := absurd (by rw [hu]; simp) h
  lower n c k h u hu := by
    have hs := h u hu
    match n with
    | 0 => trivial
    | 1 => exact hs.begun
    | 2 => exact hs.recorded
    | n + 3 => exact hs
  reach n c k hn h hall v hv := by
    cases hk : c.crs k with
    | none =>
        rw [reconcileNow_of_none hk, hk] at hv
        exact absurd hv (by simp)
    | some u =>
        have hu := hall k u hk
        match n, hn with
        | 0, _ => exact begun_turn h hk hv
        | 1, _ => exact recorded_turn h hk hv hu
        | 2, _ => exact settled_turn h hk hv hu
  keep n c k k' hn h hall hne hstage u hu := by
    rw [reconcileNow_crs_of_ne h.wellFormed hne.symm] at hu
    have hs := hstage u hu
    cases hk' : c.crs k' with
    | none =>
        rw [reconcileNow_of_none hk']
        exact hs
    | some v =>
        have hv := hall k' v hk'
        match n, hn with
        | 0, _ => exact hs.kept h hu hk' hne
        | 1, _ => exact ⟨hs.begun.kept h hu hk' hne, hs.registered⟩
        | 2, _ => exact hs.kept h hu hk' hne hv

/-- The CRs of later are those of now, with the same claims; the live ones are
    all there. -/
structure Continued (c c' : Cluster) : Prop where
  same : SameCRs c c'
  stays : ∀ k u, c.crs k = some u → u.obj.deletionTimestamp = none →
    ∃ v, c'.crs k = some v

theorem Continued.refl (c : Cluster) : Continued c c :=
  ⟨fun _ v hv => ⟨v, hv, SameClaims.refl _⟩, fun _ u hu _ => ⟨u, hu⟩⟩

theorem Continued.turn {c c' : Cluster} (h : Continued c c')
    (hwf : WellFormed c') (k : Key) : Continued c (reconcileNow c' k) := by
  have hsame := sameCRs_reconcileNow hwf k
  constructor
  · intro j w hw
    obtain ⟨v, hv, hcv⟩ := hsame j w hw
    obtain ⟨u, hu, hcu⟩ := h.same j v hv
    exact ⟨u, hu, hcu.trans hcv⟩
  · intro j u hu hlive
    obtain ⟨v, hv⟩ := h.stays j u hu hlive
    by_cases hjk : j = k
    · subst hjk
      obtain ⟨u', hu', hcu⟩ := h.same j v hv
      obtain rfl := Option.some.inj (hu.symm.trans hu')
      have hnext := reconcileNow_cr hwf hv
      cases hcr : (reconcileNow c' j).crs j with
      | some w => exact ⟨w, rfl⟩
      | none =>
          rw [content_of_none hcr] at hnext
          have hvan := crNext_eq_none.mp hnext.symm
          rw [vanishes, hcu.deleted, hlive] at hvan
          exact absurd hvan (by simp)
    · rw [reconcileNow_crs_of_ne hwf hjk]
      exact ⟨v, hv⟩

theorem continued_turns {c : Cluster} (h : WellFormed c) (ks : List Key) :
    Continued c (turns reconcileNow c ks) :=
  (turns_keep (I := fun c' => WellFormed c' ∧ Continued c c')
    (fun _ k hI => ⟨wellFormed_reconcileNow hI.1, hI.2.turn hI.1 k⟩)
    ⟨h, Continued.refl c⟩ ks).2

/-- Rounds enough for every stage. -/
theorem rest_of_rounds {c : Cluster} (h : Peaceful c)
    {rounds : List (List Key)} (hlen : 3 ≤ rounds.length)
    (hcover : ∀ r ∈ rounds, ∀ k, c.crs k ≠ none → k ∈ r) :
    (∀ ks, turns reconcileNow c (rounds.flatten ++ ks)
        = turns reconcileNow c rounds.flatten)
      ∧ Continued c (turns reconcileNow c rounds.flatten)
      ∧ ∀ k u, (turns reconcileNow c rounds.flatten).crs k = some u →
        Settled (turns reconcileNow c rounds.flatten) u.obj := by
  have htop := ladder.stage_of_rounds h hcover
  rw [Nat.min_eq_right hlen] at htop
  have hpeace := turns_keep ladder.inv_step h rounds.flatten
  refine ⟨fun ks => ?_, continued_turns h.wellFormed _, htop⟩
  rw [turns_append]
  exact turns_rest
    (fun k => reconcileNow_of_settled hpeace.wellFormed fun u => htop _ u) ks

/-- **THREE ROUNDS**: whatever the order of the turns in each of them, after
    three rounds no reconcile of any CR moves anything; every CR has all it
    asks for, and it still asks for what it asked at the start. -/
theorem rests_after_three_rounds {c : Cluster} (h : Peaceful c)
    {r₁ r₂ r₃ : List Key} (h₁ : ∀ k, c.crs k ≠ none → k ∈ r₁)
    (h₂ : ∀ k, c.crs k ≠ none → k ∈ r₂) (h₃ : ∀ k, c.crs k ≠ none → k ∈ r₃) :
    (∀ ks, turns reconcileNow c ([r₁, r₂, r₃].flatten ++ ks)
        = turns reconcileNow c [r₁, r₂, r₃].flatten)
      ∧ Continued c (turns reconcileNow c [r₁, r₂, r₃].flatten)
      ∧ ∀ k u, (turns reconcileNow c [r₁, r₂, r₃].flatten).crs k = some u →
        Settled (turns reconcileNow c [r₁, r₂, r₃].flatten) u.obj := by
  refine rest_of_rounds h (by simp) ?_
  intro r hr
  simp only [List.mem_cons, List.not_mem_nil, or_false] at hr
  rcases hr with rfl | rfl | rfl
  · exact h₁
  · exact h₂
  · exact h₃

/-! ## A shared host -/

instance (u v : Multiplicador) : Decidable (Compatible u v) :=
  inferInstanceAs (Decidable (_ ∧ (_ → _ → _)))

instance (u v : Multiplicador) : Decidable (Undisputed u v) :=
  decidable_of_iff (u.uid ≠ v.uid
      ∧ (joins u = true → joins v = true → targetKey u = targetKey v →
        Compatible u v)
      ∧ (joins u = true → v.deletionTimestamp.isSome = true →
        targetKey u = oldKey v → prevRoute v ≠ prefixOf u))
    ⟨fun h => ⟨h.1, h.2.1, h.2.2⟩, fun h => ⟨h.uids, h.routes, h.records⟩⟩

/-- A cluster given by lists is peaceful when its CRs are, two by two. -/
theorem peaceful_clusterOf {crs : List (Key × Versioned Multiplicador)}
    {deployments : List (Key × Versioned Deployment)}
    {proxies : List (Key × Versioned Fields)} {rev : Nat}
    (hwf : WellFormed (clusterOf crs deployments proxies rev))
    (hmaps : ∀ e ∈ proxies, (metadataOf e.2.obj).isSome = true
      ∧ (specOf e.2.obj).isSome = true)
    (happart : ∀ e ∈ crs, ∀ e' ∈ crs, e'.1 ≠ e.1 →
      Undisputed e.2.obj e'.2.obj) :
    Peaceful (clusterOf crs deployments proxies rev) :=
  ⟨hwf, fun q v hv => hmaps (q, v) (mem_of_storeOf hv),
    fun k k' u v hu hv hne =>
      happart (k, u) (mem_of_storeOf hu) (k', v) (mem_of_storeOf hv) hne⟩

/-- A CR that is being deleted and is still served as a.com/old. -/
def leavingCR : Multiplicador :=
  { newCR "old" "a.com" "old" with
    deletionTimestamp := some "now"
    annotations := some [(annProxy, "vhost-a-com"), (annProxyRoute, "/old")]
    finalizers := [finalizerName] }

/-- Two CRs that are to share a host, and one that is leaving it. -/
def sharedHost : Cluster :=
  clusterOf
    [(("default", "web"), ⟨newCR "web" "a.com" "calc", 1⟩),
      (("default", "api"), ⟨newCR "api" "a.com" "sum", 2⟩),
      (("default", "old"), ⟨leavingCR, 3⟩)] []
    [(("default", "vhost-a-com"), ⟨newProxy (newCR "old" "a.com" "old"), 4⟩)] 4

theorem peaceful_sharedHost : Peaceful sharedHost :=
  peaceful_clusterOf
    (wellFormed_clusterOf (by decide) (by decide) (by decide))
    (by decide) (by decide)

/-- A round over its CRs, and one the other way round. -/
def forth : List Key :=
  [("default", "web"), ("default", "api"), ("default", "old")]

def back : List Key :=
  [("default", "old"), ("default", "api"), ("default", "web")]

theorem mem_forth {k : Key} (h : sharedHost.crs k ≠ none) : k ∈ forth := by
  cases hk : sharedHost.crs k with
  | none => exact absurd hk h
  | some u => exact List.mem_map_of_mem (f := Prod.fst) (mem_of_storeOf hk)

theorem mem_back {k : Key} (h : sharedHost.crs k ≠ none) : k ∈ back :=
  List.mem_reverse.mpr (mem_forth h)

theorem rests_sharedHost :
    turns reconcileNow sharedHost ([forth, back, forth].flatten ++ back)
      = turns reconcileNow sharedHost [forth, back, forth].flatten :=
  (rests_after_three_rounds peaceful_sharedHost (fun _ => mem_forth)
    (fun _ => mem_back) (fun _ => mem_forth)).1 back

/-! ## Endless schedules -/

/-- **FAIR SCHEDULES**: when every CR keeps getting its turn, in whatever
    order, there is a moment after which no reconcile moves anything, and every
    CR then has all it asks for. -/
theorem rests_under_fairness {c : Cluster} (h : Peaceful c) {ks : List Key}
    (hks : ∀ k, c.crs k ≠ none → k ∈ ks) {sched : Nat → Key}
    (hfair : ∀ k ∈ ks, Recurs sched k) :
    ∃ N, (∀ n, N ≤ n → visited reconcileNow c sched n
        = visited reconcileNow c sched N)
      ∧ Continued c (visited reconcileNow c sched N)
      ∧ ∀ k u, (visited reconcileNow c sched N).crs k = some u →
        Settled (visited reconcileNow c sched N) u.obj := by
  obtain ⟨N, htop, hrest⟩ := ladder.rests
    (fun c' hc hall k =>
      reconcileNow_of_settled hc.wellFormed fun u => hall k u) h hks hfair
  exact ⟨N, hrest, continued_turns h.wellFormed _, htop⟩

/-- The three CRs in turn, for ever. -/
def roundRobin (n : Nat) : Key :=
  if n % 3 = 0 then ("default", "web")
  else if n % 3 = 1 then ("default", "api") else ("default", "old")

theorem rests_roundRobin : ∃ N, ∀ n, N ≤ n →
    visited reconcileNow sharedHost roundRobin n
      = visited reconcileNow sharedHost roundRobin N := by
  have hfair : ∀ k ∈ forth, Recurs roundRobin k := by
    intro k hk n
    simp only [forth, List.mem_cons, List.not_mem_nil, or_false] at hk
    rcases hk with rfl | rfl | rfl
    · exact ⟨3 * n, by omega, by simp [roundRobin]⟩
    · exact ⟨3 * n + 1, by omega, by simp [roundRobin]⟩
    · exact ⟨3 * n + 2, by omega, by simp [roundRobin]⟩
  obtain ⟨N, hN, -⟩ := rests_under_fairness peaceful_sharedHost
    (fun _ => mem_forth) hfair
  exact ⟨N, hN⟩

end Convergence
