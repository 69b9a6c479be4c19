import KubernetesUpRunning.ProxyShape
import KubernetesUpRunning.RepairAgrees

/-! # What a ready status says

    A reconcile that has stored a status with ready=true says that the
    Deployment, the Service and the route of the CR are there.  The repair
    branch writes it last, the create branch before the Service and the
    HTTPProxy.  This file says, for every pattern of failing calls, exactly
    when it is true. -/

namespace StatusTruth

open AssocMap ApiServer CallProgram ClusterRuns FaultyBranches FaultyReconcile
open FaultyServer GoJson Idempotence KubeObjects ProxyShape ProxyView Reconcile
open ReconcileEffect ReconcileRun RepairAgrees VersionedStore

/-- The call has stored this ready status. -/
def ReadyStored (r m : Int) (t : ApiSite) : Prop :=
  ∃ k w, .updateStatusCR k w ∈ t.done ∧ w.obj.status = some (.obj [
    ("ready", .bool true), ("replicas", .int r), ("multiplicador", .int m)])

/-- A Service with this selector selects pods with these labels. -/
def Selects (selector labels : List (String × String)) : Prop :=
  selector ≠ [] ∧ ∀ e ∈ selector, labels.lookup e.1 = selector.lookup e.1

/-- The target proxy has the route of the CR to its Service. -/
def RouteThere (u : Multiplicador) (P : Option Fields) : Prop :=
  ∃ r ∈ (P.map routesOf).getD [], firstPrefix r = some (prefixOf u)
    ∧ pointsTo (svcNameOf u.name) r = true

/-- What a ready status says is so. -/
structure Truthful (u : Multiplicador) (r m : Int) (c : Cluster) : Prop where
  children : ∃ d s, content c.deployments (deplKey u) = some d
    ∧ d.replicas = some r ∧ multiplierOf d = some (sprintD m)
    ∧ content c.services (svcKey u) = some s
    ∧ Selects s.selector d.templateLabels
  route : u.ruta ≠ "" → RouteThere u (content c.proxies (targetKey u))

/-- The Deployment that was there can be mended: it has a container whose
    environment fits, and its pods have the labels of the Service. -/
def Mendable (u : Multiplicador) (d : Deployment) : Prop :=
  (∃ ct rest, d.containers = ct :: rest
      ∧ EnvFits (sprintD u.multiplicador) ct.env)
    ∧ Selects (labelsOf (deplNameOf u.name)) d.templateLabels

/-- The Service selects its pods already or its write, computed from a true
    read, gets to the server. -/
def ServiceComes (u : Multiplicador) (F : Fates) (S : Option Service) : Prop :=
  ServiceWritten u F S
    ∨ ∃ s, S = some s ∧ Selects s.selector (labelsOf (deplNameOf u.name))

/-- The route is there already, or the Service part comes back with nil and
    the write of the target, computed from a true read, gets to the server. -/
def RouteComes (u : Multiplicador) (F : Fates) (S : Option Service)
    (P : Option Fields) : Prop :=
  u.ruta ≠ "" → RouteThere u P ∨ (ServiceSettled u F S ∧ ProxyWritten u F P)

/-- The condition: the Deployment that is there can be mended; if there is
    none, neither the Service nor the route is lost to a failing call. -/
def HoldsTrue (u : Multiplicador) (s : ApiSite) : Prop :=
  match content s.state.deployments (deplKey u) with
  | some d => Mendable u d
  | none => ServiceComes u s.fates (content s.state.services (svcKey u))
      ∧ RouteComes u s.fates (content s.state.services (svcKey u))
        (content s.state.proxies (targetKey u))

/-! ## Selectors -/

/-- Maps with the same entries select the same pods. -/
theorem Selects.of_sameMap {a b labels : List (String × String)}
    (h : sameMap a b = true) (ha : Selects a labels) : Selects b labels := by
  simp only [sameMap, Bool.and_eq_true, List.all_eq_true,
    decide_eq_true_eq] at h
  obtain ⟨hab, hba⟩ := h
  obtain ⟨hne, hsel⟩ := ha
  have hsome : ∀ (l : List (String × String)) (e : String × String),
      e ∈ l → l.lookup e.1 ≠ none := by
    intro l e he hn
    exact absurd (List.lookup_eq_none_iff.mp hn e he) (by simp)
  constructor
  · rintro rfl
    obtain ⟨e, he⟩ := List.exists_mem_of_ne_nil a hne
    exact hsome a e he (hab e he).symm
  · intro e he
    -- the entry of `b` is one of `a`
    obtain ⟨x, hx⟩ := Option.ne_none_iff_exists'.mp (hsome b e he)
    have hxa : a.lookup e.1 = some x := (hba e he).trans hx
    obtain ⟨l₁, l₂, hl, -⟩ := List.lookup_eq_some_iff.mp hxa
    have hmem : (e.1, x) ∈ a := by
      rw [hl]
      simp
    exact (hsel _ hmem).trans (hba e he)

theorem sameMap_comm {a b : List (String × String)} :
    sameMap a b = true ↔ sameMap b a = true := by
  simp only [sameMap, Bool.and_eq_true]
  exact and_comm

theorem selects_serviceAfter (u : Multiplicador) (S : Option Service)
    (labels : List (String × String)) :
    Selects (serviceAfter u S).selector labels
      ↔ Selects (labelsOf (deplNameOf u.name)) labels := by
  have hsame : sameMap (serviceAfter u S).selector
      (labelsOf (deplNameOf u.name)) = true := by
    cases S with
    | none => exact sameMap_self _
    | some s => exact selector_repairService u s
  exact ⟨Selects.of_sameMap hsame, Selects.of_sameMap (sameMap_comm.mp hsame)⟩

theorem selects_labelsOf (name : String) :
    Selects (labelsOf name) (labelsOf name) :=
  ⟨by simp [labelsOf], fun _ _ => rfl⟩

/-- A create or a merge leaves the route of the CR. -/
theorem routeThere_merge {u : Multiplicador} {P : Option Fields} {m : Fields}
    (h : mergeContent u P = some m) : RouteThere u (some m) := by
  refine ⟨routeFor u, ?_, firstPrefix_routeFor u, by simp⟩
  show routeFor u ∈ routesOf m
  rw [(mergeContent_spec h).2.1]
  exact route_mem_upsertRoute _ _ _

/-! ## The two branches -/

section Branches

variable {u : Multiplicador} {s t : ApiSite}

/-- After the repair branch. -/
theorem truthful_repaired {d : Deployment} (h : Repaired u d s t) :
    Truthful u u.replicas u.multiplicador t.state ↔ Mendable u d := by
  have hmult : multiplierOf (repairDeployment u d)
        = some (sprintD u.multiplicador)
      ↔ ∃ ct rest, d.containers = ct :: rest
        ∧ EnvFits (sprintD u.multiplicador) ct.env := by
    rw [multiplierOf_repairDeployment]
    cases hct : d.containers with
    | nil =>
        refine iff_of_false (by simp) ?_
        rintro ⟨ct, rest, he, -⟩
        exact absurd he (by simp)
    | cons ct rest =>
        show envValue _ (repairEnv _ ct.env) = _ ↔ _
        rw [envValue_repairEnv]
        constructor
        · exact fun henv => ⟨ct, rest, rfl, henv⟩
        · rintro ⟨ct', rest', he, henv⟩
          rw [(List.cons.inj he).1]
          exact henv
  constructor
  · rintro ⟨⟨d', s', hd, -, hm, hs, hsel⟩, -⟩
    obtain rfl := Option.some.inj (h.deployment.symm.trans hd)
    obtain rfl := Option.some.inj (h.service.symm.trans hs)
    exact ⟨hmult.mp hm, (selects_serviceAfter u _ _).mp hsel⟩
  · rintro ⟨hm, hsel⟩
    refine ⟨⟨_, _, h.deployment, rfl, hmult.mpr hm, h.service,
      (selects_serviceAfter u _ _).mpr hsel⟩, ?_⟩
    intro hr
    obtain ⟨m, hmerge, hP⟩ := h.proxy hr
    rw [hP]
    exact routeThere_merge hmerge

/-- After the create branch. -/
theorem truthful_created (h : Created u s t) :
    Truthful u u.replicas u.multiplicador t.state
      ↔ ServiceComes u s.fates (content s.state.services (svcKey u))
        ∧ RouteComes u s.fates (content s.state.services (svcKey u))
          (content s.state.proxies (targetKey u)) := by
  have hsvc : (∃ x, content t.state.services (svcKey u) = some x
        ∧ Selects x.selector (labelsOf (deplNameOf u.name)))
      ↔ ServiceComes u s.fates (content s.state.services (svcKey u)) := by
    rw [h.service]
    rw [ServiceComes]
    split
    · rename_i hw
      refine iff_of_true ⟨_, rfl, ?_⟩ (Or.inl hw)
      exact (selects_serviceAfter u _ _).mpr (selects_labelsOf _)
    · rename_i hw
      exact ⟨fun hx => Or.inr hx, fun hx => hx.resolve_left hw⟩
  have hroute : (u.ruta ≠ "" →
        RouteThere u (content t.state.proxies (targetKey u)))
      ↔ RouteComes u s.fates (content s.state.services (svcKey u))
        (content s.state.proxies (targetKey u)) := by
    rw [RouteComes]
    rw [h.proxy]
    refine imp_congr_right fun hr => ?_
    split
    · rename_i hw
      obtain ⟨-, hset, hpw⟩ := hw
      refine iff_of_true ?_ (Or.inr ⟨hset, hpw⟩)
      obtain ⟨m, hm⟩ := mergeContent_of_written hpw
      rw [hm]
      exact routeThere_merge hm
    · rename_i hw
      refine ⟨Or.inl, fun hx => hx.resolve_right ?_⟩
      exact fun hc => hw ⟨hr, hc⟩
  have htruth : Truthful u u.replicas u.multiplicador t.state
      ↔ (∃ x, content t.state.services (svcKey u) = some x
          ∧ Selects x.selector (labelsOf (deplNameOf u.name)))
        ∧ (u.ruta ≠ "" →
          RouteThere u (content t.state.proxies (targetKey u))) := by
    constructor
    · rintro ⟨⟨d', s', hd, -, -, hs, hsel⟩, hr⟩
      obtain rfl := Option.some.inj (h.deployment.symm.trans hd)
      exact ⟨⟨s', hs, hsel⟩, hr⟩
    · rintro ⟨⟨x, hx, hsel⟩, hr⟩
      exact ⟨⟨newDeployment u, x, h.deployment, rfl,
        multiplierOf_newDeployment u, hx, hsel⟩, hr⟩
  rw [htruth, hsvc, hroute]

end Branches

/-! ## A reconcile -/

/-- A stored ready status is that of the CR. -/
theorem status_of_readyStored {u : Multiplicador} {r m : Int} {t : ApiSite}
    (h : ReadyStored r m t) (ht : StatusOf u t) :
    r = u.replicas ∧ m = u.multiplicador := by
  obtain ⟨k, w, hmem, hw⟩ := h
  have hst := hw.symm.trans (ht k w hmem)
  simp only [readyStatus, Option.some.injEq, Json.obj.injEq,
    List.cons.injEq, Prod.mk.injEq, Json.int.injEq, true_and, and_true] at hst
  exact hst

/-- **STATUS.READY**: whatever the calls do, a ready status that a reconcile
    has stored is true when it comes back exactly under the condition. -/
theorem truthful_iff_holdsTrue {u : Versioned Multiplicador} {s : ApiSite}
    (hlive : u.obj.deletionTimestamp = none)
    (hpos : 0 < u.obj.multiplicador) (ha : Alone s.fates) (hs : s.done = [])
    {r m : Int}
    (hready : ReadyStored r m ((reconcileOne u).run faultyApi s).1) :
    Truthful u.obj r m ((reconcileOne u).run faultyApi s).1.state
      ↔ HoldsTrue u.obj s := by
  rw [reconcileOne_valid hlive hpos] at hready ⊢
  have hno : NoStatus s := by
    intro x hx
    rw [hs] at hx
    exact absurd hx List.not_mem_nil
  have hsof : StatusOf u.obj s := by
    intro k w hx
    exact absurd rfl (hno _ hx)
  obtain ⟨rfl, rfl⟩ := status_of_readyStored hready (statusOf_valid u hsof)
  obtain ⟨k, w, hmem, -⟩ := hready
  obtain ⟨hrep, hcre⟩ :=
    children_of_status u ha hno fun h => absurd rfl (h _ hmem)
  rw [HoldsTrue]
  cases hd : content s.state.deployments (deplKey u.obj) with
  | none => exact truthful_created (hcre hd)
  | some d => exact truthful_repaired (hrep d hd)

/-! ## A Service that could not be created -/

/-- A CR whose annotations are in place and whose children are gone. -/
def markedCR : Versioned Multiplicador := ⟨annotated (newCR "web" "" ""), 1⟩

/-- That CR before a reconcile in which one kind of call fails. -/
def siteFailing (op : Op) : ApiSite where
  state := clusterOf [(("default", "web"), markedCR)] [] [] 1
  fates := failing op
  done := []

theorem readyStored_siteFailing_get :
    ReadyStored 1 3 ((reconcileOne markedCR).run faultyApi (siteFailing
      ⟨.get, .service, svcKey markedCR.obj⟩)).1 :=
  ⟨("default", "web"), ⟨withReady markedCR.obj, 1⟩, .tail _ (.head _), rfl⟩

/-- The read of the missing Service fails, which is taken for what it is. -/
theorem truthful_unreadService :
    Truthful markedCR.obj 1 3 ((reconcileOne markedCR).run faultyApi
      (siteFailing ⟨.get, .service, svcKey markedCR.obj⟩)).1.state := by
  refine (truthful_iff_holdsTrue rfl (by decide) (alone_failing _) rfl
    readyStored_siteFailing_get).mpr ⟨Or.inl ?_, fun h => absurd ?_ h⟩
  · show ServiceWritten _ _ none
    decide
  · decide

theorem readyStored_siteFailing_create :
    ReadyStored 1 3 ((reconcileOne markedCR).run faultyApi (siteFailing
      ⟨.create, .service, svcKey markedCR.obj⟩)).1 :=
  ⟨("default", "web"), ⟨withReady markedCR.obj, 1⟩, .head _, rfl⟩

/-- The creation of the Service fails after the status has been written. -/
theorem not_truthful_noService :
    ¬ ∀ (u : Versioned Multiplicador) (s : ApiSite) (r m : Int),
      u.obj.deletionTimestamp = none → 0 < u.obj.multiplicador →
      Alone s.fates → s.done = [] →
      ReadyStored r m ((reconcileOne u).run faultyApi s).1 →
      Truthful u.obj r m ((reconcileOne u).run faultyApi s).1.state := by
  intro h
  obtain ⟨⟨d, x, -, -, -, hx, -⟩, -⟩ := h markedCR (siteFailing
    ⟨.create, .service, svcKey markedCR.obj⟩) 1 3 rfl (by decide)
    (alone_failing _) rfl readyStored_siteFailing_create
  have hnone : content ((reconcileOne markedCR).run faultyApi (siteFailing
      ⟨.create, .service, svcKey markedCR.obj⟩)).1.state.services
      (svcKey markedCR.obj) = none := by
    decide
  rw [hnone] at hx
  exact absurd hx (by simp)

end StatusTruth
