import KubernetesUpRunning.ClusterRuns
import KubernetesUpRunning.FaultyBranches
import KubernetesUpRunning.Idempotence

/-! # Repair agrees with creation

    A reconcile builds a missing Deployment and a missing Service from
    scratch, and mends those that are there field by field.  This file compares
    the two: which objects the mending leaves as the creation would have made
    them, and what it never touches. -/

namespace RepairAgrees

open AssocMap ApiServer CallProgram ClusterRuns FaultyBranches FaultyReconcile
open FaultyServer GoJson Idempotence KubeObjects Reconcile ReconcileEffect
open ReconcileRun VersionedStore

/-- The value a container gets: the last entry of a name wins. -/
def envValue (name : String) : List EnvVar → Option String
  | [] => none
  | e :: rest => (envValue name rest).or
      (if e.name = name then some e.value else none)

/-- The MULTIPLIER that the first container gets. -/
def multiplierOf (d : Deployment) : Option String :=
  d.containers.head?.bind fun ct => envValue "MULTIPLIER" ct.env

/-- What the operator manages is as a creation for the same CR makes it. -/
structure Managed (u : Multiplicador) (d : Deployment) (s : Service) :
    Prop where
  replicas : d.replicas = (newDeployment u).replicas
  multiplier : multiplierOf d = multiplierOf (newDeployment u)
  deploymentOwner : hasOwner u.uid d.ownerReferences = true
  serviceOwner : hasOwner u.uid s.ownerReferences = true
  selector : sameMap s.selector (newService u).selector = true
  port : ∃ p ∈ s.ports, p ∈ (newService u).ports

/-- The container but for its MULTIPLIER entries. -/
def apart (ct : Container) : Container :=
  { ct with env := ct.env.filter fun e => decide (e.name ≠ "MULTIPLIER") }

/-- Every other field of the Deployment is as it was. -/
structure Untouched (u : Multiplicador) (d d' : Deployment) : Prop where
  name : d'.name = d.name
  ns : d'.ns = d.ns
  labels : d'.labels = d.labels
  selector : d'.selector = d.selector
  templateLabels : d'.templateLabels = d.templateLabels
  owners : (d'.ownerReferences.filter fun r => decide (r.uid ≠ u.uid))
    = d.ownerReferences.filter fun r => decide (r.uid ≠ u.uid)
  first : d'.containers.head?.map apart = d.containers.head?.map apart
  others : d'.containers.tail = d.containers.tail

/-- After the mending the managed fields are as created and the rest is as it
    was. -/
structure Agrees (u : Multiplicador) (d d' : Deployment) (s' : Service) :
    Prop where
  managed : Managed u d' s'
  untouched : Untouched u d d'

/-- No entry behind the first MULTIPLIER gives another value: there is at most
    one, or the last one is right already. -/
def EnvFits (value : String) (env : List EnvVar) : Prop :=
  env.countP (fun e => decide (e.name = "MULTIPLIER")) ≤ 1
    ∨ envValue "MULTIPLIER" env = some value

/-- A first port 8080 is not mended: then one has to lead to 8080. -/
def PortsFit (ports : List ServicePort) : Prop :=
  portOk ports = true → ⟨8080, .int 8080⟩ ∈ ports

/-! ## The environment -/

theorem envValue_eq_none {name : String} {env : List EnvVar} :
    envValue name env = none
      ↔ env.countP (fun e => decide (e.name = name)) = 0 := by
  induction env with
  | nil => simp [envValue]
  | cons e rest ih =>
      by_cases he : e.name = name
      · simp [envValue, he]
      · simp [envValue, he, ih]

/-- **THE ENVIRONMENT**: setting the first MULTIPLIER is setting the one the
    container gets, exactly when the list fits. -/
theorem envValue_repairEnv (value : String) (env : List EnvVar) :
    envValue "MULTIPLIER" (repairEnv value env) = some value
      ↔ EnvFits value env := by
  rw [EnvFits]
  induction env with
  | nil => simp [repairEnv, envValue]
  | cons e rest ih =>
      by_cases he : e.name = "MULTIPLIER"
      · -- the rest stays as it is and wins if it says anything
        have hnone : envValue "MULTIPLIER" rest = none ↔ _ :=
          envValue_eq_none
        rw [repairEnv, if_pos he, List.countP_cons, if_pos (by simpa using he)]
        cases hv : envValue "MULTIPLIER" rest with
        | none =>
            have hcount := hnone.mp hv
            simp [envValue, he, hv, hcount]
        | some x =>
            have hcount : rest.countP
                (fun e => decide (e.name = "MULTIPLIER")) ≠ 0 := by
              intro hz
              rw [hnone.mpr hz] at hv
              exact absurd hv (by simp)
            have hmany : ¬ rest.countP
                (fun e => decide (e.name = "MULTIPLIER")) + 1 ≤ 1 := by
              omega
            simp [envValue, hv, hcount]
      · rw [repairEnv, if_neg he, List.countP_cons,
          if_neg (by simpa using he)]
        simpa [envValue, he] using ih

theorem filter_repairEnv (value : String) (env : List EnvVar) :
    (repairEnv value env).filter (fun e => decide (e.name ≠ "MULTIPLIER"))
      = env.filter fun e => decide (e.name ≠ "MULTIPLIER") := by
  induction env with
  | nil => simp [repairEnv]
  | cons e rest ih =>
      rw [repairEnv]
      split
      · rename_i he
        simp [he]
      · rw [List.filter_cons, List.filter_cons, ih]

/-! ## The two objects -/

theorem multiplierOf_newDeployment (u : Multiplicador) :
    multiplierOf (newDeployment u) = some (sprintD u.multiplicador) := by
  simp [multiplierOf, newDeployment, makeDeployment, envValue]

theorem multiplierOf_repairDeployment (u : Multiplicador) (d : Deployment) :
    multiplierOf (repairDeployment u d) = d.containers.head?.bind fun ct =>
      envValue "MULTIPLIER" (repairEnv (sprintD u.multiplicador) ct.env) := by
  rw [multiplierOf, repairDeployment]
  cases d.containers <;> rfl

/-- **THE REST**: the mending touches nothing else. -/
theorem untouched_repairDeployment (u : Multiplicador) (d : Deployment) :
    Untouched u d (repairDeployment u d) := by
  refine ⟨rfl, rfl, rfl, rfl, rfl, ?_, ?_, ?_⟩
  · show List.filter _ (if _ then _ else _) = _
    split
    · rfl
    · rw [List.filter_append]
      simp [newControllerRef]
  · show (repairContainers _ d.containers).head?.map apart = _
    cases d.containers with
    | nil => rfl
    | cons ct rest =>
        refine congrArg some ?_
        show { ct with env := (repairEnv _ ct.env).filter _ } = apart ct
        rw [filter_repairEnv]
        rfl
  · show (repairContainers _ d.containers).tail = _
    cases d.containers <;> rfl

/-- The Service that a repair leaves has the selector of a new one. -/
theorem selector_repairService (u : Multiplicador) (s : Service) :
    sameMap (repairService u s).selector (newService u).selector = true := by
  show sameMap (if _ then _ else _) _ = true
  split
  · assumption
  · exact sameMap_self _

theorem port_repairService (u : Multiplicador) (s : Service) :
    (∃ p ∈ (repairService u s).ports, p ∈ (newService u).ports)
      ↔ PortsFit s.ports := by
  have hnew : ∀ p, p ∈ (newService u).ports ↔ p = ⟨8080, .int 8080⟩ := by
    intro p
    simp [newService]
  rw [PortsFit]
  by_cases hp : portOk s.ports = true
  · have hsame : (repairService u s).ports = s.ports := if_pos hp
    rw [hsame]
    constructor
    · rintro ⟨p, hmem, hnewp⟩ -
      rw [← (hnew p).mp hnewp]
      exact hmem
    · intro h
      exact ⟨_, h hp, (hnew _).mpr rfl⟩
  · have hset : (repairService u s).ports = [⟨8080, .int 8080⟩] := if_neg hp
    rw [hset]
    constructor
    · exact fun _ h => absurd h hp
    · exact fun _ => ⟨_, List.mem_singleton_self _, (hnew _).mpr rfl⟩

/-- **MENDING** makes the managed fields as created exactly when the
    environment and the ports fit. -/
theorem agrees_repair (u : Multiplicador) {d : Deployment} {ct : Container}
    {rest : List Container} (hct : d.containers = ct :: rest) (s : Service) :
    Agrees u d (repairDeployment u d) (repairService u s)
      ↔ EnvFits (sprintD u.multiplicador) ct.env ∧ PortsFit s.ports := by
  have hmult : multiplierOf (repairDeployment u d)
        = multiplierOf (newDeployment u)
      ↔ EnvFits (sprintD u.multiplicador) ct.env := by
    rw [multiplierOf_repairDeployment, multiplierOf_newDeployment, hct]
    exact envValue_repairEnv _ _
  constructor
  · rintro ⟨hm, -⟩
    exact ⟨hmult.mp hm.multiplier, (port_repairService u s).mp hm.port⟩
  · rintro ⟨henv, hports⟩
    refine ⟨⟨rfl, hmult.mpr henv, ?_, ?_, selector_repairService u s,
      (port_repairService u s).mpr hports⟩, untouched_repairDeployment u d⟩
    · exact hasOwner_repaired u d.ownerReferences
    · exact hasOwner_repaired u s.ownerReferences

/-! ## A reconcile -/

/-- **REPAIR AGREES**: whatever the calls do, a reconcile that comes back with
    nil leaves a Deployment and a Service that were there as a creation would
    have made them exactly when the environment and the ports fit. -/
theorem agrees_iff_fits {u : Versioned Multiplicador} {s : ApiSite}
    (hlive : u.obj.deletionTimestamp = none)
    (hpos : 0 < u.obj.multiplicador) (ha : Alone s.fates) {d : Deployment}
    {ct : Container} {rest : List Container} {sv : Service}
    (hd : content s.state.deployments (deplKey u.obj) = some d)
    (hct : d.containers = ct :: rest)
    (hs : content s.state.services (svcKey u.obj) = some sv)
    (hnil : ((reconcileOne u).run faultyApi s).2 = .nil) :
    (∃ d' s',
      content ((reconcileOne u).run faultyApi s).1.state.deployments
          (deplKey u.obj) = some d'
        ∧ content ((reconcileOne u).run faultyApi s).1.state.services
          (svcKey u.obj) = some s'
        ∧ Agrees u.obj d d' s')
      ↔ EnvFits (sprintD u.obj.multiplicador) ct.env ∧ PortsFit sv.ports := by
  rw [reconcileOne_valid hlive hpos] at hnil ⊢
  obtain ⟨hd', hs', -⟩ := repaired_of_nil u ha hd hnil
  rw [hs, serviceAfter] at hs'
  rw [← agrees_repair u.obj hct sv]
  constructor
  · rintro ⟨d', s', h₁, h₂, hagree⟩
    obtain rfl := Option.some.inj (hd'.symm.trans h₁)
    obtain rfl := Option.some.inj (hs'.symm.trans h₂)
    exact hagree
  · exact fun h => ⟨_, _, hd', hs', h⟩

/-! ## A Service that leads elsewhere -/

/-- A CR that asks for no route. -/
def plainCR : Versioned Multiplicador := ⟨newCR "web" "" "", 1⟩

/-- Its Deployment, as the operator created it. -/
def plainDeployment : Deployment := newDeployment plainCR.obj

/-- Its Service, with the port 8080 leading to `target`. -/
def leadingTo (target : IntOrString) : Service :=
  { newService plainCR.obj with ports := [⟨8080, target⟩] }

/-- The CR, its Deployment and that Service. -/
def siteLeadingTo (target : IntOrString) : ApiSite where
  state := { clusterOf [(("default", "web"), plainCR)]
      [(("default", "web-multiplicador"), ⟨plainDeployment, 1⟩)] [] 1 with
    services := storeOf
      [(("default", "web-multiplicador-svc"), ⟨leadingTo target, 1⟩)] }
  fates := fair
  done := []

/-- A first port 8080 is taken for right wherever it leads. -/
theorem not_agrees_9090 :
    ¬ ∀ (u : Versioned Multiplicador) (s : ApiSite) (d : Deployment)
      (ct : Container) (rest : List Container) (sv : Service),
      u.obj.deletionTimestamp = none → 0 < u.obj.multiplicador →
      Alone s.fates →
      content s.state.deployments (deplKey u.obj) = some d →
      d.containers = ct :: rest →
      content s.state.services (svcKey u.obj) = some sv →
      ((reconcileOne u).run faultyApi s).2 = .nil →
      ∃ d' s',
        content ((reconcileOne u).run faultyApi s).1.state.deployments
            (deplKey u.obj) = some d'
          ∧ content ((reconcileOne u).run faultyApi s).1.state.services
            (svcKey u.obj) = some s'
          ∧ Agrees u.obj d d' s' := by
  intro h
  obtain ⟨d', s', -, hs', hagree⟩ := h plainCR (siteLeadingTo (.int 9090))
    plainDeployment _ _ (leadingTo (.int 9090)) rfl (by decide) alone_fair
    (by decide) rfl (by decide) (by decide)
  have hport : (content ((reconcileOne plainCR).run faultyApi
      (siteLeadingTo (.int 9090))).1.state.services (svcKey plainCR.obj)).map
      (fun s => decide (∃ p ∈ s.ports, p ∈ (newService plainCR.obj).ports))
      = some false := by decide
  rw [hs'] at hport
  exact absurd hagree.managed.port (by simpa using hport)

/-! ## Everything to mend -/

/-- Somebody else's entry in an owner list. -/
def foreignOwner : OwnerReference where
  apiVersion := "apps/v1"
  kind := "Shop"
  name := "shop"
  uid := "uid-shop"
  controller := none
  blockOwnerDeletion := none

/-- The Deployment after others have edited it: owned by another, with seven
    replicas and another MULTIPLIER, a variable and a container more. -/
def wornDeployment : Deployment :=
  { plainDeployment with
    ownerReferences := [foreignOwner]
    replicas := some 7
    containers := [⟨"app", "multiplicador:1", [8080],
        [⟨"LOG", "debug"⟩, ⟨"MULTIPLIER", "9"⟩]⟩,
      ⟨"proxy", "envoy:1", [], [⟨"MULTIPLIER", "1"⟩]⟩] }

/-- The Service, with another owner, another selector and another port. -/
def wornService : Service :=
  { newService plainCR.obj with
    ownerReferences := [foreignOwner]
    selector := [("app", "shop")]
    ports := [⟨80, .int 80⟩] }

/-- The CR with these two. -/
def wornSite : ApiSite where
  state := { clusterOf [(("default", "web"), plainCR)]
      [(("default", "web-multiplicador"), ⟨wornDeployment, 1⟩)] [] 1 with
    services := storeOf
      [(("default", "web-multiplicador-svc"), ⟨wornService, 1⟩)] }
  fates := fair
  done := []

/-- None of the managed fields is right, and all of them are mended. -/
theorem agrees_worn :
    (¬ Managed plainCR.obj wornDeployment wornService)
      ∧ ∃ d' s',
        content ((reconcileOne plainCR).run faultyApi
            wornSite).1.state.deployments (deplKey plainCR.obj) = some d'
          ∧ content ((reconcileOne plainCR).run faultyApi
            wornSite).1.state.services (svcKey plainCR.obj) = some s'
          ∧ Agrees plainCR.obj wornDeployment d' s' := by
  refine ⟨fun h => absurd h.replicas (by decide), ?_⟩
  have hs : content wornSite.state.services (svcKey plainCR.obj)
      = some wornService := by
    decide
  refine (agrees_iff_fits rfl (by decide) alone_fair (by decide) rfl hs
    (by decide)).mpr ⟨?_, ?_⟩
  · exact Or.inl (by decide)
  · exact fun h => absurd h (by decide)

end RepairAgrees
