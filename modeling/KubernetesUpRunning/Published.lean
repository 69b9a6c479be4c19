import KubernetesUpRunning.MultiplicaApp
import KubernetesUpRunning.OwnChildren
import KubernetesUpRunning.StatusTruth
import KubernetesUpRunning.VirtualHosts

/-! # From a CR to an answer

    What the three parts are for together: whoever asks the host of a CR for
    its ruta and a number is answered with the number times the multiplicador.
    A request goes through the ingress, which reads the HTTPProxies, to a
    Service, to a pod with the labels that the Service selects, and there to
    `multiplica/app.js` with the environment of its container.

    The ingress, the pods and the router of the service are not part of the
    repository: they are a `Platform`, and `Documented` is what the operator
    relies on. -/

namespace Published

open ApiServer ClusterRuns Convergence DecimalText FairRounds GoJson
open Idempotence JsNumber KubeObjects MultiplicaApp Neighbours OwnChildren
open ProxyShape ProxyView Reconcile ReconcileEffect RepairAgrees ServerSteps
open StatusTruth VersionedStore

/-! ## The platform -/

/-- A letter, a digit, or one of three marks that mean nothing in a URL. -/
def wordChar (ch : Char) : Bool :=
  ch.isAlphanum || ch == '-' || ch == '_' || ch == '.'

/-- A segment of a path that is sent and read as it is. -/
def Word (s : String) : Prop :=
  s.toList ≠ [] ∧ (∀ ch ∈ s.toList, wordChar ch = true) ∧ s ≠ "." ∧ s ≠ ".."

instance (s : String) : Decidable (Word s) :=
  decidable_of_iff
    (s.toList ≠ [] ∧ s.toList.all wordChar = true ∧ s ≠ "." ∧ s ≠ "..")
    (Iff.rfl.and (List.all_eq_true.and Iff.rfl))

/-- A route with one prefix, one Service and a new prefix for it. -/
structure Entry where
  path : String
  service : String
  port : Int
  replacement : String

/-- The route as it stands in an HTTPProxy. -/
def Entry.route (e : Entry) : Json := .obj [
  ("conditions", .arr [.obj [("prefix", .str e.path)]]),
  ("services", .arr [.obj [("name", .str e.service), ("port", .int e.port)]]),
  ("pathRewritePolicy", .obj [("replacePrefix",
    .arr [.obj [("replacement", .str e.replacement)]])])]

/-- A pod: its labels, its containers and its name. -/
structure Pod where
  labels : List (String × String)
  containers : List Container
  hostname : String

/-- The code around the operator and the service. -/
structure Platform where
  /-- The names that the ingress takes for a virtual host. -/
  FQDN : String → Prop
  /-- A request for a path of a host goes to the port of a Service, with
      another path. -/
  forward : Cluster → String → String → Key → Int → String → Prop
  /-- The pods of a namespace, when no rollout is under way. -/
  pods : Cluster → String → Pod → Prop
  /-- `req.params.number` of a path that `/multiplica/:number` matches. -/
  param : String → Option String
  /-- The text of a number. -/
  text : Number → String

variable {P : Platform}

/-- The proxy that the ingress takes for the host: no other has the host, its
    prefixes are distinct, and every route leads to a port that is there. -/
structure InForce (FQDN : String → Prop) (c : Cluster) (host : String)
    (q : Key) (o : Fields) : Prop where
  stored : content c.proxies q = some o
  fqdn : fqdnOf o = some host
  name : FQDN host
  sole : ∀ q' o', content c.proxies q' = some o' → fqdnOf o' = some host →
    q' = q
  prefixes : ((routesOf o).map firstPrefix).Nodup
  routes : ∀ r ∈ routesOf o, ∃ e : Entry, r = e.route
    ∧ (∃ w, Word w ∧ e.path = "/" ++ w)
    ∧ (∃ w, Word w ∧ e.replacement = "/" ++ w)
    ∧ ∃ s, content c.services (q.1, e.service) = some s
      ∧ ∃ p ∈ s.ports, p.port = e.port

/-- No route of the proxy has a longer prefix of the path. -/
def Longest (o : Fields) (e : Entry) (path : String) : Prop :=
  ∀ e' : Entry, e'.route ∈ routesOf o → e'.path.toList <+: path.toList →
    e'.path.length ≤ e.path.length

/-- What the operator relies on: the ingress sends a request the way of the
    longest prefix and puts the replacement in its place; a Deployment whose
    selector is the labels of its pods has pods as soon as it has replicas, and
    there are no others; the router takes a word as it is. -/
structure Documented (P : Platform) : Prop where
  forward : ∀ {c host q o} {e : Entry} {rest : String},
    InForce P.FQDN c host q o → e.route ∈ routesOf o → Word rest →
    Longest o e (e.path ++ "/" ++ rest) → ∀ svc port path,
      P.forward c host (e.path ++ "/" ++ rest) svc port path
        ↔ svc = (q.1, e.service) ∧ port = e.port
          ∧ path = e.replacement ++ "/" ++ rest
  deployed : ∀ {c ns pod}, P.pods c ns pod → ∃ name d,
    content c.deployments (ns, name) = some d ∧ 0 < d.replicas.getD 1
      ∧ pod.labels = d.templateLabels ∧ pod.containers = d.containers
  running : ∀ {c ns name d}, content c.deployments (ns, name) = some d →
    d.selector = d.templateLabels → 0 < d.replicas.getD 1 →
    ∃ pod, P.pods c ns pod ∧ pod.labels = d.templateLabels
      ∧ pod.containers = d.containers
  param : ∀ {w}, Word w → P.param ("/multiplica/" ++ w) = some w

/-- The image that is built from `multiplica/`. -/
def multiplicaImage : String := "docker.io/egsmartin/multiplica:latest"

/-- `process.env.MULTIPLIER` in a container: the image has a default. -/
def environment (ct : Container) : String :=
  (envValue "MULTIPLIER" ct.env).getD "2"

/-- A pod behind the port of the Service runs the service, with this name and
    this MULTIPLIER. -/
def Behind (P : Platform) (c : Cluster) (svc : Key) (port : Int)
    (hostname value : String) : Prop :=
  ∃ s, content c.services svc = some s
    ∧ (∃ p ∈ s.ports, p.port = port ∧ p.targetPort = .int MultiplicaApp.port)
    ∧ ∃ pod, P.pods c svc.1 pod ∧ Selects s.selector pod.labels
      ∧ pod.hostname = hostname
      ∧ ∃ ct ∈ pod.containers, ct.image = multiplicaImage
        ∧ environment ct = value

/-- A request for the path of the host may be answered so. -/
inductive Answered (P : Platform) (c : Cluster) (host path : String) :
    Except Rejection Answer → Prop where
  | mk {svc port path' hostname value w} :
      P.forward c host path svc port path' →
      Behind P c svc port hostname value → P.param path' = some w →
      Answered P c host path (getMultiplica P.text hostname (some value) w)

/-- Clients of the CR see one program: the service with its multiplicador. -/
structure Publishes (P : Platform) (c : Cluster) (u : Multiplicador) :
    Prop where
  answered : 0 < u.replicas → ∀ w, Word w →
    ∃ x, Answered P c u.host (prefixOf u ++ "/" ++ w) x
  faithful : ∀ w x, Word w →
    Answered P c u.host (prefixOf u ++ "/" ++ w) x → 0 < u.replicas
      ∧ ∃ hostname, x = getMultiplica P.text hostname
          (some (sprintD u.multiplicador)) w
  product : ∀ (n : ℤ) (x), |n| ≤ 2 ^ 53 → |u.multiplicador| ≤ 2 ^ 53 →
    |n * u.multiplicador| ≤ 2 ^ 53 →
    Answered P c u.host (prefixOf u ++ "/" ++ toString n) x →
      ∃ a, x = .ok a
        ∧ a.result = .finite ((n * u.multiplicador : ℤ) : ℚ)

/-- What a CR needs of the others: nobody in another namespace asks for its
    host, and the rutas of its proxy are words. -/
structure HostOfItsOwn (c : Cluster) (u : Multiplicador) : Prop where
  here : ∀ k v, c.crs k = some v → joins v.obj = true →
    v.obj.host = u.host → nsOf v.obj = nsOf u
  words : ∀ k v, c.crs k = some v → joins v.obj = true →
    targetKey v.obj = targetKey u → Word v.obj.ruta

/-! ## Words -/

theorem Word.no_slash {w : String} (h : Word w) : '/' ∉ w.toList :=
  fun hmem => absurd (h.2.1 _ hmem) (by decide)

/-- A prefix without a slash ends before the slash. -/
theorem length_le_of_prefix {a b rest : List Char}
    (h : a <+: b ++ '/' :: rest) (ha : '/' ∉ a) : a.length ≤ b.length := by
  induction b generalizing a with
  | nil =>
      cases a with
      | nil => simp
      | cons x a =>
          rw [List.nil_append, List.cons_prefix_cons] at h
          exact absurd (by rw [h.1]; exact List.mem_cons_self) ha
  | cons y b ih =>
      cases a with
      | nil => simp
      | cons x a =>
          rw [List.cons_append, List.cons_prefix_cons] at h
          simp only [List.mem_cons, not_or] at ha
          exact Nat.succ_le_succ (ih h.2 ha.2)

/-- The decimal text of an integer is a word. -/
theorem word_toString (n : ℤ) : Word (toString n) := by
  have hdigit : ∀ {ch : Char}, ch.isDigit = true →
      wordChar ch = true ∧ ch ≠ '.' := by
    intro ch h
    refine ⟨by simp [wordChar, Char.isAlphanum, h], ?_⟩
    rintro rfl
    exact absurd h (by decide)
  obtain ⟨hne, hall⟩ : (toString n).toList ≠ []
      ∧ ∀ ch ∈ (toString n).toList, wordChar ch = true ∧ ch ≠ '.' := by
    obtain ⟨s, m, hs, ⟨htext, -⟩ | ⟨htext, -⟩⟩ := toString_int n
    · rw [htext]
      exact ⟨hs.ne_nil, fun ch h => hdigit (hs.digits ch h)⟩
    · rw [htext]
      refine ⟨List.cons_ne_nil _ _, fun ch h => ?_⟩
      rcases List.mem_cons.mp h with rfl | h
      · decide
      · exact hdigit (hs.digits ch h)
  refine ⟨hne, fun ch h => (hall ch h).1, fun h => ?_, fun h => ?_⟩
  · exact (hall '.' (by rw [h]; decide)).2 rfl
  · exact (hall '.' (by rw [h]; decide)).2 rfl

/-! ## All that a CR asks for -/

/-- The Deployment, the Service and the route that the CR asks for are there.
    -/
structure Complete (c : Cluster) (u : Multiplicador) : Prop where
  deployment : ∃ d, content c.deployments (nsOf u, deplNameOf u.name) = some d
    ∧ d.replicas = some u.replicas ∧ d.selector = d.templateLabels
    ∧ d.templateLabels = labelsOf (deplNameOf u.name)
    ∧ d.containers = (makeDeployment (deplNameOf u.name) (nsOf u) 1
        u.multiplicador).containers
  service : ∃ s, content c.services (nsOf u, svcNameOf u.name) = some s
    ∧ s.selector = labelsOf (deplNameOf u.name)
    ∧ s.ports = [⟨8080, .int 8080⟩]
  proxy : ∃ o, content c.proxies (targetKey u) = some o
    ∧ routeFor u ∈ routesOf o ∧ (u.host ≠ "" → fqdnOf o = some u.host)

/-- A settled CR has all of it, where the children are the operator's own. -/
theorem complete_of_settled {c c' : Cluster} {u : Multiplicador}
    (hown : Own c c') (hs : Settled c' u) (hj : joins u = true) :
    Complete c' u := by
  obtain ⟨ha, -⟩ := joins_iff.mp hj
  refine ⟨?_, ?_, ?_⟩
  · obtain ⟨d, hd, hfix⟩ := hs.recorded.begun.deployment ha
    obtain ⟨hselector, hlabels, m, hm⟩ := hown.deployments _ d hd
    refine ⟨d, hd, ?_, hselector.trans hlabels.symm, hlabels, ?_⟩
    · rw [← hfix]
      rfl
    · have hct : repairContainers (sprintD u.multiplicador) d.containers
          = d.containers := congrArg Deployment.containers hfix
      rw [← hct, hm]
      rfl
  · obtain ⟨s, hsvc, -⟩ := hs.recorded.begun.service ha
    obtain ⟨name, hname, hselector, hports⟩ := hown.services _ s hsvc
    obtain rfl := svcNameOf_inj.mp hname
    exact ⟨s, hsvc, hselector, hports⟩
  · obtain ⟨o, ho, hserves⟩ := hs.served hj
    obtain ⟨-, spec, hspec, ⟨rs, hrs, hfind⟩, hvhost⟩ := serves_iff.mp hserves
    refine ⟨o, ho, ?_, fun hhost => ?_⟩
    · have hroutes : routesOf o = rs := by
        simp [routesOf, hspec, hrs, asSlice]
      rw [hroutes]
      exact List.mem_of_find?_eq_some hfind
    · simp [fqdnOf, hspec, hvhost hhost, vhostFor, asMap, asString]

theorem Complete.of_sameClaims {c : Cluster} {u v : Multiplicador}
    (h : Complete c v) (hs : SameClaims u v) : Complete c u := by
  obtain ⟨⟨a, f, t, rfl⟩, -⟩ := hs
  exact ⟨h.deployment, h.service, h.proxy⟩

/-! ## The way of a request -/

section Request

variable {c c' : Cluster} {u : Multiplicador}

theorem HostOfItsOwn.word {v : Multiplicador} (hits : HostOfItsOwn c u)
    (hv : Asks c (targetKey u) v) : Word v.ruta := by
  obtain ⟨k, n, hk, hj, ht⟩ := hv
  have hword := hits.words k ⟨v, n⟩ hk hj ht
  exact hword

/-- The entry of the route of a CR. -/
def entryFor (u : Multiplicador) : Entry :=
  ⟨prefixOf u, svcNameOf u.name, 8080, "/multiplica"⟩

theorem route_entryFor (u : Multiplicador) :
    (entryFor u).route = routeFor u := rfl

theorem replacement_entryFor (u : Multiplicador) :
    ∃ w, Word w ∧ (entryFor u).replacement = "/" ++ w := by
  have htext : "/multiplica" = "/" ++ "multiplica" := by decide
  exact ⟨"multiplica", by decide, htext⟩

theorem firstPrefix_route (e : Entry) : firstPrefix e.route = some e.path := rfl

/-- The proxy of a CR that asks for a host is the one in force for it. -/
theorem inForce_target (hown : Own c c') (hhost : u.host ≠ "")
    (hname : P.FQDN u.host) (hits : HostOfItsOwn c u)
    (hall : ∀ k v, c.crs k = some v → joins v.obj = true →
      Complete c' v.obj) {o : Fields}
    (ho : content c'.proxies (targetKey u) = some o)
    (hfqdn : fqdnOf o = some u.host) :
    InForce P.FQDN c' u.host (targetKey u) o := by
  have hproxy := hown.proxies _ o ho
  refine ⟨ho, hfqdn, hname, fun q o' ho' hf => ?_, hproxy.prefixes,
    fun r hr => ?_⟩
  · obtain ⟨v, ⟨k, n, hk, hj, rfl⟩, hv⟩ := (hown.proxies q o' ho').host _ hf
    have hns := hits.here k _ hk hj hv
    dsimp only at hns
    rw [targetKey, targetKey, proxyNameOf, proxyNameOf, hv, hns, if_neg hhost,
      if_neg hhost]
  · obtain ⟨v, hv, rfl⟩ := hproxy.routes r hr
    have hword := hits.word hv
    obtain ⟨k, n, hk, hj, ht⟩ := hv
    have hns : nsOf v = (targetKey u).1 := congrArg Prod.fst ht
    obtain ⟨s, hs, -, hports⟩ := (hall k _ hk hj).service
    have hpath : (entryFor v).path = "/" ++ v.ruta := rfl
    have hmem : (⟨8080, .int 8080⟩ : ServicePort) ∈ s.ports := by
      rw [hports]
      exact List.mem_singleton_self _
    rw [hns] at hs
    exact ⟨entryFor v, (route_entryFor v).symm,
      ⟨v.ruta, hword, hpath⟩, replacement_entryFor v, s, hs, _, hmem, rfl⟩

/-- No other CR of the proxy takes the requests of this one. -/
theorem longest_entryFor (hown : Own c c') (hits : HostOfItsOwn c u)
    {o : Fields} (ho : content c'.proxies (targetKey u) = some o)
    (w : String) : Longest o (entryFor u) (prefixOf u ++ "/" ++ w) := by
  intro e he hpre
  obtain ⟨v, hv, hroute⟩ := (hown.proxies _ o ho).routes _ he
  have hpath : e.path = prefixOf v := by
    have h := congrArg firstPrefix hroute
    rw [firstPrefix_route, firstPrefix_routeFor] at h
    exact Option.some.inj h
  rw [hpath] at hpre ⊢
  have hlists : v.ruta.toList <+: u.ruta.toList ++ '/' :: w.toList := by
    simpa [prefixOf, String.toList_append, List.append_assoc] using hpre
  have hlen := length_le_of_prefix hlists (hits.word hv).no_slash
  show (prefixOf v).length ≤ (prefixOf u).length
  rw [prefixOf, prefixOf, ← String.length_toList, ← String.length_toList,
    String.toList_append, String.toList_append]
  simpa using hlen

/-- **THE WAY THERE**: a request for a word under the ruta goes to the Service
    of the CR, and there to the word. -/
theorem forward_iff (hP : Documented P) (hown : Own c c') (hhost : u.host ≠ "")
    (hname : P.FQDN u.host) (hits : HostOfItsOwn c u)
    (hall : ∀ k v, c.crs k = some v → joins v.obj = true →
      Complete c' v.obj) (hu : Complete c' u) {w : String} (hw : Word w)
    (svc : Key) (port : Int) (path : String) :
    P.forward c' u.host (prefixOf u ++ "/" ++ w) svc port path
      ↔ svc = (nsOf u, svcNameOf u.name) ∧ port = 8080
        ∧ path = "/multiplica/" ++ w := by
  obtain ⟨o, ho, hroute, hfqdn⟩ := hu.proxy
  exact hP.forward (e := entryFor u)
    (inForce_target hown hhost hname hits hall ho (hfqdn hhost)) hroute hw
    (longest_entryFor hown hits ho w) svc port path

/-- The Service of one CR does not select the pods of another. -/
theorem selects_labelsOf_iff {name name' : String} :
    Selects (labelsOf name) (labelsOf name') ↔ name' = name := by
  constructor
  · rintro ⟨-, h⟩
    have hlabel : some name' = some name :=
      h ("multiplicador-name", name) (by simp [labelsOf])
    exact Option.some.inj hlabel
  · rintro rfl
    exact selects_labelsOf _

/-- **WHO IS BEHIND**: pods that run the service with the multiplicador of the
    CR, and no others. -/
theorem behind_only (hP : Documented P) (hown : Own c c') (hu : Complete c' u)
    {hostname value : String}
    (h : Behind P c' (nsOf u, svcNameOf u.name) 8080 hostname value) :
    0 < u.replicas ∧ value = sprintD u.multiplicador := by
  obtain ⟨s, hs, -, pod, hpod, hsel, -, ct, hct, -, hvalue⟩ := h
  obtain ⟨s', hs', hselector, -⟩ := hu.service
  obtain rfl := Option.some.inj (hs.symm.trans hs')
  obtain ⟨name, d, hd, hpos, hlabels, hcontainers⟩ := hP.deployed hpod
  rw [hselector, hlabels, (hown.deployments _ d hd).labels,
    selects_labelsOf_iff] at hsel
  dsimp only at hsel
  subst hsel
  obtain ⟨d', hd', hreplicas, -, -, hmade⟩ := hu.deployment
  obtain rfl := Option.some.inj (hd.symm.trans hd')
  rw [hreplicas] at hpos
  rw [hcontainers, hmade] at hct
  obtain rfl := List.mem_singleton.mp hct
  exact ⟨hpos, hvalue.symm⟩

/-- With replicas there is one. -/
theorem behind_some (hP : Documented P) (hu : Complete c' u)
    (hpos : 0 < u.replicas) : ∃ hostname,
      Behind P c' (nsOf u, svcNameOf u.name) 8080 hostname
        (sprintD u.multiplicador) := by
  obtain ⟨s, hs, hselector, hports⟩ := hu.service
  obtain ⟨d, hd, hreplicas, hsel, hlabels, hmade⟩ := hu.deployment
  obtain ⟨pod, hpod, hpl, hpc⟩ := hP.running hd hsel (by
    rw [hreplicas]
    exact hpos)
  refine ⟨pod.hostname, s, hs, ⟨⟨8080, .int 8080⟩, ?_, rfl, rfl⟩, pod, hpod,
    ?_, rfl, ?_⟩
  · rw [hports]
    exact List.mem_singleton_self _
  · rw [hselector, hpl, hlabels]
    exact selects_labelsOf _
  · rw [hpc, hmade]
    exact ⟨_, List.mem_singleton_self _, rfl, rfl⟩

/-- **THE THREE PARTS TOGETHER.** -/
theorem publishes_of_complete (hP : Documented P) (hown : Own c c')
    (hhost : u.host ≠ "") (hname : P.FQDN u.host) (hits : HostOfItsOwn c u)
    (hall : ∀ k v, c.crs k = some v → joins v.obj = true →
      Complete c' v.obj) (hu : Complete c' u) : Publishes P c' u := by
  have hfaithful : ∀ w x, Word w →
      Answered P c' u.host (prefixOf u ++ "/" ++ w) x → 0 < u.replicas
        ∧ ∃ hostname, x = getMultiplica P.text hostname
          (some (sprintD u.multiplicador)) w := by
    rintro w x hw ⟨hforward, hbehind, hparam⟩
    obtain ⟨rfl, rfl, rfl⟩ := (forward_iff hP hown hhost hname hits hall hu hw
      _ _ _).mp hforward
    rw [hP.param hw] at hparam
    obtain rfl := Option.some.inj hparam
    obtain ⟨hpos, rfl⟩ := behind_only hP hown hu hbehind
    exact ⟨hpos, _, rfl⟩
  refine ⟨fun hpos w hw => ?_, hfaithful, fun n x hn hm hnm hx => ?_⟩
  · obtain ⟨hostname, hbehind⟩ := behind_some hP hu hpos
    have hforward := (forward_iff hP hown hhost hname hits hall hu hw
      _ _ _).mpr ⟨rfl, rfl, rfl⟩
    exact ⟨_, .mk hforward hbehind (hP.param hw)⟩
  · obtain ⟨-, hostname, rfl⟩ := hfaithful _ x (word_toString n) hx
    exact ⟨_, getMultiplica_int P.text hostname hn hm hnm, rfl⟩

end Request

/-- **FROM A CR TO AN ANSWER**: start from a cluster in which the children are
    the operator's own, or in which there are none.  After three rounds of
    reconciles in any order, and whatever reconciles follow, every CR that asks
    for a host of its own is published: requests under its ruta, and no others
    that go that way, see the service with its multiplicador. -/
theorem publishes_after_rounds (hP : Documented P) {c : Cluster}
    (h : Peaceful c) (hown : Own c c) {rounds : List (List Key)}
    (hlen : 3 ≤ rounds.length)
    (hcover : ∀ r ∈ rounds, ∀ k, c.crs k ≠ none → k ∈ r) {k : Key}
    {u : Versioned Multiplicador} (hk : c.crs k = some u)
    (hj : joins u.obj = true) (hhost : u.obj.host ≠ "")
    (hname : P.FQDN u.obj.host) (hits : HostOfItsOwn c u.obj)
    (ks : List Key) :
    Publishes P (turns reconcileNow c (rounds.flatten ++ ks)) u.obj := by
  obtain ⟨hrest, hcont, hsettled⟩ := rest_of_rounds h hlen hcover
  have hown' := hown.turns h.wellFormed rounds.flatten
  have hall : ∀ k v, c.crs k = some v → joins v.obj = true →
      Complete (turns reconcileNow c rounds.flatten) v.obj := by
    intro j v hv hjv
    obtain ⟨w, hw⟩ := hcont.stays j v hv (active_iff.mp (joins_iff.mp hjv).1).1
    obtain ⟨v', hv', hclaims⟩ := hcont.same j w hw
    obtain rfl := Option.some.inj (hv.symm.trans hv')
    have hjw : joins w.obj = true := hclaims.joins.trans hjv
    have hcomplete := complete_of_settled hown' (hsettled j w hw) hjw
    exact hcomplete.of_sameClaims hclaims
  rw [hrest ks]
  exact publishes_of_complete hP hown' hhost hname hits hall (hall k u hk hj)

/-! ## A platform -/

theorem Entry.eq_of_route {e e' : Entry} (h : e.route = e'.route) : e = e' := by
  cases e
  cases e'
  simp_all [Entry.route]

/-- Two proxies in force for a host, and two longest entries for a path, are
    one. -/
theorem InForce.unique {FQDN : String → Prop} {c : Cluster} {host : String}
    {q q' : Key} {o o' : Fields} {e e' : Entry} {rest rest' : String}
    (h : InForce FQDN c host q o) (h' : InForce FQDN c host q' o')
    (he : e.route ∈ routesOf o) (he' : e'.route ∈ routesOf o')
    (hl : Longest o e (e.path ++ "/" ++ rest))
    (hl' : Longest o' e' (e'.path ++ "/" ++ rest'))
    (heq : e'.path ++ "/" ++ rest' = e.path ++ "/" ++ rest) :
    q' = q ∧ e' = e ∧ rest' = rest := by
  obtain rfl := h.sole q' o' h'.stored h'.fqdn
  obtain rfl := Option.some.inj (h.stored.symm.trans h'.stored)
  have hlists : e'.path.toList ++ ('/' :: rest'.toList)
      = e.path.toList ++ ('/' :: rest.toList) := by
    simpa [String.toList_append] using congrArg String.toList heq
  have hlen : e'.path.toList.length = e.path.toList.length := by
    rw [String.length_toList, String.length_toList]
    refine le_antisymm (hl e' he' ?_) (hl' e he ?_)
    · simpa [String.toList_append] using ⟨_, hlists⟩
    · simpa [String.toList_append] using ⟨_, hlists.symm⟩
  obtain ⟨hpath, hrest⟩ := List.append_inj hlists hlen
  have hroute := List.inj_on_of_nodup_map h.prefixes he' he (by
    rw [firstPrefix_route, firstPrefix_route, String.toList_injective hpath])
  exact ⟨rfl, Entry.eq_of_route hroute,
    String.toList_injective (List.cons.inj hrest).2⟩

/-- The numbers of the witness are integers. -/
def decimalText : Number → String
  | .nan => "NaN"
  | .infinity negative => if negative then "-Infinity" else "Infinity"
  | .finite q => toString q

/-- A platform that does what is documented and no more. -/
def plainPlatform : Platform where
  FQDN host := VirtualHosts.isDNSName host = true
  forward c host path svc port path' := ∃ q o, ∃ e : Entry, ∃ rest,
    InForce (fun h => VirtualHosts.isDNSName h = true) c host q o
      ∧ e.route ∈ routesOf o ∧ Longest o e path
      ∧ path = e.path ++ "/" ++ rest ∧ svc = (q.1, e.service)
      ∧ port = e.port ∧ path' = e.replacement ++ "/" ++ rest
  pods c ns pod := ∃ name d, content c.deployments (ns, name) = some d
    ∧ 0 < d.replicas.getD 1 ∧ pod.labels = d.templateLabels
    ∧ pod.containers = d.containers ∧ pod.hostname = name ++ "-0"
  param path :=
    if "/multiplica/".toList <+: path.toList then
      some (String.ofList (path.toList.drop 12))
    else none
  text := decimalText

theorem documented_plainPlatform : Documented plainPlatform := by
  refine ⟨fun {c host q o e rest} hin he _ hl svc port path => ?_, ?_, ?_, ?_⟩
  · constructor
    · rintro ⟨q', o', e', rest', hin', he', hl', hpath, rfl, rfl, rfl⟩
      rw [hpath] at hl'
      obtain ⟨rfl, rfl, rfl⟩ := hin.unique hin' he he' hl hl' hpath.symm
      exact ⟨rfl, rfl, rfl⟩
    · rintro ⟨rfl, rfl, rfl⟩
      exact ⟨q, o, e, rest, hin, he, hl, rfl, rfl, rfl, rfl⟩
  · rintro c ns pod ⟨name, d, hd, hpos, hlabels, hcontainers, -⟩
    exact ⟨name, d, hd, hpos, hlabels, hcontainers⟩
  · intro c ns name d hd _ hpos
    exact ⟨⟨d.templateLabels, d.containers, name ++ "-0"⟩,
      ⟨name, d, hd, hpos, rfl, rfl, rfl⟩, rfl, rfl⟩
  · intro w _
    have hpre : "/multiplica/".toList <+: ("/multiplica/" ++ w).toList := by
      rw [String.toList_append]
      exact List.prefix_append _ _
    have hdrop : ("/multiplica/" ++ w).toList.drop 12 = w.toList := by
      have hlen : "/multiplica/".toList.length = 12 := rfl
      rw [String.toList_append, ← hlen, List.drop_left]
    show (if _ then some (String.ofList _) else none) = _
    rw [if_pos hpre, hdrop, String.ofList_toList]

/-- Two CRs of one host, the ruta of one a prefix of the other's. -/
def twoRutas : Cluster :=
  clusterOf
    [(("default", "web"), ⟨newCR "web" "a.com" "calc", 1⟩),
      (("default", "api"), ⟨newCR "api" "a.com" "calc2", 2⟩)] [] [] 2

theorem mem_twoRutas {k : Key} {v : Versioned Multiplicador}
    (h : twoRutas.crs k = some v) :
    (k, v) ∈ [(("default", "web"), ⟨newCR "web" "a.com" "calc", 1⟩),
      (("default", "api"), ⟨newCR "api" "a.com" "calc2", 2⟩)] :=
  mem_of_storeOf h

theorem peaceful_twoRutas : Peaceful twoRutas :=
  peaceful_clusterOf
    (wellFormed_clusterOf (by decide) (by decide) (by decide))
    (by decide) (by decide)

theorem own_twoRutas : Own twoRutas twoRutas :=
  own_of_none (fun _ => rfl) (fun _ => rfl) (fun _ => rfl)

theorem hostOfItsOwn_twoRutas :
    HostOfItsOwn twoRutas (newCR "web" "a.com" "calc") := by
  constructor
  · intro k v hv _ _
    have h : ∀ e ∈ [(("default", "web"), newCR "web" "a.com" "calc"),
        (("default", "api"), newCR "api" "a.com" "calc2")],
        nsOf e.2 = "default" := by decide
    have hmem := List.mem_map_of_mem (f := fun e => (e.1, e.2.obj))
      (mem_twoRutas hv)
    exact h _ hmem
  · intro k v hv _ _
    have h : ∀ e ∈ [(("default", "web"), newCR "web" "a.com" "calc"),
        (("default", "api"), newCR "api" "a.com" "calc2")],
        Word e.2.ruta := by decide
    have hmem := List.mem_map_of_mem (f := fun e => (e.1, e.2.obj))
      (mem_twoRutas hv)
    have hword := h _ hmem
    exact hword

theorem publishes_twoRutas : ∃ x, Answered plainPlatform
    (turns reconcileNow twoRutas
      (List.replicate 3 [("default", "api"), ("default", "web")]).flatten)
    "a.com" "/calc/21" x ∧ ∃ a, x = .ok a ∧ a.result = .finite 63 := by
  have hcover : ∀ r ∈ List.replicate 3 [("default", "api"), ("default", "web")],
      ∀ k, twoRutas.crs k ≠ none → k ∈ r := by
    intro r hr k hk
    rw [(List.mem_replicate.mp hr).2]
    obtain ⟨v, hv⟩ := Option.ne_none_iff_exists'.mp hk
    have hmem := mem_twoRutas hv
    simp only [List.mem_cons, Prod.mk.injEq, List.not_mem_nil, or_false]
      at hmem ⊢
    exact hmem.symm.imp And.left And.left
  have hpub := publishes_after_rounds documented_plainPlatform
    peaceful_twoRutas own_twoRutas (by simp) hcover (k := ("default", "web"))
    (u := ⟨newCR "web" "a.com" "calc", 1⟩) rfl (by decide) (by decide)
    (show VirtualHosts.isDNSName "a.com" = true by decide)
    hostOfItsOwn_twoRutas []
  rw [List.append_nil] at hpub
  obtain ⟨x, hx⟩ := hpub.answered (by decide) "21" (by decide)
  obtain ⟨a, rfl, ha⟩ :=
    hpub.product 21 x (by decide) (by decide) (by decide) hx
  exact ⟨_, hx, a, rfl, ha⟩

end Published
