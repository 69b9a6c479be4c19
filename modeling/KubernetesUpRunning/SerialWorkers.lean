import KubernetesUpRunning.ClusterRuns
import KubernetesUpRunning.TwoReconciles
import KubernetesUpRunning.WorkerPool

/-! # Two workers, one after the other

    Two workers reconcile two CRs of one namespace, call by call in any order,
    each beginning again when its reconcile returns an error.  A worker leaves
    and joins HTTPProxies by a read and a later write.  The write to the proxy
    it joins is refused when that proxy has moved in between, and the reconcile
    fails.  The write to the proxy it leaves is refused, too, but nobody looks;
    and the delete is never refused.  As long as neither of the latter meets a
    proxy that has moved (`Undisturbed`), every write is the move that it was
    meant to be.  Two CRs that move to each other's proxies must then cross
    well or take turns (`InTurn`), and the moves come to one reconcile after
    the other.  A route that was put in is lost only to a write that finds it
    under the prefix it takes out (`Spares`). -/

namespace SerialWorkers

open ApiServer CallProgram ClusterRuns Conduct GoJson KubeObjects ProxyMoves
open ProxyView Reconcile ReconcileEffect ReconcileRun ServerSteps TwoParties
open TwoReconciles VersionedStore WorkerPool

/-! ## The runs -/

/-- The cluster, and a note of how far each of two workers has come with its two
    moves.  No call looks at the note. -/
structure Noted where
  cluster : Cluster
  progress : Bool → Progress

/-- How far the worker of `u` has come after a call: it has left when it has
    written the proxy it leaves or has found none there, and it has joined when
    the proxy it joins is written. -/
def note (u : Multiplicador) : (r : Req) → Resp r → Progress → Progress
  | .getProxy q, .error _, p =>
      if departs u = true ∧ q = oldKey u then .left else p
  | .updateProxy q _, x, p =>
      if departs u = true ∧ q = oldKey u then .left
      else match x with
        | .ok _ => .joined
        | .error _ => p
  | .createProxy _ _, .ok _, _ => .joined
  | .deleteProxy _, _, _ => .left
  | _, _, p => p

/-- A call of worker `i`, which reconciles `u i`. -/
def serveNoted (u : Bool → Multiplicador) (i : Bool) (s : Noted) (r : Req) :
    Noted × Resp r :=
  let a := serve s.cluster r
  (⟨a.1, Function.update s.progress i (note (u i) r a.2 (s.progress i))⟩, a.2)

/-- The rules of two workers: `ok` limits the calls of each, nobody else
    writes, and a key whose reconcile has failed is taken up again. -/
def rules (key : Bool → Key) (u : Bool → Multiplicador)
    (ok : Bool → Noted → Req → Prop) : Rules Bool Req Resp Outcome Noted where
  serve i s r s' x :=
    ok i s r ∧ s' = (serveNoted u i s r).1 ∧ x = (serveNoted u i s r).2
  env _ _ := False
  starts i o p := (∃ e, o = .error e) ∧ p = reconcileKey (key i)

/-- Both workers have just taken their keys. -/
def atWork (key : Bool → Key) (c : Cluster) :
    Pool Bool Req Resp Outcome Noted :=
  ⟨⟨c, fun _ => .fresh⟩, fun i => reconcileKey (key i)⟩

/-- The write of `u` to the proxy it leaves does what leaving is meant to do:
    an update finds the version that was read, or nothing of `u` to take out; a
    delete finds nothing but what `u` leaves behind. -/
def Undisturbed (u : Multiplicador) (c : Cluster) : Req → Prop
  | .updateProxy q o => departs u = true → q = oldKey u →
      ∀ v, c.proxies q = some v → v.version = o.version
        ∨ leaveContent u.uid (prevRoute u) (some v.obj) = some v.obj
  | .deleteProxy q => departs u = true → q = oldKey u →
      leaveContent u.uid (prevRoute u) (content c.proxies q) = none
  | _ => True

/-- If each CR moves to the proxy that the other one leaves and they do not
    cross well, then the call does not bring it about that both have left and
    neither has joined. -/
def InTurn (u : Bool → Multiplicador) (c₀ : Cluster) (i : Bool) (s : Noted)
    (r : Req) : Prop :=
  (∀ j, (serveNoted u i s r).1.progress j = .left) →
    MayMix u (content c₀.proxies)

/-- The call keeps the order of the moves. -/
def Orderly (u : Bool → Multiplicador) (c₀ : Cluster) (i : Bool) (s : Noted)
    (r : Req) : Prop := Undisturbed (u i) s.cluster r ∧ InTurn u c₀ i s r

/-- Where `w` takes out by its prefix what `u` asks for, its write does not find
    the route of `u`: neither an update that is accepted nor a delete. -/
def Spares (w u : Multiplicador) (c : Cluster) : Req → Prop
  | .updateProxy q o => Takes w u → q = targetKey u →
      ∀ v, c.proxies q = some v → v.version = o.version →
        routeFor u ∉ routesOf v.obj
  | .deleteProxy q => Takes w u → q = targetKey u →
      routeFor u ∉ routesAt (content c.proxies) q
  | _ => True

/-- Two CRs of one namespace, as they are when the workers take their keys:
    stored under different keys, with uids of their own and with targets that
    differ. -/
structure Setup (key : Bool → Key) (u : Bool → Multiplicador) (c : Cluster) :
    Prop where
  wellFormed : WellFormed c
  stored : ∀ i, content c.crs (key i) = some (u i)
  ns : (key true).1 = (key false).1
  keys : key true ≠ key false
  uids : (u true).uid ≠ (u false).uid
  targets : (targetKey (u true), prefixOf (u true))
    ≠ (targetKey (u false), prefixOf (u false))

/-- The proxies are those that the two reconciles leave one after the other. -/
def InOrder (key : Bool → Key) (c₀ c : Cluster) : Prop :=
  ∃ i, Alike (content c.proxies) (content
    (reconcileNow (reconcileNow c₀ (key i)) (key !i)).proxies)

/-- What two workers are to leave of `c₀`: the proxies that the two reconciles
    leave one after the other, with the route that each has put in and without
    the one that each has taken out. -/
structure Serialised (key : Bool → Key) (u : Bool → Multiplicador)
    (c₀ c : Cluster) : Prop where
  order : InOrder key c₀ c
  installed : ∀ i, joins (u i) = true →
    routeFor (u i) ∈ routesAt (content c.proxies) (targetKey (u i))
  gone : ∀ i, TakenOut u i (content c.proxies)

/-! ## The contract of a worker whose CR is there -/

/-- A CR that is asked for is found. -/
def found (s : Knows) : (r : Req) → Resp r → Prop
  | .getCR k, .ok u => (nsOf u.obj, u.obj.name) = k
  | .getCR _, .error _ => False
  | r, x => answers s r x

/-- The contract of a worker whose CR is there. -/
def present : Contract Req Resp Knows := ⟨allowed, found, next⟩

theorem answers_of_found {s : Knows} {r : Req} {x : Resp r}
    (h : found s r x) : answers s r x := by
  cases r with
  | getCR k =>
      cases x with
      | ok u => exact h
      | error e => exact trivial
  | _ => exact trivial

/-- The CR that was read is kept. -/
theorem cr_next {s : Knows} {r : Req} (x : Resp r) (h : s.cr ≠ none) :
    (next s r x).cr ≠ none := by
  by_cases hr : ∃ k, r = .getCR k
  · obtain ⟨k, rfl⟩ := hr
    cases x with
    | ok u => simp [next]
    | error e => exact h
  · rw [next_cr (fun k e => hr ⟨k, e⟩)]
    exact h

/-- **WHAT A WORKER ASKS**, its CR being there. -/
theorem obeys_present (k : Key) (left : Bool) :
    Obeys present (reconcileKey k) (Knows.fresh k left)
      (fun s o => Ends s o ∧ s.cr ≠ none) := by
  refine ⟨⟨rfl, rfl, rfl⟩, ?_⟩
  intro x hx
  cases x with
  | error e => exact absurd hx (by simp [present, found])
  | ok u =>
      have hobeys : Obeys conduct (reconcileOne u)
          (next (Knows.fresh k left) (.getCR k) (.ok u)) Ends :=
        obeys_reconcileOne ⟨rfl, hx, rfl⟩ rfl
      exact (hobeys.keep (fun s r x hs _ => cr_next x hs)
        (by simp [next])).narrow fun s r x => answers_of_found

/-! ## What a worker knows -/

/-- A CR that is reconciled just as `u` is. -/
structure Like (x u : Multiplicador) : Prop where
  reads : SameReads x u
  deletion : x.deletionTimestamp = u.deletionTimestamp

section Like

variable {x u : Multiplicador} (h : Like x u)
include h

theorem Like.joins : joins x = joins u := by
  simp [ReconcileEffect.joins, h.deletion, h.reads.multiplicador, h.reads.ruta]

theorem Like.departs : departs x = departs u := by
  simp [ReconcileEffect.departs, h.deletion, h.joins, h.reads.movesAway,
    h.reads.prevProxy]

theorem Like.oldKey : oldKey x = oldKey u := by
  simp [ReconcileEffect.oldKey, h.reads.nsOf, h.reads.prevProxy]

theorem Like.targetKey : targetKey x = targetKey u := by
  simp [ReconcileEffect.targetKey, h.reads.nsOf, h.reads.proxyName]

theorem Like.leave (o : Option Fields) :
    leaveContent x.uid (prevRoute x) o
      = leaveContent u.uid (prevRoute u) o := by
  rw [h.reads.uid, h.reads.prevRoute]

/-- A main update that keeps all that a reconcile goes by. -/
theorem Like.mainWrite {w : Multiplicador} (hw : SameReads w u) :
    Like (mainWrite w x) u :=
  ⟨⟨h.reads.ns, h.reads.name, h.reads.uid, h.reads.gvk, hw.spec, hw.prevProxy,
    hw.prevRoute⟩, h.deletion⟩

theorem Like.withStatus (s : Option Json) : Like { x with status := s } u :=
  ⟨⟨h.reads.ns, h.reads.name, h.reads.uid, h.reads.gvk, h.reads.spec,
    h.reads.prevProxy, h.reads.prevRoute⟩, h.deletion⟩

end Like

/-- When the other one cannot touch the target: no write to it is refused, so
    no try but the last one has left the old proxy. -/
structure Alone (u : Multiplicador) (c : Cluster) (s : Knows) : Prop where
  accepted : s.stage ≠ .refused
  once : s.left = true → s.stage ≠ .start ∧ ∀ v, s.stage ≠ .leaving v
  target : ∀ o, s.stage = .joining o → c.proxies (targetKey u) = o

/-- What the worker of `u` has read is so, or has moved on. -/
structure Tracks (k : Key) (u : Multiplicador) (c : Cluster) (s : Knows) :
    Prop where
  key : s.key = k
  read : ∀ w, s.cr = some w → Like w.obj u ∧ Snapshot c.crs c.rev k w
  stored : s.stage ≠ .joined → s.cr = none ∨ u.deletionTimestamp = none →
    ∃ w, c.crs k = some w ∧ Like w.obj u
  leaving : ∀ v, s.stage = .leaving v →
    departs u = true ∧ Snapshot c.proxies c.rev (oldKey u) v
  joining : ∀ o, s.stage = .joining o →
    joins u = true ∧ (departs u = true → s.left = true)
      ∧ ∀ v, o = some v → Snapshot c.proxies c.rev (targetKey u) v
  away : s.stage = .away → s.left = true

/-- A worker that takes its key. -/
theorem tracks_fresh {k : Key} {u : Multiplicador} {c : Cluster} (left : Bool)
    (h : ∃ w, c.crs k = some w ∧ Like w.obj u) :
    Tracks k u c (Knows.fresh k left) where
  key := rfl
  read _ hw := absurd hw (by simp [Knows.fresh])
  stored _ _ := h
  leaving _ hv := absurd hv (by simp [Knows.fresh])
  joining _ ho := absurd ho (by simp [Knows.fresh])
  away ha := absurd ha (by simp [Knows.fresh])

section Tracks

variable {k : Key} {u : Multiplicador} {c c' : Cluster} {s : Knows} {r : Req}

/-- What was read was read at its key. -/
theorem Tracks.of_cr {w : Versioned Multiplicador} (h : Tracks k u c s)
    (hw : s.cr = some w) : Like w.obj u := (h.read w hw).1

/-- Which proxies a worker writes. -/
theorem proxies_of_allowed {q : Key} (h : Tracks k u c s) (hr : allowed s r)
    (he : Effect c r c') : c'.proxies q = c.proxies q
      ∨ (departs u = true ∧ q = oldKey u)
      ∨ (joins u = true ∧ q = targetKey u) := by
  cases he with
  | proxy q' new hw =>
      by_cases hq : q = q'
      · subst hq
        cases hw with
        | create q o hq =>
            obtain ⟨w, hcr, -, hj, rfl, -⟩ := hr
            have hl := h.of_cr hcr
            exact Or.inr (Or.inr ⟨hl.joins ▸ hj, hl.targetKey⟩)
        | update q o old hq hv =>
            obtain ⟨w, v, hcr, -, ⟨-, hd, rfl, -⟩ | ⟨-, hj, rfl, -⟩⟩ := hr
            · have hl := h.of_cr hcr
              exact Or.inr (Or.inl ⟨hl.departs ▸ hd, hl.oldKey⟩)
            · have hl := h.of_cr hcr
              exact Or.inr (Or.inr ⟨hl.joins ▸ hj, hl.targetKey⟩)
        | delete q old hq =>
            obtain ⟨w, v, hcr, -, hd, rfl, -⟩ := hr
            have hl := h.of_cr hcr
            exact Or.inr (Or.inl ⟨hl.departs ▸ hd, hl.oldKey⟩)
      · exact Or.inl (write_of_ne hq)
  | _ => exact Or.inl rfl

/-- The CR as the worker of `u` leaves it until it has joined. -/
theorem stored_of_allowed (h : Tracks k u c s) (hr : allowed s r)
    (he : Effect c r c') (hst : s.stage ≠ .joined)
    (hlive : s.cr = none ∨ u.deletionTimestamp = none) :
    ∃ w, c'.crs k = some w ∧ Like w.obj u := by
  have hold := h.stored hst hlive
  cases he with
  | cr q sent old new hu =>
      have hwrite : crWrite s q sent := by
        rcases hu.req with ⟨rfl, -⟩ | ⟨rfl, -⟩
        · exact hr
        · exact hr
      obtain ⟨w, hcr, rfl, -, -, hreads⟩ := hwrite
      have hdel : u.deletionTimestamp = none := by
        rcases hlive with hnone | hdel
        · exact absurd (hnone.symm.trans hcr) (by simp)
        · exact hdel
      have hsent : SameReads sent.obj u :=
        (hreads.resolve_left hst).trans (h.of_cr hcr).reads
      obtain ⟨x, hx, hl⟩ := hold
      have hxo : old = x := by
        have hs := hu.stored
        rw [h.key, hx] at hs
        exact (Option.some.inj hs).symm
      subst hxo
      -- a live CR is not removed
      have hnew : ∃ y, new = some y ∧ Like y u := by
        rcases hu.req with ⟨-, hn⟩ | ⟨-, hn⟩
        · rw [admitCR_live (hl.deletion.trans hdel)] at hn
          exact ⟨_, hn, hl.mainWrite hsent⟩
        · exact ⟨_, hn, hl.withStatus _⟩
      obtain ⟨y, rfl, hy⟩ := hnew
      have hc : content (write c.crs c.rev s.key (some y)).1 k = some y := by
        rw [content_write, h.key, Function.update_self]
      obtain ⟨v, hv, hvy⟩ := Option.map_eq_some_iff.mp hc
      exact ⟨v, hv, hvy ▸ hy⟩
  | _ => exact hold

/-- The other worker makes a call. -/
theorem tracks_of_other {k' : Key} {u' : Multiplicador} {s' : Knows}
    (hk : k ≠ k') (h : Tracks k u c s) (h' : Tracks k' u' c s')
    (hr : allowed s' r) (he : Effect c r c') : Tracks k u c' s where
  key := h.key
  read w hw := ⟨h.of_cr hw, (h.read w hw).2.advance he.later.crs⟩
  stored hst hlive := by
    rw [crs_of_allowed he hr (h'.key ▸ hk)]
    exact h.stored hst hlive
  leaving v hv := by
    obtain ⟨hd, hs⟩ := h.leaving v hv
    exact ⟨hd, hs.advance he.later.proxies⟩
  joining o ho := by
    obtain ⟨hj, hd, hs⟩ := h.joining o ho
    exact ⟨hj, hd, fun v hv => (hs v hv).advance he.later.proxies⟩
  away := h.away

/-! ## What a call of a worker comes to -/

/-- What a call does to the proxies and to what its worker knows. -/
inductive Moved (k : Key) (u : Multiplicador) (c : Cluster) (s : Knows)
    (c' : Cluster) (s' : Knows) : Prop where
  | quiet (hs : s' = s) (hc : c'.proxies = c.proxies)
  | read (w : Versioned Multiplicador) (hst : s.stage = .start)
      (hcr : s.cr = none) (hw : c.crs k = some w)
      (hs : s' = { s with cr := some w }) (hc : c' = c)
  | look (v : Versioned Fields) (hst : s.stage = .start)
      (hd : departs u = true) (hv : c.proxies (oldKey u) = some v)
      (hs : s' = { s with stage := .leaving v }) (hc : c' = c)
  | miss (hst : s.stage = .start) (hd : departs u = true)
      (hv : c.proxies (oldKey u) = none)
      (hs : s' = { s with stage := .away, left := true }) (hc : c' = c)
  | leave (v : Versioned Fields) (hst : s.stage = .leaving v)
      (hs : s' = { s with stage := .away, left := true })
      (hc : content c'.proxies = departProxies u (content c.proxies))
  | find (hst : s.stage = .away ∨ (s.stage = .start ∧ departs u = false))
      (hj : joins u = true)
      (hs : s' = { s with stage := .joining (c.proxies (targetKey u)) })
      (hc : c' = c)
  | join (o : Option (Versioned Fields)) (m : Fields)
      (hst : s.stage = .joining o)
      (hm : mergeContent u (content c.proxies (targetKey u)) = some m)
      (hs : s' = { s with stage := .joined })
      (hc : content c'.proxies = joinProxies u (content c.proxies))
  | refuse (o : Option (Versioned Fields)) (hst : s.stage = .joining o)
      (ho : c.proxies (targetKey u) ≠ o)
      (hs : s' = { s with stage := .refused }) (hc : c' = c)

/-- A call that writes no proxy. -/
theorem proxies_of_effect (he : Effect c r c')
    (h : ∀ q new, ¬ ProxyWrite c r q new) : c'.proxies = c.proxies := by
  cases he with
  | proxy q new hw => exact absurd hw (h q new)
  | _ => rfl

/-- Leaving what is not there. -/
theorem departProxies_of_none {P : Key → Option Fields}
    (h : P (oldKey u) = none) : departProxies u P = P := by
  rw [departProxies]
  split
  · rw [h]
    exact Function.update_eq_self_iff.mpr h.symm
  · rfl

/-- The update of the proxy that is left, refused or not. -/
theorem leave_updated {v o : Versioned Fields} (hd : departs u = true)
    (hsnap : Snapshot c.proxies c.rev (oldKey u) v)
    (hver : o.version = v.version)
    (hleave : leaveContent u.uid (prevRoute u) (some v.obj) = some o.obj)
    (hu : Undisturbed u c (.updateProxy (oldKey u) o)) :
    content (serve c (.updateProxy (oldKey u) o)).1.proxies
      = departProxies u (content c.proxies) := by
  cases hq : c.proxies (oldKey u) with
  | none =>
      rw [departProxies_of_none (content_of_none hq)]
      simp [serve, update, hq, wrote]
  | some x =>
      by_cases hx : x.version = o.version
      · -- the version that is accepted is the one that was read
        obtain rfl := hsnap.same x hq (hx.trans hver)
        have hserve : serve c (.updateProxy (oldKey u) o)
            = (setProxy c (oldKey u) (some o.obj), .ok ()) := by
          simp [serve, update, hq, hx, wrote, setProxy]
        rw [hserve, setProxy_proxies, departProxies, if_pos hd,
          content_of_some hq, hleave]
      · have hsame := (hu hd rfl x hq).resolve_left hx
        have hserve : (serve c (.updateProxy (oldKey u) o)).1 = c := by
          simp [serve, update, hq, hx, wrote]
        rw [hserve, departProxies, if_pos hd, content_of_some hq, hsame,
          ← content_of_some hq, Function.update_eq_self]

/-- The delete of the proxy that is left. -/
theorem leave_deleted (hd : departs u = true)
    (hu : Undisturbed u c (.deleteProxy (oldKey u))) :
    content (serve c (.deleteProxy (oldKey u))).1.proxies
      = departProxies u (content c.proxies) := by
  cases hq : c.proxies (oldKey u) with
  | none =>
      rw [departProxies_of_none (content_of_none hq)]
      simp [serve, delete, hq, wrote]
  | some x =>
      rw [serve_deleteProxy hq, setProxy_proxies, departProxies, if_pos hd,
        hu hd rfl]

/-- The update of the proxy that is joined. -/
theorem join_updated {v o : Versioned Fields}
    (hst : s.stage = .joining (some v)) (hj : joins u = true)
    (hsnap : Snapshot c.proxies c.rev (targetKey u) v)
    (hver : o.version = v.version)
    (hm : mergeContent u (some v.obj) = some o.obj) :
    Moved k u c s (serve c (.updateProxy (targetKey u) o)).1
      (next s (.updateProxy (targetKey u) o)
        (serve c (.updateProxy (targetKey u) o)).2) := by
  cases hq : c.proxies (targetKey u) with
  | none =>
      have hserve : serve c (.updateProxy (targetKey u) o)
          = (c, .error (.refused .notFound)) := by
        simp [serve, update, hq, wrote]
      rw [hserve]
      exact .refuse _ hst (by simp [hq]) (by simp [next, hst]) rfl
  | some x =>
      by_cases hx : x.version = o.version
      · obtain rfl := hsnap.same x hq (hx.trans hver)
        have hserve : serve c (.updateProxy (targetKey u) o)
            = (setProxy c (targetKey u) (some o.obj), .ok ()) := by
          simp [serve, update, hq, hx, wrote, setProxy]
        have hm' : mergeContent u (content c.proxies (targetKey u))
            = some o.obj := by
          rw [content_of_some hq]
          exact hm
        rw [hserve]
        refine .join _ _ hst hm' (by simp [next, hst]) ?_
        rw [setProxy_proxies, joinProxies, if_pos hj, installProxies_ok hm']
        rfl
      · have hserve : serve c (.updateProxy (targetKey u) o)
            = (c, .error (.refused .conflict)) := by
          simp [serve, update, hq, hx, wrote]
        rw [hserve]
        refine .refuse _ hst ?_ (by simp [next, hst]) rfl
        rintro h
        rw [hq] at h
        rw [Option.some.inj h] at hx
        exact hx hver.symm

/-- The creation of the proxy that is joined. -/
theorem join_created {o : Fields} (hst : s.stage = .joining none)
    (hj : joins u = true) (hm : mergeContent u none = some o) :
    Moved k u c s (serve c (.createProxy (targetKey u) o)).1
      (next s (.createProxy (targetKey u) o)
        (serve c (.createProxy (targetKey u) o)).2) := by
  cases hq : c.proxies (targetKey u) with
  | none =>
      have hm' : mergeContent u (content c.proxies (targetKey u)) = some o := by
        rw [content_of_none hq]
        exact hm
      rw [serve_createProxy hq]
      refine .join _ _ hst hm' rfl ?_
      rw [setProxy_proxies, joinProxies, if_pos hj, installProxies_ok hm']
      rfl
  | some x =>
      have hserve : serve c (.createProxy (targetKey u) o)
          = (c, .error (.refused .alreadyExists)) := by
        simp [serve, create, hq, wrote]
      rw [hserve]
      exact .refuse _ hst (by simp [hq]) rfl rfl

theorem leavesNext_iff {w : Versioned Multiplicador} (hcr : s.cr = some w)
    (hl : Like w.obj u) :
    leavesNext s = true ↔ s.stage = .start ∧ departs u = true := by
  rw [leavesNext]
  rw [hcr]
  cases hst : s.stage <;> simp [hl.departs]

/-- The read of a proxy. -/
theorem moved_getProxy {q : Key} (h : Tracks k u c s)
    (hr : allowed s (.getProxy q)) :
    Moved k u c s c (next s (.getProxy q) (got (c.proxies q))) := by
  obtain ⟨w, hcr, hq⟩ := hr
  have hl := h.of_cr hcr
  by_cases hn : leavesNext s = true
  · rw [if_pos hn, hl.oldKey] at hq
    obtain ⟨hst, hd⟩ := (leavesNext_iff hcr hl).mp hn
    subst hq
    cases hv : c.proxies (oldKey u) with
    | none => exact .miss hst hd hv (by simp [next, got, hn]) rfl
    | some v => exact .look v hst hd hv (by simp [next, got, hn]) rfl
  · rw [if_neg hn, hl.joins, hl.targetKey] at hq
    obtain ⟨hj, rfl, hst⟩ := hq
    have hst' : s.stage = .away ∨ (s.stage = .start ∧ departs u = false) := by
      refine hst.imp_right fun hs => ⟨hs, ?_⟩
      by_contra hd
      exact hn ((leavesNext_iff hcr hl).mpr ⟨hs, by simpa using hd⟩)
    refine .find hst' hj ?_ rfl
    cases hv : c.proxies (targetKey u) with
    | none => simp [next, got, hn]
    | some v => simp [next, got, hn]

/-- **WHAT A CALL COMES TO.** -/
theorem moved_of_call (h : Tracks k u c s) (hr : allowed s r)
    (hu : Undisturbed u c r) :
    Moved k u c s (serve c r).1 (next s r (serve c r).2) := by
  have hquiet : (∀ q new, ¬ ProxyWrite c r q new) →
      (serve c r).1.proxies = c.proxies :=
    proxies_of_effect (serve_effect c r)
  cases r with
  | getCR k' =>
      obtain ⟨hk, hst, hcr⟩ := hr
      obtain ⟨w, hw, -⟩ := h.stored (by simp [hst]) (Or.inl hcr)
      have hserve : serve c (.getCR k') = (c, .ok w) := by
        rw [hk, h.key]
        simp [serve, got, hw]
      rw [hserve]
      exact .read w hst hcr hw rfl rfl
  | getProxy q => exact moved_getProxy h hr
  | updateProxy q o =>
      obtain ⟨w, v, hcr, hver, ⟨hst, hd, hq, hleave⟩ | ⟨hst, hj, hq, hm⟩⟩ := hr
      · have hl := h.of_cr hcr
        rw [hl.leave] at hleave
        obtain rfl := hq.trans hl.oldKey
        have hd' := hl.departs ▸ hd
        refine .leave v hst (by simp [next, hst]) ?_
        exact leave_updated hd' (h.leaving v hst).2 hver hleave hu
      · have hl := h.of_cr hcr
        rw [hl.reads.mergeContent] at hm
        obtain rfl := hq.trans hl.targetKey
        have hj' := hl.joins ▸ hj
        exact join_updated hst hj' ((h.joining _ hst).2.2 v rfl) hver hm
  | createProxy q o =>
      obtain ⟨w, hcr, hst, hj, hq, hm⟩ := hr
      have hl := h.of_cr hcr
      rw [hl.reads.mergeContent] at hm
      obtain rfl := hq.trans hl.targetKey
      exact join_created hst (hl.joins ▸ hj) hm
  | deleteProxy q =>
      obtain ⟨w, v, hcr, hst, hd, hq, -⟩ := hr
      have hl := h.of_cr hcr
      obtain rfl := hq.trans hl.oldKey
      exact .leave v hst rfl (leave_deleted (hl.departs ▸ hd) hu)
  | _ => exact .quiet rfl (hquiet fun q new hw => by cases hw)

/-- The worker itself makes a call, before it has learnt anything from it. -/
theorem tracks_of_own (h : Tracks k u c s) (hr : allowed s r)
    (he : Effect c r c') : Tracks k u c' s where
  key := h.key
  read w hw := ⟨h.of_cr hw, (h.read w hw).2.advance he.later.crs⟩
  stored hst hlive := stored_of_allowed h hr he hst hlive
  leaving v hv := by
    obtain ⟨hd, hs⟩ := h.leaving v hv
    exact ⟨hd, hs.advance he.later.proxies⟩
  joining o ho := by
    obtain ⟨hj, hd, hs⟩ := h.joining o ho
    exact ⟨hj, hd, fun v hv => (hs v hv).advance he.later.proxies⟩
  away := h.away

/-- Another stage, with nothing of the proxies in hand. -/
theorem Tracks.stage (h : Tracks k u c s) {st : Stage} (left : Bool)
    (hst : s.stage ≠ .joined) (hl : ∀ v, st ≠ .leaving v)
    (hj : ∀ o, st ≠ .joining o) (ha : st = .away → left = true) :
    Tracks k u c { s with stage := st, left := left } where
  key := h.key
  read := h.read
  stored _ hlive := h.stored hst hlive
  leaving v hv := absurd hv (hl v)
  joining o ho := absurd ho (hj o)
  away := ha

/-- What a worker knows after its call. -/
theorem tracks_of_moved {s' : Knows} (hwf : WellFormed c)
    (h : Tracks k u c s) (hr : allowed s r) (he : Effect c r c')
    (hm : Moved k u c s c' s') : Tracks k u c' s' := by
  have hown := tracks_of_own h hr he
  cases hm with
  | quiet hs hc =>
      rw [hs]
      exact hown
  | read w hst hcr hw hs hc =>
      subst hs hc
      have hstored := h.stored (by simp [hst]) (Or.inl hcr)
      refine ⟨h.key, ?_, fun _ _ => hstored, ?_, ?_, ?_⟩
      · intro x hx
        obtain rfl := Option.some.inj hx
        obtain ⟨y, hy, hl⟩ := hstored
        obtain rfl := Option.some.inj (hw.symm.trans hy)
        exact ⟨hl, snapshot_of_get hwf.crs hw⟩
      · intro v hv
        exact absurd (hst.symm.trans hv) (by simp)
      · intro o ho
        exact absurd (hst.symm.trans ho) (by simp)
      · intro ha
        exact absurd (hst.symm.trans ha) (by simp)
  | look v hst hd hv hs hc =>
      subst hs hc
      refine ⟨h.key, h.read, fun _ => h.stored (by simp [hst]), ?_, ?_, ?_⟩
      · intro x hx
        obtain rfl := Stage.leaving.inj hx
        exact ⟨hd, snapshot_of_get hwf.proxies hv⟩
      · intro o ho
        exact absurd ho (by simp)
      · intro ha
        exact absurd ha (by simp)
  | miss hst hd hv hs hc =>
      rw [hs]
      exact hown.stage true (by simp [hst]) (by simp) (by simp) (fun _ => rfl)
  | leave v hst hs hc =>
      rw [hs]
      exact hown.stage true (by simp [hst]) (by simp) (by simp) (fun _ => rfl)
  | find hst hj hs hc =>
      subst hs hc
      have hne : s.stage ≠ .joined := by
        rcases hst with ha | ⟨hst, -⟩
        · simp [ha]
        · simp [hst]
      refine ⟨h.key, h.read, fun _ => h.stored hne, ?_, ?_, ?_⟩
      · intro v hv
        exact absurd hv (by simp)
      · intro o ho
        obtain rfl := Stage.joining.inj ho
        refine ⟨hj, ?_, fun v hv => snapshot_of_get hwf.proxies hv⟩
        intro hd
        rcases hst with ha | ⟨-, hnot⟩
        · exact h.away ha
        · exact absurd (hd.symm.trans hnot) (by simp)
      · intro ha
        exact absurd ha (by simp)
  | join o m hst hm hs hc =>
      rw [hs]
      refine ⟨hown.key, hown.read, fun hne => absurd rfl hne, ?_, ?_, ?_⟩
      · intro v hv
        exact absurd hv (by simp)
      · intro o ho
        exact absurd ho (by simp)
      · intro ha
        exact absurd ha (by simp)
  | refuse o hst ho hs hc =>
      rw [hs]
      exact hown.stage s.left (by simp [hst]) (by simp) (by simp) (by simp)

/-- A worker whose target nobody else touches stays so. -/
theorem alone_of_moved {s' : Knows} (h : Alone u c s)
    (hm : Moved k u c s c' s') : Alone u c' s' := by
  cases hm with
  | quiet hs hc =>
      rw [hs]
      refine ⟨h.accepted, h.once, ?_⟩
      intro o ho
      rw [hc]
      exact h.target o ho
  | read w hst hcr hw hs hc =>
      subst hs hc
      exact ⟨h.accepted, h.once, h.target⟩
  | look v hst hd hv hs hc =>
      rw [hs]
      refine ⟨by simp, ?_, by simp⟩
      intro hleft
      exact absurd hst (h.once hleft).1
  | miss hst hd hv hs hc =>
      rw [hs]
      exact ⟨by simp, fun _ => by simp, by simp⟩
  | leave v hst hs hc =>
      rw [hs]
      exact ⟨by simp, fun _ => by simp, by simp⟩
  | find hst hj hs hc =>
      subst hs hc
      refine ⟨by simp, fun _ => by simp, ?_⟩
      intro o ho
      exact Stage.joining.inj ho
  | join o m hst hm hs hc =>
      rw [hs]
      exact ⟨by simp, fun _ => by simp, by simp⟩
  | refuse o hst ho hs hc => exact absurd (h.target o hst) ho

end Tracks

/-! ## Both workers -/

/-- How far a worker has come with its two moves. -/
def progress (s : Knows) : Progress :=
  match s.stage with
  | .joined => .joined
  | _ => if s.left then .left else .fresh

theorem progress_of_ne {s : Knows} (h : s.stage ≠ .joined) :
    progress s = if s.left then .left else .fresh := by
  rw [progress]
  cases hst : s.stage with
  | joined => exact absurd hst h
  | _ => rfl

/-- What holds of the cluster and of what the two workers know: the proxies are
    what the moves made so far have made of `x₀`. -/
structure Joint (key : Bool → Key) (u : Bool → Multiplicador)
    (x₀ : Key → Option Fields) (c : Cluster) (g : Bool → Knows) : Prop where
  wellFormed : WellFormed c
  tracks : ∀ i, Tracks (key i) (u i) c (g i)
  alone : ∀ i, ¬ (party u i).again → Alone (u i) c (g i)
  word : Trail u x₀ (fun i => progress (g i)) (content c.proxies)

section Joint

variable {key : Bool → Key} {u : Bool → Multiplicador}
  {x₀ : Key → Option Fields} {c c' : Cluster} {g : Bool → Knows} {i : Bool}
  {s' : Knows} {r : Req}

theorem progress_update (g : Bool → Knows) (i : Bool) (s' : Knows) :
    (fun j => progress (Function.update g i s' j))
      = Function.update (fun j => progress (g j)) i (progress s') := by
  funext j
  by_cases hj : j = i
  · subst hj
    rw [Function.update_self, Function.update_self]
  · rw [Function.update_of_ne hj, Function.update_of_ne hj]

/-- No move. -/
theorem word_of_same (h : Joint key u x₀ c g)
    (hp : progress s' = progress (g i)) (hc : c'.proxies = c.proxies) :
    Trail u x₀ (fun j => progress (Function.update g i s' j))
      (content c'.proxies) := by
  rw [progress_update, hp, hc]
  have hself : Function.update (fun j => progress (g j)) i (progress (g i))
      = fun j => progress (g j) := Function.update_eq_self i _
  rw [hself]
  exact h.word

/-- The worker leaves, for the first time or again. -/
theorem word_of_left (h : Joint key u x₀ c g)
    (hturn : (∀ j, progress (Function.update g i s' j) = .left) → MayMix u x₀)
    (hst : (g i).stage = .start ∨ ∃ v, (g i).stage = .leaving v)
    (hp : progress s' = .left)
    (hc : content c'.proxies = departProxies (u i) (content c.proxies)) :
    Trail u x₀ (fun j => progress (Function.update g i s' j))
      (content c'.proxies) := by
  have hne : (g i).stage ≠ .joined := by
    rcases hst with hst | ⟨v, hst⟩ <;> simp [hst]
  have hbefore := progress_of_ne hne
  have hmix : progress (g !i) = .left → MayMix u x₀ := by
    intro hother
    refine hturn (forall_of_pair (i := i) ?_ ?_)
    · rw [Function.update_self, hp]
    · rw [Function.update_of_ne (by cases i <;> simp), hother]
  rw [progress_update, hp, hc]
  cases hleft : (g i).left with
  | false =>
      rw [hleft] at hbefore
      exact h.word.leave i hbefore hmix
  | true =>
      rw [hleft] at hbefore
      have hagain : (party u i).again := by
        by_contra hno
        obtain ⟨hstart, hleaving⟩ := (h.alone i hno).once hleft
        rcases hst with hst | ⟨v, hst⟩
        · exact hstart hst
        · exact hleaving v hst
      have hself : Function.update (fun j => progress (g j)) i .left
          = fun j => progress (g j) :=
        Function.update_eq_self_iff.mpr hbefore.symm
      rw [hself]
      exact h.word.again i hbefore hagain

/-- The worker joins, and if it has had nothing to leave it has left. -/
theorem word_of_join {o : Option (Versioned Fields)} {m : Fields}
    (h : Joint key u x₀ c g) (hst : (g i).stage = .joining o)
    (hm : mergeContent (u i) (content c.proxies (targetKey (u i))) = some m)
    (hp : progress s' = .joined)
    (hc : content c'.proxies = joinProxies (u i) (content c.proxies)) :
    Trail u x₀ (fun j => progress (Function.update g i s' j))
      (content c'.proxies) := by
  have hbefore := progress_of_ne (s := g i) (by simp [hst])
  have hready : (party u i).ready (content c.proxies) := fun _ => ⟨m, hm⟩
  rw [progress_update, hp, hc]
  cases hleft : (g i).left with
  | true =>
      rw [hleft] at hbefore
      exact h.word.join i hbefore hready
  | false =>
      rw [hleft] at hbefore
      have hd : departs (u i) = false := by
        by_contra hd
        have htrue := ((h.tracks i).joining o hst).2.1 (by simpa using hd)
        exact absurd (hleft.symm.trans htrue) (by simp)
      have hw : Trail u x₀
          (Function.update (fun j => progress (g j)) i .left)
          (content c.proxies) := by
        have hleave := h.word.leave i hbefore fun _ => mayMix_of_stays hd
        rwa [show (party u i).leave (content c.proxies) = content c.proxies from
          departProxies_of_not hd] at hleave
      have hjoin := hw.join i (Function.update_self _ _ _) hready
      rwa [Function.update_idem] at hjoin

/-- A call is a move or none. -/
theorem word_of_moved (h : Joint key u x₀ c g)
    (hturn : (∀ j, progress (Function.update g i s' j) = .left) → MayMix u x₀)
    (hm : Moved (key i) (u i) c (g i) c' s') :
    Trail u x₀ (fun j => progress (Function.update g i s' j))
      (content c'.proxies) := by
  cases hm with
  | quiet hs hc => exact word_of_same h (by rw [hs]) hc
  | read w hst hcr hw hs hc =>
      refine word_of_same h ?_ (by rw [hc])
      rw [hs]
      rfl
  | look v hst hd hv hs hc =>
      refine word_of_same h ?_ (by rw [hc])
      rw [hs, progress_of_ne (s := g i) (by simp [hst])]
      rfl
  | miss hst hd hv hs hc =>
      refine word_of_left h hturn (Or.inl hst) (by rw [hs]; rfl) ?_
      rw [hc, departProxies_of_none (content_of_none hv)]
  | leave v hst hs hc =>
      exact word_of_left h hturn (Or.inr ⟨v, hst⟩) (by rw [hs]; rfl) hc
  | find hst hj hs hc =>
      have hne : (g i).stage ≠ .joined := by
        rcases hst with ha | ⟨hst, -⟩
        · simp [ha]
        · simp [hst]
      refine word_of_same h ?_ (by rw [hc])
      rw [hs, progress_of_ne hne]
      rfl
  | join o m hst hm hs hc =>
      exact word_of_join h hst hm (by rw [hs]; rfl) hc
  | refuse o hst ho hs hc =>
      refine word_of_same h ?_ (by rw [hc])
      rw [hs, progress_of_ne (s := g i) (by simp [hst])]
      rfl

/-- The other worker does not touch a target that it neither leaves nor
    joins. -/
theorem alone_of_other {k k' : Key} {v v' : Multiplicador} {s : Knows}
    (h : Alone v c s) (ht : Tracks k v c s) (ht' : Tracks k' v' c s')
    (hr : allowed s' r) (he : Effect c r c') (henter : ¬ Enters v v')
    (hmeet : ¬ Meets v v') : Alone v c' s := by
  refine ⟨h.accepted, h.once, ?_⟩
  intro o ho
  have hj := (ht.joining o ho).1
  rcases proxies_of_allowed (q := targetKey v) ht' hr he with hq | ⟨hd, hq⟩
      | ⟨hj', hq⟩
  · rw [hq]
    exact h.target o ho
  · exact absurd ⟨hj, hd, hq⟩ henter
  · exact absurd ⟨hj, hj', hq⟩ hmeet

/-- The note says how far the worker has come. -/
theorem note_eq {k : Key} {v : Multiplicador} {s : Knows}
    (h : Tracks k v c s) (hr : allowed s r) (x : Resp r) :
    note v r x (progress s) = progress (next s r x) := by
  cases r with
  | getCR k' =>
      cases x with
      | ok w => rfl
      | error e => rfl
  | getProxy q =>
      obtain ⟨w, hcr, hq⟩ := hr
      have hl := h.of_cr hcr
      by_cases hn : leavesNext s = true
      · obtain ⟨hst, hd⟩ := (leavesNext_iff hcr hl).mp hn
        rw [if_pos hn, hl.oldKey] at hq
        cases x with
        | ok p =>
            rw [progress_of_ne (by simp [hst])]
            simp [note, next, hn, progress]
        | error e => simp [note, next, hn, hd, hq, progress]
      · rw [if_neg hn, hl.joins, hl.targetKey] at hq
        obtain ⟨hj, rfl, hst⟩ := hq
        have hne : s.stage ≠ .joined := by
          rcases hst with hst | hst <;> simp [hst]
        rw [progress_of_ne hne]
        cases x with
        | ok p => simp [note, next, hn, progress]
        | error e =>
            have hno : ¬ (departs v = true ∧ targetKey v = oldKey v) :=
              fun hd => oldKey_ne_targetKey hj hd.1 hd.2.symm
            simp [note, next, hn, hno, progress]
  | updateProxy q o =>
      obtain ⟨w, p, hcr, -, ⟨hst, hd, hq, -⟩ | ⟨hst, hj, hq, -⟩⟩ := hr
      · have hl := h.of_cr hcr
        rw [hl.oldKey] at hq
        rw [hl.departs] at hd
        simp [note, next, hst, hd, hq, progress]
      · have hl := h.of_cr hcr
        rw [hl.targetKey] at hq
        rw [hl.joins] at hj
        have hno : ¬ (departs v = true ∧ q = oldKey v) := fun hd =>
          oldKey_ne_targetKey hj hd.1 (hd.2.symm.trans hq)
        rw [progress_of_ne (by simp [hst])]
        cases x with
        | ok y => simp [note, next, hst, hno, progress]
        | error e => simp [note, next, hst, hno, progress]
  | createProxy q o =>
      obtain ⟨w, hcr, hst, -⟩ := hr
      rw [progress_of_ne (by simp [hst])]
      cases x with
      | ok y => rfl
      | error e => rfl
  | deleteProxy q => rfl
  | _ => rfl

/-- **ONE CALL** keeps what holds of both workers. -/
theorem joint_call (hkeys : ∀ i, key i ≠ key !i) (h : Joint key u x₀ c g)
    (hr : allowed (g i) r) (hu : Undisturbed (u i) c r)
    (hturn : (∀ j, progress (Function.update g i
      (next (g i) r (serve c r).2) j) = .left) → MayMix u x₀) :
    Joint key u x₀ (serve c r).1
      (Function.update g i (next (g i) r (serve c r).2)) := by
  have he := serve_effect c r
  have hm := moved_of_call (h.tracks i) hr hu
  refine ⟨he.wellFormed h.wellFormed, ?_, ?_, word_of_moved h hturn hm⟩
  · intro j
    by_cases hj : j = i
    · subst hj
      rw [Function.update_self]
      exact tracks_of_moved h.wellFormed (h.tracks j) hr he hm
    · rw [Function.update_of_ne hj]
      have hij : i = !j := eq_not_of_ne fun e => hj e.symm
      subst hij
      exact tracks_of_other (hkeys j) (h.tracks j) (h.tracks !j) hr he
  · intro j hno
    by_cases hj : j = i
    · subst hj
      rw [Function.update_self]
      exact alone_of_moved (h.alone j hno) hm
    · rw [Function.update_of_ne hj]
      have hij : i = !j := eq_not_of_ne fun e => hj e.symm
      subst hij
      exact alone_of_other (h.alone j hno) (h.tracks j) (h.tracks !j) hr he
        (fun e => hno (Or.inl e)) (fun e => hno (Or.inr e))

/-- The CR that a worker asks for is there. -/
theorem found_serve {k : Key} {v : Multiplicador} {s : Knows}
    (hwf : WellFormed c) (h : Tracks k v c s) (hr : allowed s r) :
    found s r (serve c r).2 := by
  cases r with
  | getCR k' =>
      obtain ⟨hk, hst, hcr⟩ := hr
      obtain ⟨w, hw, -⟩ := h.stored (by simp [hst]) (Or.inl hcr)
      have hw' : c.crs k' = some w := by
        rw [hk, h.key]
        exact hw
      show found s (.getCR k') (got (c.crs k'))
      rw [hw']
      exact (hwf.stored k' w hw').key
  | _ => exact trivial

/-- A worker takes its key up again. -/
theorem joint_restart {o : GoError} (h : Joint key u x₀ c g)
    (hend : Ends (g i) (.error o)) :
    Joint key u x₀ c
      (Function.update g i (Knows.fresh (key i) (g i).left)) := by
  obtain ⟨hst, w, hcr, hlive⟩ := hend
  have hne : (g i).stage ≠ .joined := by
    rcases hst with hst | hst <;> simp [hst]
  refine ⟨h.wellFormed, ?_, ?_, ?_⟩
  · intro j
    by_cases hj : j = i
    · subst hj
      rw [Function.update_self]
      have hl := (h.tracks j).of_cr hcr
      exact tracks_fresh _ ((h.tracks j).stored hne
        (Or.inr (hl.deletion.symm.trans hlive)))
    · rw [Function.update_of_ne hj]
      exact h.tracks j
  · intro j hno
    by_cases hj : j = i
    · subst hj
      have ha := h.alone j hno
      rw [Function.update_self]
      refine ⟨by simp [Knows.fresh], ?_, by simp [Knows.fresh]⟩
      intro hleft
      rcases hst with hst | hst
      · exact absurd hst (ha.once hleft).1
      · exact absurd hst ha.accepted
    · rw [Function.update_of_ne hj]
      exact h.alone j hno
  · refine word_of_same h ?_ rfl
    rw [progress_of_ne hne]
    rfl

/-- A worker that has returned nil has made its moves, but for those that are
    none. -/
theorem word_of_ends {q : Bool → Progress} {x : Key → Option Fields}
    (h : Joint key u x₀ c g) (hend : Ends (g i) .nil) (hcr : (g i).cr ≠ none)
    (hq : q i = progress (g i)) (hw : Trail u x₀ q x) :
    Trail u x₀ (Function.update q i .joined) x := by
  obtain ⟨w, hw', hdeparts, hjoins, -⟩ := hend.resolve_left hcr
  have hl := (h.tracks i).of_cr hw'
  rw [hl.departs] at hdeparts
  rw [hl.joins] at hjoins
  by_cases hst : (g i).stage = .joined
  · have hself : Function.update q i .joined = q := by
      refine Function.update_eq_self_iff.mpr ?_
      rw [hq, progress, hst]
    rw [hself]
    exact hw
  · have hj : joins (u i) = false := by
      by_contra hj
      exact hst (hjoins (by simpa using hj))
    have hjoin : (party u i).join x = x := joinProxies_of_not hj
    have hready : (party u i).ready x := fun e => absurd (hj.symm.trans e)
      (by simp)
    have hbefore := hq.trans (progress_of_ne hst)
    cases hleft : (g i).left with
    | true =>
        rw [hleft] at hbefore
        rw [← hjoin]
        exact hw.join i hbefore hready
    | false =>
        rw [hleft] at hbefore
        have hd : departs (u i) = false := by
          by_contra hd
          have htrue := hdeparts (by simpa using hd)
          exact absurd (hleft.symm.trans htrue) (by simp)
        have hleave : (party u i).leave x = x := departProxies_of_not hd
        have hw₁ : Trail u x₀ (Function.update q i .left) x := by
          have hw₁ := hw.leave i hbefore fun _ => mayMix_of_stays hd
          rwa [hleave] at hw₁
        have hw₂ := hw₁.join i (Function.update_self _ _ _) hready
        rwa [hjoin, Function.update_idem] at hw₂

/-! ## The routes that are put in -/

/-- What a worker that has joined has put in is there. -/
def Installed (u : Bool → Multiplicador) (c : Cluster) (g : Bool → Knows) :
    Prop :=
  ∀ i, (g i).stage = .joined → joins (u i) = true →
    routeFor (u i) ∈ routesAt (content c.proxies) (targetKey (u i))

/-- A call that would take the route out does not write the proxy. -/
theorem unchanged_of_spares {v w : Multiplicador} (ht : Takes w v)
    (hs : Spares w v c r)
    (h : routeFor v ∈ routesAt (content c.proxies) (targetKey v)) :
    content (serve c r).1.proxies (targetKey v)
      = content c.proxies (targetKey v) := by
  have hsame : (serve c r).1.proxies (targetKey v)
      = c.proxies (targetKey v) := by
    have he := serve_effect c r
    generalize (serve c r).1 = c' at he
    cases he with
    | proxy q new hw =>
        by_cases hq : targetKey v = q
        · subst hq
          cases hw with
          | create q o hnone =>
              rw [routesAt, content_of_none hnone] at h
              exact absurd h List.not_mem_nil
          | update q o old hold hver =>
              rw [routesAt, content_of_some hold] at h
              exact absurd h (hs ht rfl old hold hver)
          | delete q old hold => exact absurd h (hs ht rfl)
        · exact write_of_ne hq
    | _ => rfl
  rw [content, hsame]
  rfl

/-- A call of the other one leaves the route where it is. -/
theorem installed_of_other {k : Key} {v w : Multiplicador} {s : Knows}
    (hm : Moved k w c s (serve c r).1 s') (hs : Spares w v c r)
    (hne : (targetKey v, prefixOf v) ≠ (targetKey w, prefixOf w))
    (hj : joins v = true)
    (h : routeFor v ∈ routesAt (content c.proxies) (targetKey v)) :
    routeFor v ∈ routesAt (content (serve c r).1.proxies) (targetKey v) := by
  by_cases ht : Takes w v
  · rw [routesAt, unchanged_of_spares ht hs h]
    exact h
  · cases hm with
    | quiet hs hc =>
        rw [hc]
        exact h
    | read x hst hcr hw hs hc =>
        rw [hc]
        exact h
    | look x hst hd hv hs hc =>
        rw [hc]
        exact h
    | miss hst hd hv hs hc =>
        rw [hc]
        exact h
    | leave x hst hs hc =>
        rw [hc]
        exact installed_departProxies ht hj h
    | find hst hjw hs hc =>
        rw [hc]
        exact h
    | join o m hst hm hs hc =>
        rw [hc]
        exact installed_joinProxies ht hj hne hm h
    | refuse o hst ho hs hc =>
        rw [hc]
        exact h

/-- **ONE CALL** keeps what both have put in. -/
theorem installed_call (h : Joint key u x₀ c g) (hI : Installed u c g)
    (htargets : ∀ i, (targetKey (u !i), prefixOf (u !i))
      ≠ (targetKey (u i), prefixOf (u i)))
    (hr : allowed (g i) r) (hu : Undisturbed (u i) c r)
    (hs : Spares (u i) (u !i) c r) :
    Installed u (serve c r).1
      (Function.update g i (next (g i) r (serve c r).2)) := by
  have hm := moved_of_call (h.tracks i) hr hu
  intro j
  by_cases hj : j = i
  · -- its own call: it has joined before, or it joins now
    subst hj
    rw [Function.update_self]
    intro hst hjoins
    generalize next (g j) r (serve c r).2 = s₁ at hm hst
    cases hm with
    | quiet hs hc =>
        rw [hc]
        exact hI j (hs ▸ hst) hjoins
    | read x hst₀ hcr hw hs hc =>
        rw [hs] at hst
        exact absurd (hst₀.symm.trans hst) (by simp)
    | join o m hst₀ hm hs hc =>
        rw [hc]
        exact installed_self hjoins hm
    | _ =>
        rename_i hs _
        rw [hs] at hst
        exact absurd hst (by simp)
  · obtain rfl : j = !i := eq_not_of_ne hj
    rw [Function.update_of_ne hj]
    intro hst hjoins
    exact installed_of_other hm hs (htargets i) hjoins (hI (!i) hst hjoins)

/-- A worker that begins again has not joined. -/
theorem installed_restart (hI : Installed u c g) (k : Key) (left : Bool) :
    Installed u c (Function.update g i (Knows.fresh k left)) := by
  intro j
  by_cases hj : j = i
  · subst hj
    rw [Function.update_self]
    exact fun hst => absurd hst (by simp [Knows.fresh])
  · rw [Function.update_of_ne hj]
    exact hI j

end Joint

/-! ## Every run -/

section Runs

variable {key : Bool → Key} {u : Bool → Multiplicador} {c₀ : Cluster}
  {P : Pool Bool Req Resp Outcome Noted}

theorem Setup.keys_ne (h : Setup key u c₀) (i : Bool) : key i ≠ key !i := by
  cases i with
  | true => exact h.keys
  | false => exact h.keys.symm

/-- Each worker has taken its key and read nothing yet. -/
theorem joint_start (h : Setup key u c₀) :
    Joint key u (content c₀.proxies) c₀
      (fun i => Knows.fresh (key i) false) where
  wellFormed := h.wellFormed
  tracks i := by
    obtain ⟨w, hw, hwu⟩ := Option.map_eq_some_iff.mp (h.stored i)
    refine tracks_fresh false ⟨w, hw, ?_⟩
    rw [hwu]
    exact ⟨⟨rfl, rfl, rfl, rfl, rfl, rfl, rfl⟩, rfl⟩
  alone _ _ := ⟨by simp [Knows.fresh], by simp [Knows.fresh],
    by simp [Knows.fresh]⟩
  word := .start

/-- A call of one of two workers whose notes say how far they have come. -/
theorem joint_noted {s : Noted} {g : Bool → Knows} {i : Bool} {r : Req}
    (h : Setup key u c₀) (hG : Joint key u (content c₀.proxies) s.cluster g)
    (hnote : ∀ j, s.progress j = progress (g j)) (hr : allowed (g i) r)
    (ho : Orderly u c₀ i s r) :
    Joint key u (content c₀.proxies) (serveNoted u i s r).1.cluster
        (Function.update g i (next (g i) r (serveNoted u i s r).2))
      ∧ ∀ j, (serveNoted u i s r).1.progress j = progress
        (Function.update g i (next (g i) r (serveNoted u i s r).2) j) := by
  have hnext := note_eq (hG.tracks i) hr (serve s.cluster r).2
  have hnote' : ∀ j, (serveNoted u i s r).1.progress j = progress
      (Function.update g i (next (g i) r (serve s.cluster r).2) j) := by
    refine forall_of_pair (i := i) ?_ ?_
    · rw [Function.update_self, ← hnext, ← hnote i]
      exact Function.update_self _ _ _
    · rw [Function.update_of_ne (by cases i <;> simp), ← hnote !i]
      exact update_other _
  refine ⟨joint_call h.keys_ne hG hr ho.1 ?_, hnote'⟩
  intro hboth
  exact ho.2 fun j => (hnote' j).trans (hboth j)

/-- **BOTH WORKERS**, in every state that they can reach, with whatever else
    their calls keep. -/
theorem joint_of_reaches (h : Setup key u c₀)
    {ok : Bool → Noted → Req → Prop} {J : Cluster → (Bool → Knows) → Prop}
    (hok : ∀ i s r, ok i s r → Orderly u c₀ i s r)
    (hstart : J c₀ fun i => Knows.fresh (key i) false)
    (hcall : ∀ s g i r, Joint key u (content c₀.proxies) s.cluster g →
      J s.cluster g → allowed (g i) r → ok i s r →
      J (serve s.cluster r).1
        (Function.update g i (next (g i) r (serve s.cluster r).2)))
    (hrestart : ∀ c g i left, J c g →
      J c (Function.update g i (Knows.fresh (key i) left)))
    (hrun : Reaches (rules key u ok) (atWork key c₀) P) :
    ∃ g, Joint key u (content c₀.proxies) P.store.cluster g
      ∧ J P.store.cluster g
      ∧ ∀ i, Obeys present (P.prog i) (g i)
        (fun s o => Ends s o ∧ s.cr ≠ none) := by
  have hK : WorkerPool.Keeps (rules key u ok) present
      (fun s g => (Joint key u (content c₀.proxies) s.cluster g
        ∧ ∀ j, s.progress j = progress (g j)) ∧ J s.cluster g)
      (fun _ s o => Ends s o ∧ s.cr ≠ none) := by
    refine ⟨?_, ?_, ?_⟩
    · rintro s g i r s' x ⟨⟨hG, hnote⟩, hJ⟩ hr ⟨ho, rfl, rfl⟩
      exact ⟨found_serve hG.wellFormed (hG.tracks i) hr,
        joint_noted h hG hnote hr (hok i s r ho), hcall s g i r hG hJ hr ho⟩
    · rintro s g s' hG henv
      exact absurd henv (by simp [rules])
    · rintro s g i o p ⟨⟨hG, hnote⟩, hJ⟩ ⟨hend, -⟩ ⟨⟨e, rfl⟩, rfl⟩
      refine ⟨_, ⟨⟨joint_restart hG hend, ?_⟩, hrestart _ g i _ hJ⟩,
        obeys_present _ _⟩
      -- taking a key up again is no move
      have hne : (g i).stage ≠ .joined := by
        rcases hend.1 with hst | hst <;> simp [hst]
      refine forall_of_pair (i := i) ?_ ?_
      · rw [Function.update_self, hnote i, progress_of_ne hne]
        rfl
      · rw [Function.update_of_ne (by cases i <;> simp), hnote !i]
  obtain ⟨g, ⟨⟨hG, -⟩, hJ⟩, hobey⟩ := fits_of_reaches hK hrun
    ⟨_, ⟨⟨joint_start h, fun _ => rfl⟩, hstart⟩,
      fun i => obeys_present (key i) false⟩
  exact ⟨g, hG, hJ, hobey⟩

/-- One reconcile after the other, move by move. -/
theorem serial_eq (h : Setup key u c₀) (i : Bool) :
    content (reconcileNow (reconcileNow c₀ (key i)) (key !i)).proxies
      = serial (party u) (content c₀.proxies) i := by
  obtain ⟨v, hv, hvu⟩ := Option.map_eq_some_iff.mp (h.stored i)
  obtain ⟨w, hw, hwu⟩ := Option.map_eq_some_iff.mp (h.stored !i)
  have hw' : (reconcileNow c₀ (key i)).crs (key !i) = some w := by
    rw [reconcileNow_crs_of_ne h.wellFormed (h.keys_ne i).symm]
    exact hw
  rw [reconcileNow_proxies hw', reconcileNow_proxies hv, hvu, hwu,
    proxiesAfter_eq, proxiesAfter_eq]
  rfl

theorem Setup.targets_ne (h : Setup key u c₀) (i : Bool) :
    (targetKey (u !i), prefixOf (u !i))
      ≠ (targetKey (u i), prefixOf (u i)) := by
  cases i with
  | true => exact h.targets.symm
  | false => exact h.targets

/-- When both have returned nil, all their moves have been made. -/
theorem word_of_nil {g : Bool → Knows}
    (hG : Joint key u (content c₀.proxies) P.store.cluster g)
    (hobey : ∀ i, Obeys present (P.prog i) (g i)
      (fun s o => Ends s o ∧ s.cr ≠ none))
    (hnil : ∀ i, P.prog i = .ret .nil) :
    Trail u (content c₀.proxies) (fun _ => .joined)
      (content P.store.cluster.proxies) := by
  have hend : ∀ i, Ends (g i) .nil ∧ (g i).cr ≠ none := by
    intro i
    have hi := hobey i
    rw [hnil i] at hi
    exact hi
  have h₁ := word_of_ends hG (hend true).1 (hend true).2 rfl hG.word
  have h₂ := word_of_ends hG (hend false).1 (hend false).2
    (Function.update_of_ne (by simp) _ _) h₁
  have hall : Function.update (Function.update
      (fun j => progress (g j)) true .joined) false Progress.joined
      = fun _ => .joined := by
    funext j
    cases j with
    | true => rfl
    | false => rfl
  rwa [hall] at h₂

/-- A worker that was to join and has returned nil has joined. -/
theorem joined_of_nil {g : Bool → Knows} {i : Bool}
    (hG : Joint key u (content c₀.proxies) P.store.cluster g)
    (hobey : Obeys present (P.prog i) (g i)
      (fun s o => Ends s o ∧ s.cr ≠ none))
    (hnil : P.prog i = .ret .nil) (hj : joins (u i) = true) :
    (g i).stage = .joined := by
  rw [hnil] at hobey
  obtain ⟨hend, hcr⟩ := hobey
  obtain ⟨w, hw, -, hjoins, -⟩ := hend.resolve_left hcr
  exact hjoins (((hG.tracks i).of_cr hw).joins.trans hj)

/-- **TWO WORKERS SERIALISE**: in every run of two workers whose calls are
    orderly, when both have returned nil the proxies are, up to the order of
    owners and routes, those of one reconcile after the other, and under the
    prefix that each has taken out there is nothing but what the other one has
    put in.  If besides no write takes the route of the other one out, what
    each has put in is there. -/
theorem serialised_of_runs (h : Setup key u c₀)
    (hnil : ∀ i, P.prog i = .ret .nil) :
    (Reaches (rules key u (Orderly u c₀)) (atWork key c₀) P →
        InOrder key c₀ P.store.cluster
          ∧ ∀ i, TakenOut u i (content P.store.cluster.proxies))
      ∧ (Reaches (rules key u fun i s r => Orderly u c₀ i s r
          ∧ Spares (u i) (u !i) s.cluster r) (atWork key c₀) P →
        Serialised key u c₀ P.store.cluster) := by
  have hboth : ∀ g, Joint key u (content c₀.proxies) P.store.cluster g →
      (∀ i, Obeys present (P.prog i) (g i)
        (fun s o => Ends s o ∧ s.cr ≠ none)) →
      InOrder key c₀ P.store.cluster
        ∧ ∀ i, TakenOut u i (content P.store.cluster.proxies) := by
    intro g hG hobey
    have hword := word_of_nil hG hobey hnil
    obtain ⟨i, hi⟩ := alike_serial h.uids hword
    exact ⟨⟨i, by rwa [serial_eq h i]⟩,
      fun i => takenOut_of_word hword i (Or.inl rfl)⟩
  constructor
  · intro hrun
    obtain ⟨g, hG, -, hobey⟩ := joint_of_reaches (J := fun _ _ => True) h
      (fun _ _ _ ho => ho) trivial (fun _ _ _ _ _ _ _ _ => trivial)
      (fun _ _ _ _ _ => trivial) hrun
    exact hboth g hG hobey
  · intro hrun
    obtain ⟨g, hG, hI, hobey⟩ := joint_of_reaches (J := Installed u) h
      (fun _ _ _ ho => ho.1)
      (fun _ hst => absurd hst (by simp [Knows.fresh]))
      (fun _ _ _ _ hG hI hr ho =>
        installed_call hG hI h.targets_ne hr ho.1.1 ho.2)
      (fun _ _ _ _ hI => installed_restart hI _ _) hrun
    obtain ⟨horder, hgone⟩ := hboth g hG hobey
    refine ⟨horder, fun i hj => ?_, hgone⟩
    exact hI i (joined_of_nil hG (hobey i) (hnil i) hj) hj

end Runs

/-! ## Schedules -/

/-- Worker `i` makes its next `n` calls. -/
def turn (u : Bool → Multiplicador) (P : Pool Bool Req Resp Outcome Noted)
    (i : Bool) (n : Nat) : Pool Bool Req Resp Outcome Noted :=
  P.calls (serveNoted u i) i n

/-- Worker `i` takes its key up again. -/
def retry (key : Bool → Key) (P : Pool Bool Req Resp Outcome Noted)
    (i : Bool) : Pool Bool Req Resp Outcome Noted :=
  ⟨P.store, Function.update P.prog i (reconcileKey (key i))⟩

section Schedules

variable {key : Bool → Key} {u : Bool → Multiplicador}
  {ok : Bool → Noted → Req → Prop}

/-- The calls of a turn are a run if they may all be made. -/
theorem reaches_turn {test : Noted → Req → Bool} {i : Bool}
    (hok : ∀ s r, test s r = true → ok i s r)
    (P : Pool Bool Req Resp Outcome Noted) (n : Nat)
    (h : (P.prog i).passes (serveNoted u i) test n P.store = true) :
    Reaches (rules key u ok) P (turn u P i n) :=
  reaches_passing (R := rules key u ok)
    (fun s r hr => ⟨hok s r hr, rfl, rfl⟩) P n h

/-- So they are if every call may be made. -/
theorem reaches_turn_any {i : Bool} (hok : ∀ s r, ok i s r)
    (P : Pool Bool Req Resp Outcome Noted) (n : Nat) :
    Reaches (rules key u ok) P (turn u P i n) :=
  reaches_calls (R := rules key u ok) (fun s r => ⟨hok s r, rfl, rfl⟩) P n

theorem reaches_retry {P : Pool Bool Req Resp Outcome Noted} {i : Bool}
    {e : GoError} (h : P.prog i = .ret (.error e)) :
    Reaches (rules key u ok) P (retry key P i) :=
  .single (.start i _ _ h ⟨⟨e, rfl⟩, rfl⟩)

end Schedules

/-! ## A delete that comes too late -/

/-- The worker of `web` and the worker of `api`. -/
def webAndApi (i : Bool) : Key :=
  if i then ("default", "web") else ("default", "api")

/-- `web` is served alone by its proxy and is being deleted; `api` is new and
    asks for the same host. -/
def leavingAndNew (i : Bool) : Multiplicador :=
  if i then { newCR "web" "a.com" "x" with
    deletionTimestamp := some "2024-01-01T00:00:00Z"
    annotations := some [(annProxy, "vhost-a-com"), (annProxyRoute, "/x")]
    finalizers := [finalizerName] }
  else newCR "api" "a.com" "y"

/-- The cluster with these two and the proxy of `web`. -/
def sharedSoon : Cluster :=
  clusterOf [(webAndApi true, ⟨leavingAndNew true, 1⟩),
      (webAndApi false, ⟨leavingAndNew false, 2⟩)] []
    [(("default", "vhost-a-com"), ⟨newProxy (leavingAndNew true), 3⟩)] 3

theorem setup_sharedSoon : Setup webAndApi leavingAndNew sharedSoon := by
  refine ⟨?_, ?_, rfl, by decide, by decide, by decide +kernel⟩
  · exact wellFormed_clusterOf (by decide) (by decide) (by decide)
  · intro i
    cases i with
    | true => rfl
    | false => rfl

/-- `web` reads its CR and its proxy, and finds itself alone there; `api` is
    reconciled from its first call to its last; then `web` goes on and deletes
    the proxy, which serves `api` by now. -/
def deletedLate : Pool Bool Req Resp Outcome Noted :=
  turn leavingAndNew (turn leavingAndNew (turn leavingAndNew
    (atWork webAndApi sharedSoon) true 2) false 20) true 20

/-- Two workers need not serialise: the delete carries no precondition. -/
theorem not_serialised_deletedLate :
    ¬ ∀ (key : Bool → Key) (u : Bool → Multiplicador) (c₀ : Cluster)
      (P : Pool Bool Req Resp Outcome Noted), Setup key u c₀ →
      Reaches (rules key u fun _ _ _ => True) (atWork key c₀) P →
      (∀ i, P.prog i = .ret .nil) → Serialised key u c₀ P.store.cluster := by
  intro h
  have hrun : Reaches (rules webAndApi leavingAndNew fun _ _ _ => True)
      (atWork webAndApi sharedSoon) deletedLate :=
    ((reaches_turn_any (fun _ _ => trivial) _ 2).trans
      (reaches_turn_any (fun _ _ => trivial) _ 20)).trans
        (reaches_turn_any (fun _ _ => trivial) _ 20)
  have hnil : ∀ i, deletedLate.prog i = .ret .nil := by
    intro i
    cases i with
    | true => exact congrArg Prog.ret (by decide +kernel)
    | false => exact congrArg Prog.ret (by decide +kernel)
  obtain ⟨i, hi⟩ := (h _ _ _ _ setup_sharedSoon hrun hnil).order
  -- the proxy is gone, which is so in neither order
  have hgone : content deletedLate.store.cluster.proxies
      ("default", "vhost-a-com") = none := by
    have hnone : (content deletedLate.store.cluster.proxies
        ("default", "vhost-a-com")).isNone = true := by decide +kernel
    exact Option.isNone_iff_eq_none.mp hnone
  have hthere : ∀ i, (content (reconcileNow (reconcileNow sharedSoon
      (webAndApi i)) (webAndApi !i)).proxies
      ("default", "vhost-a-com")).isSome = true := by
    decide +kernel
  have hsome := hthere i
  rw [(hi ("default", "vhost-a-com")).gone.mp hgone] at hsome
  exact absurd hsome (by simp)

/-! ## A prefix that changes hands -/

/-- A test of the calls of `u` beside `w`: an update finds the version that was
    read and no route of `w`, and a delete finds nothing but what `u` leaves
    behind, and no route of `w`. -/
def gentle (u w : Multiplicador) (c : Cluster) : Req → Bool
  | .updateProxy q o =>
      match c.proxies q with
      | none => true
      | some v => decide (v.version = o.version)
          && decide (routeFor w ∉ routesOf v.obj)
  | .deleteProxy q =>
      (leaveContent u.uid (prevRoute u) (content c.proxies q)).isNone
        && decide (routeFor w ∉ routesAt (content c.proxies) q)
  | _ => true

/-- A call that passes neither is disturbed nor takes a route out. -/
theorem undisturbed_of_gentle {u w : Multiplicador} {c : Cluster} {r : Req}
    (h : gentle u w c r = true) : Undisturbed u c r ∧ Spares u w c r := by
  cases r with
  | updateProxy q o =>
      have hfind : ∀ v, c.proxies q = some v →
          v.version = o.version ∧ routeFor w ∉ routesOf v.obj := by
        intro v hv
        simpa [gentle, hv] using h
      exact ⟨fun _ _ v hv => Or.inl (hfind v hv).1,
        fun _ _ v hv _ => (hfind v hv).2⟩
  | deleteProxy q =>
      obtain ⟨hgone, hno⟩ := Bool.and_eq_true_iff.mp h
      exact ⟨fun _ _ => Option.isNone_iff_eq_none.mp hgone,
        fun _ _ => of_decide_eq_true hno⟩
  | _ => exact ⟨trivial, trivial⟩

/-- `web` moves from a.com/x to b.com/w, and `api` from b.com/y to a.com/x: each
    moves to the proxy that the other one leaves, and `api` asks for the prefix
    that `web` gives up. -/
def changingPlaces (i : Bool) : Multiplicador :=
  if i then { newCR "web" "b.com" "w" with
    annotations := some [(annProxy, "vhost-a-com"), (annProxyRoute, "/x")]
    finalizers := [finalizerName] }
  else { newCR "api" "a.com" "x" with
    annotations := some [(annProxy, "vhost-b-com"), (annProxyRoute, "/y")]
    finalizers := [finalizerName] }

/-- The proxy of a.com serves `docs`, too. -/
def sharedWithDocs : Fields :=
  (mergeContent (newCR "web" "a.com" "x")
    (some (newProxy (newCR "docs" "a.com" "d")))).getD []

/-- The cluster with these two and the proxies that serve them. -/
def bothServed : Cluster :=
  clusterOf [(webAndApi true, ⟨changingPlaces true, 1⟩),
      (webAndApi false, ⟨changingPlaces false, 2⟩)] []
    [(("default", "vhost-a-com"), ⟨sharedWithDocs, 3⟩),
      (("default", "vhost-b-com"), ⟨newProxy (newCR "api" "b.com" "y"), 4⟩)] 4

theorem setup_bothServed : Setup webAndApi changingPlaces bothServed := by
  refine ⟨?_, ?_, rfl, by decide, by decide, by decide +kernel⟩
  · exact wellFormed_clusterOf (by decide) (by decide) (by decide)
  · intro i
    cases i with
    | true => rfl
    | false => rfl

/-- `web` leaves a.com and reads the proxy of b.com; `api` leaves b.com and
    deletes that proxy; so the write of `web` is refused. -/
def refusedMerge : Pool Bool Req Resp Outcome Noted :=
  turn changingPlaces (turn changingPlaces (turn changingPlaces
    (atWork webAndApi bothServed) true 11) false 10) true 1

/-- `web` begins again and gets as far as leaving a.com once more, `api` is
    merged into the proxy of a.com, and `web` creates the one of b.com. -/
def changedPlaces : Pool Bool Req Resp Outcome Noted :=
  turn changingPlaces (turn changingPlaces (turn changingPlaces
    (retry webAndApi refusedMerge true) true 6) false 10) true 10

/-- `api` would be free to join before `web` leaves but for the prefix. -/
theorem crossesWell_bothServed :
    CrossesWell changingPlaces (content bothServed.proxies) := by
  refine ⟨false, Or.inr (by decide +kernel), ?_, Or.inr ?_⟩
  · intro x hx _
    obtain rfl := Option.some.inj hx
    exact ⟨by decide +kernel, Or.inl (by decide +kernel)⟩
  · intro x hx hdel
    obtain rfl := Option.some.inj hx
    exact absurd hdel (by decide +kernel)

/-- Both leave before either joins, a write is refused, a prefix changes hands,
    and nothing is lost. -/
theorem serialised_changedPlaces :
    (∀ i, Enters (changingPlaces i) (changingPlaces !i))
      ∧ Takes (changingPlaces true) (changingPlaces false)
      ∧ Serialised webAndApi changingPlaces bothServed
        changedPlaces.store.cluster := by
  refine ⟨?_, ⟨by decide +kernel, by decide +kernel, by decide +kernel,
    by decide +kernel⟩, ?_⟩
  · intro i
    cases i with
    | true => exact ⟨by decide +kernel, by decide +kernel, by decide +kernel⟩
    | false => exact ⟨by decide +kernel, by decide +kernel, by decide +kernel⟩
  have hturn : ∀ (P : Pool Bool Req Resp Outcome Noted) (i : Bool) (n : Nat),
      (P.prog i).passes (serveNoted changingPlaces i) (fun s =>
        gentle (changingPlaces i) (changingPlaces !i) s.cluster) n P.store
          = true →
      Reaches (rules webAndApi changingPlaces fun i s r =>
        Orderly changingPlaces bothServed i s r
          ∧ Spares (changingPlaces i) (changingPlaces !i) s.cluster r)
        P (turn changingPlaces P i n) := by
    intro P i n h
    refine reaches_turn (fun s r hr => ?_) P n h
    obtain ⟨hu, hs⟩ := undisturbed_of_gentle hr
    exact ⟨⟨hu, fun _ _ => crossesWell_bothServed⟩, hs⟩
  have hrefused : ∃ e, refusedMerge.prog true = .ret (.error e) := by
    refine ⟨.wrap "ensure service/proxy: " (.wrap "update httpproxy: "
      (.api (.refused .notFound))), congrArg Prog.ret ?_⟩
    decide +kernel
  obtain ⟨e, he⟩ := hrefused
  have hrun₁ := ((hturn (atWork webAndApi bothServed) true 11
    (by decide +kernel)).trans (hturn _ false 10 (by decide +kernel))).trans
      (hturn _ true 1 (by decide +kernel))
  have hrun₂ := ((hturn (retry webAndApi refusedMerge true) true 6
    (by decide +kernel)).trans (hturn _ false 10 (by decide +kernel))).trans
      (hturn _ true 10 (by decide +kernel))
  have hnil : ∀ i, changedPlaces.prog i = .ret .nil := by
    intro i
    cases i with
    | true => exact congrArg Prog.ret (by decide +kernel)
    | false => exact congrArg Prog.ret (by decide +kernel)
  exact (serialised_of_runs setup_bothServed hnil).2
    ((hrun₁.trans (reaches_retry he)).trans hrun₂)

end SerialWorkers
