import KubernetesUpRunning.Reconcile

/-! # What one call can do to the cluster

    The inversion of `serve`: a call leaves the cluster as it is or writes one
    object.  With the moves of everybody else, this is all an invariant of the
    cluster is checked against. -/

namespace ServerSteps

open ApiServer CallProgram GoJson KubeObjects Reconcile VersionedStore

/-- `r` is an update of the CR at `k`, computed from the stored `old`. -/
structure CRUpdate (c : Cluster) (r : Req) (k : Key)
    (w old : Versioned Multiplicador) (new : Option Multiplicador) :
    Prop where
  req : (r = .updateCR k w ∧ new = admitCR w.obj old.obj)
    ∨ (r = .updateStatusCR k w ∧ new = admitStatus w.obj old.obj)
  stored : c.crs k = some old
  version : old.version = w.version

/-- `r` is a write of the HTTPProxy at `k`, which becomes `new`. -/
inductive ProxyWrite (c : Cluster) :
    Req → Key → Option Fields → Prop where
  | create (k : Key) (o : Fields) (h : c.proxies k = none) :
      ProxyWrite c (.createProxy k o) k (some o)
  | update (k : Key) (o old : Versioned Fields)
      (h : c.proxies k = some old) (hv : old.version = o.version) :
      ProxyWrite c (.updateProxy k o) k (some o.obj)
  | delete (k : Key) (old : Versioned Fields) (h : c.proxies k = some old) :
      ProxyWrite c (.deleteProxy k) k none

/-- What a call can leave. -/
inductive Effect (c : Cluster) (r : Req) : Cluster → Prop where
  | nothing : Effect c r c
  | cr (k : Key) (w old : Versioned Multiplicador)
      (new : Option Multiplicador) (h : CRUpdate c r k w old new) :
      Effect c r (c.putCRs (write c.crs c.rev k new))
  | deployment (k : Key) (new : Option Deployment) :
      Effect c r (c.putDeployments (write c.deployments c.rev k new))
  | service (k : Key) (new : Option Service) :
      Effect c r (c.putServices (write c.services c.rev k new))
  | proxy (k : Key) (new : Option Fields) (h : ProxyWrite c r k new) :
      Effect c r (c.putProxies (write c.proxies c.rev k new))

/-- A refused write leaves everything. -/
theorem effect_wrote {α : Type} {c : Cluster} {r : Req}
    {put : Store Key α × Nat → Cluster}
    {res : Except Refusal (Store Key α × Nat)}
    (h : ∀ s, res = .ok s → Effect c r (put s)) :
    Effect c r (wrote c put res).1 := by
  cases res with
  | error e => exact .nothing
  | ok s => exact h s rfl

/-- **WHAT A CALL DOES**: nothing, or one write. -/
theorem serve_effect (c : Cluster) (r : Req) : Effect c r (serve c r).1 := by
  cases r with
  | getCR k => exact .nothing
  | getDeployment k => exact .nothing
  | getService k => exact .nothing
  | getProxy k => exact .nothing
  | updateCR k w =>
      refine effect_wrote fun s hs => ?_
      obtain ⟨old, hk, hver, rfl⟩ := update_ok hs
      exact .cr k w old _ ⟨Or.inl ⟨rfl, rfl⟩, hk, hver⟩
  | updateStatusCR k w =>
      refine effect_wrote fun s hs => ?_
      obtain ⟨old, hk, hver, rfl⟩ := update_ok hs
      exact .cr k w old _ ⟨Or.inr ⟨rfl, rfl⟩, hk, hver⟩
  | createDeployment k d =>
      refine effect_wrote fun s hs => ?_
      obtain ⟨-, rfl⟩ := create_ok hs
      exact .deployment k _
  | updateDeployment k d =>
      refine effect_wrote fun s hs => ?_
      obtain ⟨old, -, -, rfl⟩ := update_ok hs
      exact .deployment k _
  | createService k s =>
      refine effect_wrote fun s hs => ?_
      obtain ⟨-, rfl⟩ := create_ok hs
      exact .service k _
  | updateService k s =>
      refine effect_wrote fun s hs => ?_
      obtain ⟨old, -, -, rfl⟩ := update_ok hs
      exact .service k _
  | createProxy k o =>
      refine effect_wrote fun s hs => ?_
      obtain ⟨hk, rfl⟩ := create_ok hs
      exact .proxy k _ (.create k o hk)
  | updateProxy k o =>
      refine effect_wrote fun s hs => ?_
      obtain ⟨old, hk, hver, rfl⟩ := update_ok hs
      exact .proxy k _ (.update k o old hk hver)
  | deleteProxy k =>
      refine effect_wrote fun s hs => ?_
      obtain ⟨⟨old, hk⟩, rfl⟩ := delete_ok hs
      exact .proxy k _ (.delete k old hk)

/-! ## Versions -/

/-- The CRs and the HTTPProxies have moved on. -/
structure Later (c c' : Cluster) : Prop where
  crs : Advances c.crs c.rev c'.crs c'.rev
  proxies : Advances c.proxies c.rev c'.proxies c'.rev

theorem Later.refl (c : Cluster) : Later c c :=
  ⟨Advances.refl _ (Nat.le_refl _), Advances.refl _ (Nat.le_refl _)⟩

theorem later_putCRs (c : Cluster) (k : Key) (new : Option Multiplicador) :
    Later c (c.putCRs (write c.crs c.rev k new)) :=
  ⟨advances_write c.crs c.rev k new,
    Advances.refl _ (advances_write c.crs c.rev k new).le⟩

theorem later_putProxies (c : Cluster) (k : Key) (new : Option Fields) :
    Later c (c.putProxies (write c.proxies c.rev k new)) :=
  ⟨Advances.refl _ (advances_write c.proxies c.rev k new).le,
    advances_write c.proxies c.rev k new⟩

theorem Effect.later {c c' : Cluster} {r : Req} (h : Effect c r c') :
    Later c c' := by
  cases h with
  | nothing => exact Later.refl c
  | cr k w old new h => exact later_putCRs c k new
  | deployment k new =>
      have h := (advances_write c.deployments c.rev k new).le
      exact ⟨Advances.refl _ h, Advances.refl _ h⟩
  | service k new =>
      have h := (advances_write c.services c.rev k new).le
      exact ⟨Advances.refl _ h, Advances.refl _ h⟩
  | proxy k new h => exact later_putProxies c k new

theorem later_createCR (c : Cluster) (k : Key) (u : Multiplicador) :
    Later c (createCR c k u) := by
  rw [createCR]
  cases h : create c.crs c.rev k u with
  | error e => exact Later.refl c
  | ok r =>
      obtain ⟨-, rfl⟩ := create_ok h
      exact later_putCRs c k _

theorem later_editCR (c : Cluster) (k : Key)
    (f : Multiplicador → Multiplicador) : Later c (editCR c k f) := by
  rw [editCR]
  split
  · exact later_putCRs c k _
  · exact Later.refl c

theorem later_deleteCR (c : Cluster) (k : Key) (now : String) :
    Later c (deleteCR c k now) := by
  rw [deleteCR]
  split
  · exact Later.refl c
  · split <;> exact later_putCRs c k _

theorem later_collectProxy (c : Cluster) (k : Key) :
    Later c (collectProxy c k) := by
  rw [collectProxy]
  split
  · exact Later.refl c
  · split
    · exact Later.refl c
    · split <;> exact later_putProxies c k _

/-! ## Names -/

/-- What the server sees to: a CR carries the key it is stored under, neither
    part of it is empty, and one that is being deleted waits for a finalizer.
    -/
structure Stored (k : Key) (u : Multiplicador) : Prop where
  ns : u.ns = k.1
  name : u.name = k.2
  nonempty : k.1 ≠ ""
  named : k.2 ≠ ""
  waits : u.deletionTimestamp.isSome → u.finalizers ≠ []

instance (k : Key) (u : Multiplicador) : Decidable (Stored k u) :=
  decidable_of_iff (u.ns = k.1 ∧ u.name = k.2 ∧ k.1 ≠ "" ∧ k.2 ≠ ""
      ∧ (u.deletionTimestamp.isSome → u.finalizers ≠ []))
    ⟨fun ⟨hns, hname, hne, hnamed, hwaits⟩ => ⟨hns, hname, hne, hnamed, hwaits⟩,
      fun h => ⟨h.ns, h.name, h.nonempty, h.named, h.waits⟩⟩

theorem Stored.nsOf {k : Key} {u : Multiplicador} (h : Stored k u) :
    nsOf u = k.1 := by
  simp [Reconcile.nsOf, h.ns, h.nonempty]

/-- The key that the operator computes from the CR. -/
theorem Stored.key {k : Key} {u : Multiplicador} (h : Stored k u) :
    (Reconcile.nsOf u, u.name) = k := by
  rw [h.nsOf, h.name]

/-! ## One key at a time -/

theorem createCR_crs_of_ne {c : Cluster} {k k' : Key} {u : Multiplicador}
    (hk : k' ≠ k) : (createCR c k u).crs k' = c.crs k' := by
  rw [createCR]
  cases hc : create c.crs c.rev k u with
  | error e => rfl
  | ok r =>
      obtain ⟨-, rfl⟩ := create_ok hc
      exact write_of_ne hk

theorem editCR_crs_of_ne {c : Cluster} {k k' : Key}
    {f : Multiplicador → Multiplicador} (hk : k' ≠ k) :
    (editCR c k f).crs k' = c.crs k' := by
  rw [editCR]
  split
  · exact write_of_ne hk
  · rfl

theorem deleteCR_crs_of_ne {c : Cluster} {k k' : Key} {now : String}
    (hk : k' ≠ k) : (deleteCR c k now).crs k' = c.crs k' := by
  rw [deleteCR]
  split
  · rfl
  · split
    · exact write_of_ne hk
    · exact write_of_ne hk

/-- What is true of the objects of every cluster. -/
structure WellFormed (c : Cluster) : Prop where
  stored : Holds Stored c.crs
  crs : Bounded c.crs c.rev
  proxies : Bounded c.proxies c.rev

theorem stored_admitCR {k : Key} {w old new : Multiplicador}
    (h : Stored k old) (ha : admitCR w old = some new) : Stored k new := by
  rw [admitCR] at ha
  split at ha
  · exact absurd ha (by simp)
  · rename_i hgo
    rw [← Option.some.inj ha]
    exact ⟨h.ns, h.name, h.nonempty, h.named, fun hd hf => hgo ⟨hd, hf⟩⟩

theorem WellFormed.later {c c' : Cluster} (h : WellFormed c)
    (hl : Later c c') (hn : Holds Stored c'.crs) : WellFormed c' :=
  ⟨hn, h.crs.advance hl.crs, h.proxies.advance hl.proxies⟩

theorem Effect.wellFormed {c c' : Cluster} {r : Req} (he : Effect c r c')
    (h : WellFormed c) : WellFormed c' := by
  refine h.later he.later ?_
  cases he with
  | nothing => exact h.stored
  | deployment k new => exact h.stored
  | service k new => exact h.stored
  | proxy k new hp => exact h.stored
  | cr k w old new hu =>
      refine holds_write h.stored ?_
      intro x hx
      have hold := h.stored k old hu.stored
      rcases hu.req with ⟨-, hnew⟩ | ⟨-, hnew⟩
      · exact stored_admitCR hold (hnew.symm.trans hx)
      · have hx' := Option.some.inj (hnew.symm.trans hx)
        rw [← hx']
        exact ⟨hold.ns, hold.name, hold.nonempty, hold.named, hold.waits⟩

theorem wellFormed_createCR {c : Cluster} (h : WellFormed c) {k : Key}
    {u : Multiplicador} (hu : Stored k u) : WellFormed (createCR c k u) := by
  refine h.later (later_createCR c k u) ?_
  rw [createCR]
  cases hc : create c.crs c.rev k u with
  | error e => exact h.stored
  | ok r =>
      obtain ⟨-, rfl⟩ := create_ok hc
      refine holds_write h.stored ?_
      intro x hx
      rw [← Option.some.inj hx]
      exact hu

theorem wellFormed_editCR {c : Cluster} (h : WellFormed c) (k : Key)
    (f : Multiplicador → Multiplicador) : WellFormed (editCR c k f) := by
  refine h.later (later_editCR c k f) ?_
  rw [editCR]
  split
  · rename_i v hv
    exact holds_write h.stored fun x hx => stored_admitCR (h.stored k v hv) hx
  · exact h.stored

theorem wellFormed_deleteCR {c : Cluster} (h : WellFormed c) (k : Key)
    (now : String) : WellFormed (deleteCR c k now) := by
  refine h.later (later_deleteCR c k now) ?_
  rw [deleteCR]
  split
  · exact h.stored
  · rename_i v hv
    have hn := h.stored k v hv
    split
    · exact holds_write h.stored fun x hx => absurd hx (by simp)
    · rename_i hfin
      refine holds_write h.stored fun x hx => ?_
      rw [← Option.some.inj hx]
      exact ⟨hn.ns, hn.name, hn.nonempty, hn.named, fun _ => hfin⟩

theorem collectProxy_crs (c : Cluster) (k : Key) :
    (collectProxy c k).crs = c.crs := by
  rw [collectProxy]
  split
  · rfl
  · split
    · rfl
    · split <;> rfl

theorem wellFormed_collectProxy {c : Cluster} (h : WellFormed c) (k : Key) :
    WellFormed (collectProxy c k) := by
  refine h.later (later_collectProxy c k) ?_
  rw [collectProxy_crs]
  exact h.stored

end ServerSteps
