import KubernetesUpRunning.Conduct
import KubernetesUpRunning.ProxyShape
import KubernetesUpRunning.ServerSteps
import Mathlib.Logic.Relation

/-! # Runs of complete reconciles

    The world in which reconciles do not overlap: users create, edit and delete
    CRs, the garbage collector runs, and a worker fetches a CR and reconciles
    it to the end.  `Sound` is what holds of every state of every run that
    starts without HTTPProxies. -/

namespace ClusterRuns

open ApiServer CallProgram Conduct GoJson KubeObjects ProxyShape Reconcile
open ReconcileEffect ReconcileRun ServerSteps VersionedStore

/-! ## A complete reconcile -/

/-- Fetch the CR at `k` and reconcile it, nobody else calling in between. -/
def reconcileNow (c : Cluster) (k : Key) : Cluster :=
  ((reconcileKey k).run serve c).1

/-- What that reconcile returns. -/
def outcomeOf (c : Cluster) (k : Key) : Outcome :=
  ((reconcileKey k).run serve c).2

section Reconcile

variable {c : Cluster} {k : Key} {u : Versioned Multiplicador}

theorem run_reconcileKey_of_none (h : c.crs k = none) :
    (reconcileKey k).run serve c = (c, .nil) := by
  rw [reconcileKey, ask]
  simp [serve, got, h]

theorem run_reconcileKey_of_some (h : c.crs k = some u) :
    (reconcileKey k).run serve c = (reconcileOne u).run serve c := by
  rw [reconcileKey, ask]
  simp [serve, got, h]

/-- Without a CR nothing happens. -/
theorem reconcileNow_of_none (h : c.crs k = none) : reconcileNow c k = c := by
  rw [reconcileNow, run_reconcileKey_of_none h]

theorem reconcileNow_proxies (h : c.crs k = some u) :
    content (reconcileNow c k).proxies
      = proxiesAfter u.obj (content c.proxies) := by
  rw [reconcileNow, run_reconcileKey_of_some h]
  exact reconcileOne_proxies u c

theorem wellFormed_reconcileNow (h : WellFormed c) :
    WellFormed (reconcileNow c k) :=
  Prog.run_keeps serve (fun s r hs => (serve_effect s r).wellFormed hs) _ c h

/-- A reconcile writes no CR but its own. -/
theorem reconcileNow_crs_of_ne {k' : Key} (h : WellFormed c) (hk : k' ≠ k) :
    (reconcileNow c k).crs k' = c.crs k' := by
  let G : Cluster → Knows → Prop := fun st s =>
    s.key = k ∧ WellFormed st ∧ st.crs k' = c.crs k'
  have hstep : ∀ st s r, G st s → conduct.allowed s r →
      conduct.answers s r (serve st r).2
        ∧ G (serve st r).1 (conduct.next s r (serve st r).2) := by
    intro st s r hG hr
    obtain ⟨hkey, hwf, hcrs⟩ := hG
    have he := serve_effect st r
    refine ⟨answers_serve hwf s r, ?_, he.wellFormed hwf, ?_⟩
    · exact (next_key s r _).trans hkey
    · rw [← hcrs]
      exact crs_of_allowed he hr (hkey ▸ hk)
  have hfresh : G c (Knows.fresh k false) := ⟨rfl, h, rfl⟩
  obtain ⟨s', hG, -⟩ := run_of_obeys hstep hfresh (obeys_reconcileKey k false)
  exact hG.2.2

/-- The CR after its own reconcile. -/
theorem reconcileNow_cr (h : WellFormed c) (hk : c.crs k = some u) :
    content (reconcileNow c k).crs k
      = crNext u.obj (content c.deployments (k.1, deplNameOf k.2))
          (content c.proxies) := by
  have hn := h.stored k u hk
  rw [reconcileNow, run_reconcileKey_of_some hk]
  have hget : c.crs (nsOf u.obj, u.obj.name) = some u := by
    rw [hn.key]
    exact hk
  have hmain := reconcileOne_crNext (h.crs k u hk) hget
  rw [hn.key, hn.nsOf, hn.name] at hmain
  exact hmain

/-- What comes back. -/
theorem outcomeOf_of_some (h : WellFormed c) (hk : c.crs k = some u) :
    outcomeOf c k
      = if u.obj.deletionTimestamp = none ∧ 0 < u.obj.multiplicador
          ∧ panics u.obj (content c.proxies) then .panic else .nil := by
  rw [outcomeOf, run_reconcileKey_of_some hk]
  refine reconcileOne_outcome ?_
  rw [(h.stored k u hk).key]
  exact hk

/-- A reconcile that returns nil has not panicked in its merge. -/
theorem exists_merge_of_nil (h : WellFormed c) (hk : c.crs k = some u)
    (hj : joins u.obj = true) (hnil : outcomeOf c k = .nil) :
    ∃ m, mergeContent u.obj
      (departProxies u.obj (content c.proxies) (targetKey u.obj)) = some m := by
  rw [outcomeOf_of_some h hk] at hnil
  cases hm : mergeContent u.obj
      (departProxies u.obj (content c.proxies) (targetKey u.obj)) with
  | some m => exact ⟨m, rfl⟩
  | none =>
      have hj' := hj
      simp only [joins, Bool.and_eq_true, decide_eq_true_eq,
        Option.isNone_iff_eq_none] at hj'
      obtain ⟨⟨hlive, hpos⟩, hruta⟩ := hj'
      have hp : panics u.obj (content c.proxies) = true := by
        rw [panics]
        rw [← departProxies_of_joins hj]
        exact decide_eq_true ⟨hruta, hm⟩
      rw [if_pos ⟨hlive, hpos, hp⟩] at hnil
      exact absurd hnil (by simp)

end Reconcile

/-- The cluster that holds the listed CRs, Deployments and HTTPProxies. -/
def clusterOf (crs : List (Key × Versioned Multiplicador))
    (deployments : List (Key × Versioned Deployment))
    (proxies : List (Key × Versioned Fields)) (rev : Nat) : Cluster where
  crs := storeOf crs
  deployments := storeOf deployments
  services := fun _ => none
  proxies := storeOf proxies
  rev := rev

theorem wellFormed_clusterOf {crs : List (Key × Versioned Multiplicador)}
    {deployments : List (Key × Versioned Deployment)}
    {proxies : List (Key × Versioned Fields)} {rev : Nat}
    (hn : ∀ e ∈ crs, Stored e.1 e.2.obj) (hc : ∀ e ∈ crs, e.2.version ≤ rev)
    (hp : ∀ e ∈ proxies, e.2.version ≤ rev) :
    WellFormed (clusterOf crs deployments proxies rev) :=
  ⟨fun k v hv => hn (k, v) (mem_of_storeOf hv),
    fun k v hv => hc (k, v) (mem_of_storeOf hv),
    fun k v hv => hp (k, v) (mem_of_storeOf hv)⟩

/-! ## Worlds -/

/-- The cluster, and the uids that CRs have been given so far. -/
structure World where
  cluster : Cluster
  issued : List String

/-- A move of the world; the garbage collector is at work on HTTPProxies. -/
inductive Move where
  | create (u : Multiplicador)
  | edit (k : Key) (spec : Option Json)
  | delete (k : Key) (now : String)
  | reconcile (k : Key)
  | collect (k : Key)

/-- A CR is created live, in a namespace, with a name and a uid of its own. -/
def Legal (w : World) : Move → Prop
  | .create u => u.ns ≠ "" ∧ u.name ≠ "" ∧ u.deletionTimestamp = none
      ∧ u.uid ∉ w.issued
  | _ => True

/-- What a move does. -/
def step (w : World) : Move → World
  | .create u => ⟨createCR w.cluster (u.ns, u.name) u, u.uid :: w.issued⟩
  | .edit k spec => ⟨editSpec w.cluster k spec, w.issued⟩
  | .delete k now => ⟨deleteCR w.cluster k now, w.issued⟩
  | .reconcile k => ⟨reconcileNow w.cluster k, w.issued⟩
  | .collect k => ⟨collectProxy w.cluster k, w.issued⟩

/-- Runs whose moves all satisfy `ok` where they are made. -/
abbrev Runs (ok : World → Move → Prop) : World → World → Prop :=
  Relation.ReflTransGen fun w w' => ∃ m, Legal w m ∧ ok w m ∧ w' = step w m

instance (w : World) (m : Move) : Decidable (Legal w m) :=
  match m with
  | .create u => inferInstanceAs (Decidable (u.ns ≠ "" ∧ u.name ≠ ""
      ∧ u.deletionTimestamp = none ∧ u.uid ∉ w.issued))
  | .edit _ _ => isTrue trivial
  | .delete _ _ => isTrue trivial
  | .reconcile _ => isTrue trivial
  | .collect _ => isTrue trivial

/-- Moves made one after the other, each legal where it is made and passing a
    test there. -/
def LegalMoves (test : World → Move → Bool) : World → List Move → Prop
  | _, [] => True
  | w, m :: rest =>
      (Legal w m ∧ test w m = true) ∧ LegalMoves test (step w m) rest

instance decidableLegalMoves (test : World → Move → Bool) :
    (w : World) → (ms : List Move) → Decidable (LegalMoves test w ms)
  | _, [] => isTrue trivial
  | w, m :: rest =>
      have := decidableLegalMoves test (step w m) rest
      inferInstanceAs (Decidable ((Legal w m ∧ test w m = true)
        ∧ LegalMoves test (step w m) rest))

/-- They are a run. -/
theorem runs_of_moves {ok : World → Move → Prop} (test : World → Move → Bool)
    (htest : ∀ w m, test w m = true → ok w m) {ms : List Move} :
    ∀ {w : World}, LegalMoves test w ms → Runs ok w (ms.foldl step w) := by
  induction ms with
  | nil => intro w _; exact .refl
  | cons m rest ih =>
      rintro w ⟨⟨hm, hok⟩, hrest⟩
      exact .head ⟨m, hm, htest w m hok, rfl⟩ (ih hrest)

/-- A run of any legal moves. -/
theorem runs_of_legal {w : World} {ms : List Move}
    (h : LegalMoves (fun _ _ => true) w ms) :
    Runs (fun _ _ => True) w (ms.foldl step w) :=
  runs_of_moves _ (fun _ _ _ => trivial) h

/-- A start: any CRs with uids of their own, and no HTTPProxies. -/
structure Start (w : World) : Prop where
  wellFormed : WellFormed w.cluster
  issued : ∀ k v, w.cluster.crs k = some v → v.obj.uid ∈ w.issued
  distinct : ∀ k k' v v', w.cluster.crs k = some v →
    w.cluster.crs k' = some v' → v.obj.uid = v'.obj.uid → k = k'
  noProxies : ∀ k, w.cluster.proxies k = none

/-- What holds of every state. -/
structure Sound (w : World) : Prop where
  wellFormed : WellFormed w.cluster
  issued : ∀ k v, w.cluster.crs k = some v → v.obj.uid ∈ w.issued
  distinct : ∀ k k' v v', w.cluster.crs k = some v →
    w.cluster.crs k' = some v' → v.obj.uid = v'.obj.uid → k = k'
  shape : Holds (fun k o => Shape k.2 o) w.cluster.proxies

theorem Sound.shaped {w : World} (h : Sound w) :
    Shaped (content w.cluster.proxies) :=
  holds_iff_content.mp h.shape

theorem Start.sound {w : World} (h : Start w) : Sound w := by
  refine ⟨h.wellFormed, h.issued, h.distinct, ?_⟩
  intro k v hv
  exact absurd ((h.noProxies k).symm.trans hv) (by simp)

/-! ## Uids -/

/-- Every CR of the later cluster was there before, with the same uid. -/
def SameUids (c c' : Cluster) : Prop :=
  ∀ k v', c'.crs k = some v' →
    ∃ v, c.crs k = some v ∧ v.obj.uid = v'.obj.uid

theorem SameUids.refl (c : Cluster) : SameUids c c :=
  fun _ v' h => ⟨v', h, rfl⟩

theorem SameUids.trans {c c' c'' : Cluster} (h : SameUids c c')
    (h' : SameUids c' c'') : SameUids c c'' := by
  intro k v'' hv''
  obtain ⟨v', hv', he'⟩ := h' k v'' hv''
  obtain ⟨v, hv, he⟩ := h k v' hv'
  exact ⟨v, hv, he.trans he'⟩

theorem uid_admitCR {w old new : Multiplicador}
    (h : admitCR w old = some new) : new.uid = old.uid := by
  rw [admitCR] at h
  split at h
  · exact absurd h (by simp)
  · rw [← Option.some.inj h]

/-- Writing a CR that is there. -/
theorem sameUids_write {c : Cluster} {k : Key} {old : Versioned Multiplicador}
    {new : Option Multiplicador} (hold : c.crs k = some old)
    (hn : ∀ x, new = some x → x.uid = old.obj.uid) :
    SameUids c (c.putCRs (write c.crs c.rev k new)) := by
  intro k' v' hv'
  have hc : content (write c.crs c.rev k new).1 k' = some v'.obj :=
    content_of_some hv'
  rw [content_write] at hc
  by_cases hk : k' = k
  · subst hk
    rw [Function.update_self] at hc
    exact ⟨old, hold, (hn _ hc).symm⟩
  · have hv : (write c.crs c.rev k new).1 k' = c.crs k' := write_of_ne hk
    exact ⟨v', hv ▸ hv', rfl⟩

theorem sameUids_effect {c c' : Cluster} {r : Req} (he : Effect c r c') :
    SameUids c c' := by
  cases he with
  | cr k w old new h =>
      refine sameUids_write h.stored ?_
      intro x hx
      rcases h.req with ⟨-, hnew⟩ | ⟨-, hnew⟩
      · exact uid_admitCR (hnew.symm.trans hx)
      · rw [← Option.some.inj (hnew.symm.trans hx)]
  | _ => exact SameUids.refl c

theorem sameUids_reconcileNow (c : Cluster) (k : Key) :
    SameUids c (reconcileNow c k) :=
  Prog.run_keeps serve
    (fun _ r hs => hs.trans (sameUids_effect (serve_effect _ r))) _ c
    (SameUids.refl c)

theorem sameUids_editCR (c : Cluster) (k : Key)
    (f : Multiplicador → Multiplicador) : SameUids c (editCR c k f) := by
  rw [editCR]
  split
  · rename_i v hv
    exact sameUids_write hv fun x hx => uid_admitCR hx
  · exact SameUids.refl c

theorem sameUids_deleteCR (c : Cluster) (k : Key) (now : String) :
    SameUids c (deleteCR c k now) := by
  rw [deleteCR]
  split
  · exact SameUids.refl c
  · rename_i v hv
    split
    · exact sameUids_write hv fun x hx => absurd hx (by simp)
    · refine sameUids_write hv fun x hx => ?_
      rw [← Option.some.inj hx]

/-! ## The run invariant -/

theorem createCR_proxies (c : Cluster) (k : Key) (u : Multiplicador) :
    (createCR c k u).proxies = c.proxies := by
  rw [createCR]
  split <;> rfl

theorem editCR_proxies (c : Cluster) (k : Key)
    (f : Multiplicador → Multiplicador) :
    (editCR c k f).proxies = c.proxies := by
  rw [editCR]
  split <;> rfl

theorem deleteCR_proxies (c : Cluster) (k : Key) (now : String) :
    (deleteCR c k now).proxies = c.proxies := by
  rw [deleteCR]
  split
  · rfl
  · split <;> rfl

/-- A live CR takes the spec a user writes. -/
theorem content_editSpec {c : Cluster} {k : Key} {u : Versioned Multiplicador}
    {spec : Option Json} (hk : c.crs k = some u)
    (hlive : u.obj.deletionTimestamp = none) :
    content (editSpec c k spec).crs k = some { u.obj with spec := spec } := by
  rw [editSpec, editCR]
  rw [hk]
  show content (write c.crs c.rev k _).1 k = _
  rw [content_write, Function.update_self, admitCR_live hlive]
  rfl

theorem editSpec_crs_of_ne {c : Cluster} {k k' : Key} {spec : Option Json}
    (hk : k' ≠ k) : (editSpec c k spec).crs k' = c.crs k' :=
  editCR_crs_of_ne hk

/-- A move that creates no CR. -/
theorem Sound.of_sameUids {w : World} (h : Sound w) {c' : Cluster}
    (hwf : WellFormed c') (hu : SameUids w.cluster c')
    (hs : Holds (fun k o => Shape k.2 o) c'.proxies) :
    Sound ⟨c', w.issued⟩ := by
  refine ⟨hwf, ?_, ?_, hs⟩
  · intro k v' hv'
    obtain ⟨v, hv, he⟩ := hu k v' hv'
    rw [← he]
    exact h.issued k v hv
  · intro k k' v₁ v₂ h₁ h₂ he
    obtain ⟨x₁, hx₁, he₁⟩ := hu k v₁ h₁
    obtain ⟨x₂, hx₂, he₂⟩ := hu k' v₂ h₂
    exact h.distinct k k' x₁ x₂ hx₁ hx₂ (he₁.trans (he.trans he₂.symm))

theorem shape_collectProxy {c : Cluster}
    (h : Holds (fun k o => Shape k.2 o) c.proxies) (k : Key) :
    Holds (fun k o => Shape k.2 o) (collectProxy c k).proxies := by
  rw [collectProxy]
  split
  · exact h
  · rename_i v hv
    split
    · exact h
    · split
      · exact holds_write h fun x hx => absurd hx (by simp)
      · refine holds_write h fun x hx => ?_
        rw [← Option.some.inj hx]
        exact shape_dropDangling (h k v hv)

/-- Creating a CR under a free name. -/
theorem sound_create {w : World} (h : Sound w) {u : Multiplicador}
    (hl : Legal w (.create u)) : Sound (step w (.create u)) := by
  obtain ⟨hns, hname, hlive, hfresh⟩ := hl
  have hwf : WellFormed (createCR w.cluster (u.ns, u.name) u) :=
    wellFormed_createCR h.wellFormed
      ⟨rfl, rfl, hns, hname, fun hd => absurd hd (by simp [hlive])⟩
  -- a CR of the new cluster is the new one or was there before
  have hold : ∀ k v, (createCR w.cluster (u.ns, u.name) u).crs k = some v →
      (k = (u.ns, u.name) ∧ v.obj.uid = u.uid) ∨ w.cluster.crs k = some v := by
    intro k v hv
    rw [createCR] at hv
    cases hc : create w.cluster.crs w.cluster.rev (u.ns, u.name) u with
    | error e => rw [hc] at hv; exact Or.inr hv
    | ok r =>
        rw [hc] at hv
        obtain ⟨-, rfl⟩ := create_ok hc
        by_cases hk : k = (u.ns, u.name)
        · have hcont : content (write w.cluster.crs w.cluster.rev
              (u.ns, u.name) (some u)).1 k = some v.obj := content_of_some hv
          rw [content_write, hk, Function.update_self] at hcont
          exact Or.inl ⟨hk, by rw [← Option.some.inj hcont]⟩
        · exact Or.inr ((write_of_ne hk).symm.trans hv)
  refine ⟨hwf, ?_, ?_, ?_⟩
  · intro k v hv
    rcases hold k v hv with ⟨-, he⟩ | hv'
    · exact he ▸ List.mem_cons_self
    · exact List.mem_cons_of_mem _ (h.issued k v hv')
  · intro k k' v v' hv hv' he
    rcases hold k v hv with ⟨hk, hu⟩ | h₁
    · rcases hold k' v' hv' with ⟨hk', -⟩ | h₂
      · exact hk.trans hk'.symm
      · exact absurd (h.issued k' v' h₂) (by rw [← he, hu]; exact hfresh)
    · rcases hold k' v' hv' with ⟨-, hu⟩ | h₂
      · exact absurd (h.issued k v h₁) (by rw [he, hu]; exact hfresh)
      · exact h.distinct k k' v v' h₁ h₂ he
  · show Holds _ (createCR w.cluster (u.ns, u.name) u).proxies
    rw [createCR_proxies]
    exact h.shape

/-- Every move keeps what holds of every state. -/
theorem sound_step {w : World} (h : Sound w) {m : Move} (hl : Legal w m) :
    Sound (step w m) := by
  cases m with
  | create u => exact sound_create h hl
  | edit k spec =>
      refine h.of_sameUids (wellFormed_editCR h.wellFormed k _)
        (sameUids_editCR w.cluster k _) ?_
      rw [editSpec, editCR_proxies]
      exact h.shape
  | delete k now =>
      refine h.of_sameUids (wellFormed_deleteCR h.wellFormed k now)
        (sameUids_deleteCR w.cluster k now) ?_
      rw [deleteCR_proxies]
      exact h.shape
  | reconcile k =>
      refine h.of_sameUids (wellFormed_reconcileNow h.wellFormed)
        (sameUids_reconcileNow w.cluster k) ?_
      cases hk : w.cluster.crs k with
      | none =>
          rw [reconcileNow_of_none hk]
          exact h.shape
      | some u =>
          rw [holds_iff_content, reconcileNow_proxies hk]
          exact h.shaped.after u.obj
  | collect k =>
      refine h.of_sameUids (wellFormed_collectProxy h.wellFormed k) ?_
        (shape_collectProxy h.shape k)
      intro q v hv
      rw [collectProxy_crs] at hv
      exact ⟨v, hv, rfl⟩

/-- **RUN INVARIANT**: what one move keeps of sound worlds, runs keep. -/
theorem runs_keep {ok : World → Move → Prop} {I : World → Prop}
    (hstep : ∀ w m, Sound w → I w → Legal w m → ok w m → I (step w m))
    {w w' : World} (h : Runs ok w w') (hs : Sound w) (hI : I w) :
    Sound w' ∧ I w' := by
  induction h with
  | refl => exact ⟨hs, hI⟩
  | tail _ hm ih =>
      obtain ⟨m, hl, hok, rfl⟩ := hm
      exact ⟨sound_step ih.1 hl, hstep _ m ih.1 ih.2 hl hok⟩

theorem sound_of_runs {ok : World → Move → Prop} {w w' : World}
    (h : Runs ok w w') (hs : Sound w) : Sound w' :=
  (runs_keep (I := fun _ => True) (fun _ _ _ _ _ _ => trivial) h hs
    trivial).1

/-! ## A world to start from -/

/-- A spec that asks to be served. -/
def specFor (host ruta : String) : Option Json :=
  some (.obj [("multiplicador", .int 3), ("host", .str host),
    ("ruta", .str ruta)])

/-- A CR as a user creates it, in the namespace `default`. -/
def newCR (name host ruta : String) : Multiplicador where
  ns := "default"
  name := name
  uid := "uid-" ++ name
  gvk := defaultGVK
  deletionTimestamp := none
  annotations := none
  finalizers := []
  spec := specFor host ruta
  status := none

/-- A cluster without any object. -/
def emptyWorld : World := ⟨clusterOf [] [] [] 0, []⟩

theorem start_emptyWorld : Start emptyWorld := by
  refine ⟨wellFormed_clusterOf (by simp) (by simp) (by simp), ?_, ?_, ?_⟩
  · intro k v hv
    exact absurd (mem_of_storeOf hv) List.not_mem_nil
  · intro k k' v v' hv
    exact absurd (mem_of_storeOf hv) List.not_mem_nil
  · intro k
    rfl

end ClusterRuns
