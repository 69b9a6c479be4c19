import KubernetesUpRunning.ClusterRuns
import KubernetesUpRunning.OperatorPool

/-! # The shape of the proxies, with workers side by side

    A worker computes what it writes into an HTTPProxy from the one it has
    read, so if that had the right shape, what it writes has it too, whatever
    became of the proxy in between.  The create, the merge, leaving and the
    cleanup are the only writes (`conduct`), and the collector only drops owner
    entries; so every proxy has the shape of its name in every state, and a
    namespace holds at most one proxy for a host. -/

namespace ProxyPool

open ApiServer CallProgram ClusterRuns Conduct GoJson KubeObjects OperatorPool
open ProxyShape ProxyView Reconcile ReconcileEffect ReconcileRun ServerSteps
open VersionedStore WorkerPool

/-- Every stored HTTPProxy has the shape of its name. -/
def AllShaped (c : Cluster) : Prop := Holds (fun q o => Shape q.2 o) c.proxies

/-- The HTTPProxy that a worker holds had the shape of its name when it was
    read. -/
def ReadShaped (s : Knows) : Prop :=
  ∀ u, s.cr = some u →
    (∀ v, s.stage = .leaving v → Shape (oldKey u.obj).2 v.obj)
    ∧ ∀ v, s.stage = .joining (some v) → Shape (targetKey u.obj).2 v.obj

theorem readShaped_of_stage {s : Knows} (hl : ∀ v, s.stage ≠ .leaving v)
    (hj : ∀ v, s.stage ≠ .joining (some v)) : ReadShaped s :=
  fun _ _ => ⟨fun v hv => absurd hv (hl v), fun v hv => absurd hv (hj v)⟩

/-! ## One call -/

/-- What a worker writes into an HTTPProxy has the shape. -/
theorem shape_of_write {s : Knows} {c : Cluster} {r : Req} {q : Key}
    {new : Option Fields} (h : ReadShaped s) (hr : allowed s r)
    (hw : ProxyWrite c r q new) : ∀ o, new = some o → Shape q.2 o := by
  rintro o rfl
  cases hw with
  | create q o hq =>
      obtain ⟨u, -, -, -, rfl, hm⟩ := hr
      exact shape_mergeContent (fun x hx => absurd hx (by simp)) hm
  | update q o old hq hv =>
      obtain ⟨u, v, hcr, -, ⟨hst, -, rfl, hleave⟩ | ⟨hst, -, rfl, hm⟩⟩ := hr
      · exact shape_leaveContent ((h u hcr).1 v hst) hleave
      · refine shape_mergeContent ?_ hm
        intro x hx
        rw [← Option.some.inj hx]
        exact (h u hcr).2 v hst

/-- One call keeps the shape. -/
theorem allShaped_call {c c' : Cluster} {s : Knows} {r : Req} {x : Resp r}
    (h : AllShaped c) (hs : ReadShaped s) (hr : allowed s r)
    (hcall : Called c r c' x) : AllShaped c' := by
  cases hcall.effect with
  | nothing => exact h
  | cr k w old new hu => exact h
  | deployment k new => exact h
  | service k new => exact h
  | proxy k new hw => exact holds_write h (shape_of_write hs hr hw)

/-- What was read from a shaped cluster is shaped. -/
theorem shape_of_get {c c' : Cluster} {q : Key} {v : Versioned Fields}
    {x : Resp (.getProxy q)} (h : AllShaped c)
    (hcall : Called c (.getProxy q) c' x) (hx : x = .ok v) :
    Shape q.2 v.obj := by
  have hgot : got (c.proxies q) = .ok v := hcall.ok hx
  cases hq : c.proxies q with
  | none => rw [hq] at hgot; exact absurd hgot (by simp [got])
  | some y =>
      rw [hq] at hgot
      rw [← Except.ok.inj hgot]
      exact h q y hq

/-- A worker holds shaped proxies only. -/
theorem readShaped_next {c c' : Cluster} {s : Knows} {r : Req} {x : Resp r}
    (h : AllShaped c) (hs : ReadShaped s) (hr : allowed s r)
    (hcall : Called c r c' x) : ReadShaped (next s r x) := by
  cases r with
  | getCR k =>
      cases x with
      | error e => exact hs
      | ok u =>
          -- a CR is read before any proxy
          have hst : (next s (.getCR k) (.ok u)).stage = .start := hr.2.1
          refine readShaped_of_stage ?_ ?_
          · intro v hv
            exact absurd (hst.symm.trans hv) (by simp)
          · intro v hv
            exact absurd (hst.symm.trans hv) (by simp)
  | getProxy q =>
      obtain ⟨u, hcr, hq⟩ := hr
      by_cases hl : leavesNext s = true
      · rw [if_pos hl] at hq
        cases x with
        | error e =>
            have hn : next s (.getProxy q) (.error e)
                = { s with stage := .away, left := true } := by
              simp [next, hl]
            rw [hn]
            exact readShaped_of_stage (by simp) (by simp)
        | ok v =>
            have hn : next s (.getProxy q) (.ok v)
                = { s with stage := .leaving v } := by simp [next, hl]
            have hv := shape_of_get h hcall rfl
            rw [hn]
            rintro u' hu'
            have huu : u = u' := Option.some.inj (hcr.symm.trans hu')
            refine ⟨?_, by simp⟩
            intro w hw
            rw [← Stage.leaving.inj hw, ← huu, ← hq]
            exact hv
      · rw [if_neg hl] at hq
        cases x with
        | error e =>
            have hn : next s (.getProxy q) (.error e)
                = { s with stage := .joining none } := by simp [next, hl]
            rw [hn]
            exact readShaped_of_stage (by simp) (by simp)
        | ok v =>
            have hn : next s (.getProxy q) (.ok v)
                = { s with stage := .joining (some v) } := by simp [next, hl]
            have hv := shape_of_get h hcall rfl
            rw [hn]
            rintro u' hu'
            have huu : u = u' := Option.some.inj (hcr.symm.trans hu')
            refine ⟨by simp, ?_⟩
            intro w hw
            rw [← Option.some.inj (Stage.joining.inj hw), ← huu, ← hq.2.1]
            exact hv
  | updateProxy q o =>
      rcases stage_updateProxy s q o x with hst | hst | hst
      · exact readShaped_of_stage (by simp [hst]) (by simp [hst])
      · exact readShaped_of_stage (by simp [hst]) (by simp [hst])
      · exact readShaped_of_stage (by simp [hst]) (by simp [hst])
  | createProxy q o =>
      cases x with
      | ok y => exact readShaped_of_stage (by simp [next]) (by simp [next])
      | error e => exact readShaped_of_stage (by simp [next]) (by simp [next])
  | deleteProxy q =>
      exact readShaped_of_stage (by simp [next]) (by simp [next])
  | _ => exact hs

/-- What everybody else does. -/
theorem allShaped_others {c c' : Cluster} (h : AllShaped c)
    (ho : Others c c') : AllShaped c' := by
  cases ho with
  | create k u hu =>
      rw [AllShaped, createCR_proxies]
      exact h
  | edit k f =>
      rw [AllShaped, editCR_proxies]
      exact h
  | delete k now =>
      rw [AllShaped, deleteCR_proxies]
      exact h
  | collect k => exact shape_collectProxy h k

/-! ## Every run -/

/-- In one namespace two shaped proxies with one fqdn are the same. -/
theorem eq_of_fqdn {c : Cluster} (h : AllShaped c) {q q' : Key} {f : String}
    (hns : q.1 = q'.1) (hq : fqdnAt (content c.proxies) q = some f)
    (hq' : fqdnAt (content c.proxies) q' = some f) : q = q' := by
  have hname : ∀ q, fqdnAt (content c.proxies) q = some f →
      q.2 = vhostName f := by
    intro q hq
    obtain ⟨o, ho, hf⟩ := Option.bind_eq_some_iff.mp hq
    exact ((holds_iff_content.mp h) q o ho).fqdn f hf
  exact Prod.ext hns ((hname q hq).trans (hname q' hq').symm)

/-- **SHAPE**: in every state that idle workers can reach from a cluster
    without HTTPProxies, with any calls failing and any moves of users and of
    the collector in between, every HTTPProxy has the shape of its name and a
    namespace holds at most one for each host. -/
theorem shape_of_reaches {ι : Type} [DecidableEq ι]
    {P₀ P : Pool ι Req Resp Outcome Cluster} (hidle : Idle P₀)
    (hwf : WellFormed P₀.store) (h₀ : ∀ q, P₀.store.proxies q = none)
    (h : Reaches (rules Called Others) P₀ P) :
    (∀ q v, P.store.proxies q = some v → Shape q.2 v.obj)
      ∧ ∀ q q' f, q.1 = q'.1 →
        fqdnAt (content P.store.proxies) q = some f →
        fqdnAt (content P.store.proxies) q' = some f → q = q' := by
  have hstart : AllShaped P₀.store := by
    intro q v hv
    exact absurd ((h₀ q).symm.trans hv) (by simp)
  have hinv := invariant_of_reaches
    (I := fun c => WellFormed c ∧ AllShaped c) (R := fun _ s => ReadShaped s)
    ?_ ?_ ?_ hidle ⟨hwf, hstart⟩ h
  · exact ⟨hinv.2, fun q q' f => eq_of_fqdn hinv.2⟩
  · intro c k
    exact readShaped_of_stage (by simp [Knows.fresh]) (by simp [Knows.fresh])
  · rintro c s r c' x ⟨hwf, hi⟩ hread hr hcall
    exact ⟨hcall.answers hwf s, ⟨hcall.effect.wellFormed hwf,
      allShaped_call hi hread hr hcall⟩, readShaped_next hi hread hr hcall,
      fun _ hs => hs⟩
  · rintro c c' ⟨hwf, hi⟩ ho
    exact ⟨⟨ho.wellFormed hwf, allShaped_others hi ho⟩, fun _ hs => hs⟩

/-! ## One leaves while the other joins -/

/-- Two CRs that ask for one host, and nothing else. -/
def sameHost : Cluster :=
  clusterOf [(("default", "web"), ⟨newCR "web" "a.com" "x", 1⟩),
    (("default", "api"), ⟨newCR "api" "a.com" "y", 2⟩)] [] [] 2

/-- Nobody has a key. -/
def allIdle : Pool Bool Req Resp Outcome Cluster :=
  ⟨sameHost, fun _ => .ret .nil⟩

/-- Worker `i` reconciles the CR at `k` from its first call to its last. -/
def reconciledBy (P : Pool Bool Req Resp Outcome Cluster) (i : Bool) (k : Key) :
    Pool Bool Req Resp Outcome Cluster := (takeKey P i k).finish serve i

theorem reaches_reconciledBy {P : Pool Bool Req Resp Outcome Cluster} {i : Bool}
    {o : Outcome} (h : P.prog i = .ret o) (k : Key) :
    Reaches (rules Called Others) P (reconciledBy P i k) :=
  (reaches_takeKey h k).trans
    (reaches_finish (R := rules Called Others) (fun _ _ => .served) _)

/-- `web` is served and recorded, and the worker of `api` has read the proxy it
    is to join. -/
def aboutToJoin : Pool Bool Req Resp Outcome Cluster :=
  (takeKey (reconciledBy (reconciledBy allIdle true ("default", "web")) true
    ("default", "web")) false ("default", "api")).calls serve false 9

/-- The user moves `web` to another host, its worker leaves the proxy and
    deletes it, and so the write of the worker of `api` is refused. -/
def joinRefused : Pool Bool Req Resp Outcome Cluster :=
  (reconciledBy ⟨editSpec aboutToJoin.store ("default", "web")
    (specFor "b.com" "x"), aboutToJoin.prog⟩ true ("default", "web")).finish
      serve false

/-- `api` is reconciled once more. -/
def bothMoved : Pool Bool Req Resp Outcome Cluster :=
  reconciledBy joinRefused false ("default", "api")

/-- A worker leaves a proxy while another one is about to join it. -/
theorem shape_bothMoved :
    fqdnAt (content bothMoved.store.proxies) ("default", "vhost-a-com")
        = some "a.com"
      ∧ fqdnAt (content bothMoved.store.proxies) ("default", "vhost-b-com")
        = some "b.com"
      ∧ (∀ q v, bothMoved.store.proxies q = some v → Shape q.2 v.obj)
      ∧ ∀ q q' f, q.1 = q'.1 →
        fqdnAt (content bothMoved.store.proxies) q = some f →
        fqdnAt (content bothMoved.store.proxies) q' = some f → q = q' := by
  refine ⟨by decide +kernel, by decide +kernel, ?_⟩
  have hwf : WellFormed sameHost :=
    wellFormed_clusterOf (by decide) (by decide) (by decide)
  have hidle : Idle allIdle := fun _ => ⟨.nil, rfl⟩
  have hreads : Reaches (rules Called Others) allIdle aboutToJoin :=
    (((reaches_reconciledBy (i := true) (o := .nil) rfl
      ("default", "web")).trans
      (reaches_reconciledBy rfl ("default", "web"))).trans
        (reaches_takeKey (o := .nil) rfl ("default", "api"))).trans
          (reaches_calls (R := rules Called Others) (fun _ _ => .served) _ 9)
  have hleaves : Reaches (rules Called Others) aboutToJoin joinRefused :=
    .head (.env _ (.edit ("default", "web") _))
      ((reaches_reconciledBy rfl ("default", "web")).trans
        (reaches_finish (R := rules Called Others) (fun _ _ => .served) _))
  have hjoins : Reaches (rules Called Others) joinRefused bothMoved :=
    reaches_reconciledBy rfl ("default", "api")
  exact shape_of_reaches hidle hwf (fun _ => rfl)
    ((hreads.trans hleaves).trans hjoins)

end ProxyPool
