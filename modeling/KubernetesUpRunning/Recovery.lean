import KubernetesUpRunning.Convergence
import KubernetesUpRunning.UserEdits

/-! # Coming to rest after anything

    `Convergence` starts where no reconcile is under way.  Here workers run
    side by side and their calls fail or lose their answers; one may stop in
    the middle of a reconcile and never go on, as when the operator is killed.
    Users and the garbage collector write in between, and a worker goes on with
    what it has read before.  Nothing of this starts a dispute, since whatever
    lands demands what the users' part of the CR demands; so from any state
    that is left behind, three rounds of complete reconciles come to rest. -/

namespace Recovery

open ApiServer CallProgram ClusterRuns Conduct Convergence FairRounds
open FixedPoint GoJson KubeObjects Neighbours OperatorPool ProxyShape
open Reconcile ReconcileEffect ReconcileRun ServerSteps UserEdits
open VersionedStore WorkerPool

/-- What everybody else does, as long as it starts no dispute. -/
structure Polite (c c' : Cluster) : Prop where
  others : Others c c'
  apart : ∀ k k' u v, c'.crs k = some u → c'.crs k' = some v → k' ≠ k →
    Undisputed u.obj v.obj

/-! ## What a worker has in hand -/

/-- The HTTPProxy that a worker has read and is about to write. -/
def heldProxy : Stage → Option Fields
  | .leaving v => some v.obj
  | .joining (some v) => some v.obj
  | _ => none

/-- What a worker has read can be merged into, and only a CR that is to be
    served is ever recorded as such. -/
structure Sensible (s : Knows) : Prop where
  maps : Maps (heldProxy s.stage)
  joins : s.stage = .joined → ∀ u, s.cr = some u → joins u.obj = true

theorem maps_none : Maps none := fun _ hx => absurd hx (by simp)

/-- In a stage in which nothing is held and nothing is recorded. -/
theorem sensible_of_stage {s : Knows} (hheld : heldProxy s.stage = none)
    (hst : s.stage ≠ .joined) : Sensible s := by
  refine ⟨?_, fun h => absurd h hst⟩
  rw [hheld]
  exact maps_none

/-- What was read from the server can be merged into. -/
theorem maps_of_get {c c' : Cluster} {q : Key} {v : Versioned Fields}
    {x : Resp (.getProxy q)} (h : HaveMaps c)
    (hcall : Called c (.getProxy q) c' x) (hx : x = .ok v) :
    Maps (some v.obj) := by
  have hgot : got (c.proxies q) = .ok v := hcall.ok hx
  cases hq : c.proxies q with
  | none =>
      rw [hq] at hgot
      exact absurd hgot (by simp [got])
  | some y =>
      rw [hq] at hgot
      obtain rfl : y = v := Except.ok.inj hgot
      rw [← content_of_some hq]
      exact haveMaps_iff.mp h q

/-- **WHAT A WORKER HOLDS** stays sensible from call to call. -/
theorem sensible_next {c c' : Cluster} {s : Knows} {r : Req} {x : Resp r}
    (h : HaveMaps c) (hs : Sensible s) (hr : allowed s r)
    (hcall : Called c r c' x) : Sensible (next s r x) := by
  cases r with
  | getCR k =>
      cases x with
      | error e => exact hs
      | ok u =>
          -- a CR is read before any proxy
          have hst : s.stage = .start := hr.2.1
          refine sensible_of_stage ?_ ?_
          · show heldProxy s.stage = none
            rw [hst]
            rfl
          · show s.stage ≠ .joined
            simp [hst]
  | getProxy q =>
      cases x with
      | error e =>
          have hn : (next s (.getProxy q) (.error e)).stage = .away
              ∨ (next s (.getProxy q) (.error e)).stage = .joining none := by
            by_cases hl : leavesNext s = true
            · exact Or.inl (by simp [next, hl])
            · exact Or.inr (by simp [next, hl])
          rcases hn with hn | hn
          · exact sensible_of_stage (by rw [hn]; rfl) (by simp [hn])
          · exact sensible_of_stage (by rw [hn]; rfl) (by simp [hn])
      | ok v =>
          have hn : (next s (.getProxy q) (.ok v)).stage = .leaving v
              ∨ (next s (.getProxy q) (.ok v)).stage = .joining (some v) := by
            by_cases hl : leavesNext s = true
            · exact Or.inl (by simp [next, hl])
            · exact Or.inr (by simp [next, hl])
          have hv := maps_of_get h hcall rfl
          rcases hn with hn | hn
          · exact ⟨by rw [hn]; exact hv, fun hj => absurd (hn.symm.trans hj)
              (by simp)⟩
          · exact ⟨by rw [hn]; exact hv, fun hj => absurd (hn.symm.trans hj)
              (by simp)⟩
  | updateProxy q o =>
      obtain ⟨u, v, hcr, -, hw⟩ := hr
      rcases hw with ⟨hst, -⟩ | ⟨hst, hj, -⟩
      · have hn : (next s (.updateProxy q o) x).stage = .away := by
          simp [next, hst]
        exact sensible_of_stage (by rw [hn]; rfl) (by simp [hn])
      · cases x with
        | error e =>
            have hn : (next s (.updateProxy q o) (.error e)).stage
                = .refused := by simp [next, hst]
            exact sensible_of_stage (by rw [hn]; rfl) (by simp [hn])
        | ok y =>
            have hn : next s (.updateProxy q o) (.ok y)
                = { s with stage := .joined } := by simp [next, hst]
            rw [hn]
            refine ⟨maps_none, fun _ w hw => ?_⟩
            rw [← Option.some.inj (hcr.symm.trans hw)]
            exact hj
  | createProxy q o =>
      obtain ⟨u, hcr, -, hj, -⟩ := hr
      cases x with
      | error e => exact sensible_of_stage rfl (by simp [next])
      | ok y =>
          refine ⟨maps_none, fun _ w hw => ?_⟩
          rw [← Option.some.inj (hcr.symm.trans hw)]
          exact hj
  | deleteProxy q => exact sensible_of_stage rfl (by simp [next])
  | _ => exact hs

/-! ## What lands -/

/-- What a worker writes into an HTTPProxy can be merged into. -/
theorem maps_of_write {s : Knows} {c : Cluster} {r : Req} {q : Key}
    {new : Option Fields} (hs : Sensible s) (hr : allowed s r)
    (hw : ProxyWrite c r q new) : Maps new := by
  cases hw with
  | create q o hq =>
      obtain ⟨u, -, -, -, -, hm⟩ := hr
      exact maps_mergeContent maps_none hm
  | update q o old hq hv =>
      obtain ⟨u, v, -, -, ⟨hst, -, -, hleave⟩ | ⟨hst, -, -, hm⟩⟩ := hr
      · have hv := hs.maps
        rw [hst] at hv
        rw [← hleave]
        exact maps_leaveContent hv
      · have hv := hs.maps
        rw [hst] at hv
        exact maps_mergeContent hv hm
  | delete q old hq => exact maps_none

theorem haveMaps_write {c : Cluster} (h : HaveMaps c) {q : Key}
    {new : Option Fields} (hnew : Maps new) :
    HaveMaps (c.putProxies (write c.proxies c.rev q new)) := by
  rw [haveMaps_iff] at h ⊢
  intro q'
  show Maps (content (write c.proxies c.rev q new).1 q')
  rw [content_write]
  by_cases hq : q' = q
  · subst hq
    rw [Function.update_self]
    exact hnew
  · rw [Function.update_of_ne hq]
    exact h q'

theorem haveMaps_call {c c' : Cluster} {s : Knows} {r : Req}
    (h : HaveMaps c) (hs : Sensible s) (hr : allowed s r)
    (he : Effect c r c') : HaveMaps c' := by
  cases he with
  | nothing => exact h
  | cr k w old new hu => exact h
  | deployment k new => exact h
  | service k new => exact h
  | proxy k new hw => exact haveMaps_write h (maps_of_write hs hr hw)

/-- What the server stores of a CR demands what it has replaced, if what is
    sent keeps the spec, and the record of a CR that is being deleted. -/
theorem sameDemands_admitCR {w old new : Multiplicador}
    (hspec : w.spec = old.spec)
    (hrec : old.deletionTimestamp.isSome = true →
      prevProxy w = prevProxy old ∧ prevRoute w = prevRoute old)
    (h : admitCR w old = some new) : SameDemands old new := by
  rw [admitCR] at h
  split at h
  · exact absurd h (by simp)
  · rw [← Option.some.inj h]
    exact ⟨rfl, rfl, rfl, hspec, rfl, hrec⟩

/-- **NO CALL STARTS A DISPUTE**: the version that is accepted is the one that
    was read, and what is computed from it demands the same. -/
theorem sameDemanded_call {c c' : Cluster} {s : Knows} {r : Req}
    (hread : CRRead c s) (hs : Sensible s) (hr : allowed s r)
    (he : Effect c r c') : SameDemanded c c' := by
  cases he with
  | cr k w old new hu =>
      have hwrite : crWrite s k w := by
        rcases hu.req with ⟨rfl, -⟩ | ⟨rfl, -⟩
        · exact hr
        · exact hr
      obtain ⟨u, hcr, hk, hver, hpart, hreads⟩ := hwrite
      have hold : old = u := by
        refine (hread u hcr).same old ?_ (hu.version.trans hver)
        rw [← hk]
        exact hu.stored
      subst hold
      have hspec : w.obj.spec = old.obj.spec := congrArg UserPart.spec hpart
      have hrec : old.obj.deletionTimestamp.isSome = true →
          prevProxy w.obj = prevProxy old.obj
            ∧ prevRoute w.obj = prevRoute old.obj := by
        intro hdel
        rcases hreads with hst | hreads
        · have hj := hs.joins hst old hcr
          have hlive := (active_iff.mp (joins_iff.mp hj).1).1
          rw [hlive] at hdel
          exact absurd hdel (by simp)
        · exact ⟨hreads.prevProxy, hreads.prevRoute⟩
      have hnew : ∀ y, new = some y → SameDemands old.obj y := by
        intro y hy
        rcases hu.req with ⟨-, hnext⟩ | ⟨-, hnext⟩
        · exact sameDemands_admitCR hspec hrec (hnext.symm.trans hy)
        · rw [← Option.some.inj (hnext.symm.trans hy)]
          exact ⟨rfl, rfl, rfl, rfl, rfl, fun _ => ⟨rfl, rfl⟩⟩
      intro k' v hv
      by_cases hk' : k' = k
      · subst hk'
        have hself : content (write c.crs c.rev k' new).1 k' = new := by
          rw [content_write, Function.update_self]
        exact ⟨old, hu.stored,
          hnew v.obj (hself.symm.trans (content_of_some hv))⟩
      · have hv' : (write c.crs c.rev k new).1 k' = some v := hv
        rw [write_of_ne hk'] at hv'
        exact ⟨v, hv', SameDemands.refl _⟩
  | _ => exact fun k v hv => ⟨v, hv, SameDemands.refl _⟩

/-- The collector's writes can be merged into as before. -/
theorem haveMaps_others {c c' : Cluster} (h : HaveMaps c) (ho : Others c c') :
    HaveMaps c' := by
  cases ho with
  | create k u hu =>
      intro q v hv
      rw [createCR_proxies] at hv
      exact h q v hv
  | edit k f =>
      intro q v hv
      rw [editCR_proxies] at hv
      exact h q v hv
  | delete k now =>
      intro q v hv
      rw [deleteCR_proxies] at hv
      exact h q v hv
  | collect k =>
      rw [collectProxy]
      split
      · exact h
      · rename_i v hv
        split
        · exact h
        · split
          · exact haveMaps_write h maps_none
          · refine haveMaps_write h fun x hx => ?_
            obtain ⟨hmd, hspec⟩ := h k v hv
            rw [← Option.some.inj hx, specOf_dropDangling]
            exact ⟨metadata_dropDangling hmd, hspec⟩

/-! ## Every run -/

/-- Whatever workers, users and the collector do to a peaceful cluster, it
    stays one. -/
theorem peaceful_of_reaches {ι : Type} [DecidableEq ι]
    {P₀ P : Pool ι Req Resp Outcome Cluster} (hidle : Idle P₀)
    (h₀ : Peaceful P₀.store) (h : Reaches (rules Called Polite) P₀ P) :
    Peaceful P.store := by
  refine invariant_of_reaches (I := Peaceful)
    (R := fun c s => CRRead c s ∧ Sensible s) ?_ ?_ ?_ hidle h₀ h
  · intro c k
    refine ⟨?_, sensible_of_stage rfl (by simp [Knows.fresh])⟩
    intro u hu
    exact absurd hu (by simp [Knows.fresh])
  · rintro c s r c' x hI ⟨hread, hs⟩ hr hcall
    refine ⟨hcall.answers hI.wellFormed s, ?_, ⟨?_, ?_⟩, ?_⟩
    · exact hI.of_sameDemanded (sameDemanded_call hread hs hr hcall.effect)
        (hcall.effect.wellFormed hI.wellFormed)
        (haveMaps_call hI.maps hs hr hcall.effect)
    · exact crRead_next hI.wellFormed hread hr hcall
    · exact sensible_next hI.maps hs hr hcall
    · exact fun s' hs' => ⟨hs'.1.later hcall.effect.later, hs'.2⟩
  · rintro c c' hI ho
    exact ⟨⟨ho.others.wellFormed hI.wellFormed,
        haveMaps_others hI.maps ho.others, ho.apart⟩,
      fun s hs => ⟨hs.1.later ho.others.later, hs.2⟩⟩

/-- **RECOVERY**: from every state that a pool of workers can leave behind,
    with any calls failing or losing their answers and any reconcile broken
    off, three rounds of complete reconciles lead to rest, and every CR then
    has what it asks for. -/
theorem recovers_from_any_state {ι : Type} [DecidableEq ι]
    {P₀ P : Pool ι Req Resp Outcome Cluster} (hidle : Idle P₀)
    (h₀ : Peaceful P₀.store) (h : Reaches (rules Called Polite) P₀ P)
    {rounds : List (List Key)} (hlen : 3 ≤ rounds.length)
    (hcover : ∀ r ∈ rounds, ∀ k, P.store.crs k ≠ none → k ∈ r) :
    (∀ ks, turns reconcileNow P.store (rounds.flatten ++ ks)
        = turns reconcileNow P.store rounds.flatten)
      ∧ Continued P.store (turns reconcileNow P.store rounds.flatten)
      ∧ ∀ k u, (turns reconcileNow P.store rounds.flatten).crs k = some u →
        Settled (turns reconcileNow P.store rounds.flatten) u.obj :=
  rest_of_rounds (peaceful_of_reaches hidle h₀ h) hlen hcover

/-! ## A worker that is killed -/

/-- No call brings a CR. -/
theorem crs_of_effect {c c' : Cluster} {r : Req} {k : Key}
    (he : Effect c r c') (h : c'.crs k ≠ none) : c.crs k ≠ none := by
  cases he with
  | cr k' w old new hu =>
      by_cases hk : k = k'
      · subst hk
        simp [hu.stored]
      · have h' : (write c.crs c.rev k' new).1 k ≠ none := h
        rw [write_of_ne hk] at h'
        exact h'
  | _ => exact h

/-- The shared host when its worker was killed after ten calls of a reconcile:
    the HTTPProxy is written, and the CR does not record it. -/
def killed : Pool Unit Req Resp Outcome Cluster :=
  Pool.calls serve
    ⟨sharedHost, fun _ => reconcileKey ("default", "web")⟩ () 10

theorem recovers_killed :
    turns reconcileNow killed.store ([forth, back, forth].flatten ++ back)
      = turns reconcileNow killed.store [forth, back, forth].flatten := by
  have hidle : Idle (⟨sharedHost, fun _ => .ret .nil⟩ :
      Pool Unit Req Resp Outcome Cluster) := fun _ => ⟨.nil, rfl⟩
  have hstart : Reaches (rules Called Polite)
      (⟨sharedHost, fun _ => .ret .nil⟩ : Pool Unit Req Resp Outcome Cluster)
      ⟨sharedHost, fun _ => reconcileKey ("default", "web")⟩ := .single
    (.start () .nil (reconcileKey ("default", "web")) rfl ⟨_, rfl⟩)
  have hrun := reaches_calls (R := rules Called Polite)
    (i := ()) (fun c r => Called.served)
    ⟨sharedHost, fun _ => reconcileKey ("default", "web")⟩ 10
  have hkeys : ∀ k, killed.store.crs k ≠ none → sharedHost.crs k ≠ none :=
    Prog.advance_keeps serve
      (I := fun c => ∀ k, c.crs k ≠ none → sharedHost.crs k ≠ none)
      (fun c r hc k hk => hc k (crs_of_effect (serve_effect c r) hk)) 10
      (reconcileKey ("default", "web")) sharedHost (fun _ hk => hk)
  refine (recovers_from_any_state hidle peaceful_sharedHost
    (hstart.trans hrun) (by simp) ?_).1 back
  intro r hr k hk
  simp only [List.mem_cons, List.not_mem_nil, or_false] at hr
  rcases hr with rfl | rfl | rfl
  · exact mem_forth (hkeys k hk)
  · exact mem_back (hkeys k hk)
  · exact mem_forth (hkeys k hk)

end Recovery
