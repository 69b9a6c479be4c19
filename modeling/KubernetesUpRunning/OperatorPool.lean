import KubernetesUpRunning.Conduct
import KubernetesUpRunning.WorkerPool

/-! # Workers of the operator, side by side

    Any number of workers reconcile any keys, the same key several times over
    if they like, while users and the garbage collector write as they please.
    Every call of a worker is one step.  A call may fail, before the server has
    seen it or after. -/

namespace OperatorPool

open ApiServer CallProgram Conduct GoJson KubeObjects Reconcile ServerSteps
open VersionedStore WorkerPool

/-- How a call comes out: as the server answers it, failed before it arrived,
    or done with its answer lost. -/
inductive Called (c : Cluster) (r : Req) : Cluster → Resp r → Prop where
  | served : Called c r (serve c r).1 (serve c r).2
  | failed : Called c r c (.error .failed)
  | lost : Called c r (serve c r).1 (.error .failed)

/-- What everybody else does. -/
inductive Others (c : Cluster) : Cluster → Prop where
  | create (k : Key) (u : Multiplicador) (h : Stored k u) :
      Others c (createCR c k u)
  | edit (k : Key) (f : Multiplicador → Multiplicador) :
      Others c (editCR c k f)
  | delete (k : Key) (now : String) : Others c (deleteCR c k now)
  | collect (k : Key) : Others c (collectProxy c k)

/-- The rules of a pool of workers, whatever is kept beside the cluster. -/
def rules {ι σ : Type} (calls : σ → (r : Req) → σ → Resp r → Prop)
    (others : σ → σ → Prop) : Rules ι Req Resp Outcome σ where
  serve _ := calls
  env := others
  starts _ _ p := ∃ k, p = reconcileKey k

/-- No worker has a key in hand. -/
def Idle {ι σ : Type} (P : Pool ι Req Resp Outcome σ) : Prop :=
  ∀ i, ∃ o, P.prog i = .ret o

/-- Worker `i` takes the key `k`. -/
def takeKey {ι σ : Type} [DecidableEq ι] (P : Pool ι Req Resp Outcome σ)
    (i : ι) (k : Key) : Pool ι Req Resp Outcome σ :=
  ⟨P.store, Function.update P.prog i (reconcileKey k)⟩

theorem reaches_takeKey {ι σ : Type} [DecidableEq ι]
    {calls : σ → (r : Req) → σ → Resp r → Prop} {others : σ → σ → Prop}
    {P : Pool ι Req Resp Outcome σ} {i : ι} {o : Outcome}
    (h : P.prog i = .ret o) (k : Key) :
    Reaches (rules calls others) P (takeKey P i k) :=
  .single (.start i o _ h ⟨k, rfl⟩)

/-- A call does nothing or makes one write, however it comes out. -/
theorem Called.effect {c c' : Cluster} {r : Req} {x : Resp r}
    (h : Called c r c' x) : Effect c r c' := by
  cases h with
  | served => exact serve_effect c r
  | failed => exact .nothing
  | lost => exact serve_effect c r

/-- A call that succeeds was answered by the server. -/
theorem Called.ok {c c' : Cluster} {r : Req} {x : Resp r} {a : Payload r}
    (h : Called c r c' x) (hx : x = .ok a) : (serve c r).2 = .ok a := by
  cases h with
  | served => exact hx
  | failed => exact absurd hx (by simp)
  | lost => exact absurd hx (by simp)

/-- Failures are within the contract. -/
theorem Called.answers {c c' : Cluster} {r : Req} {x : Resp r}
    (h : Called c r c' x) (hwf : WellFormed c) (s : Knows) :
    Conduct.answers s r x := by
  have herror : Conduct.answers s r (.error .failed) := by
    cases r <;> exact trivial
  cases h with
  | served => exact answers_serve hwf s r
  | failed => exact herror
  | lost => exact herror

theorem Others.wellFormed {c c' : Cluster} (h : Others c c')
    (hwf : WellFormed c) : WellFormed c' := by
  cases h with
  | create k u hu => exact wellFormed_createCR hwf hu
  | edit k f => exact wellFormed_editCR hwf k f
  | delete k now => exact wellFormed_deleteCR hwf k now
  | collect k => exact wellFormed_collectProxy hwf k

/-- What everybody else does only moves versions forward. -/
theorem Others.later {c c' : Cluster} (h : Others c c') : Later c c' := by
  cases h with
  | create k u hu => exact later_createCR c k u
  | edit k f => exact later_editCR c k f
  | delete k now => exact later_deleteCR c k now
  | collect k => exact later_collectProxy c k

/-- What a worker has read of its CR is a snapshot, whatever came since. -/
def CRRead (c : Cluster) (s : Knows) : Prop :=
  ∀ u, s.cr = some u → Snapshot c.crs c.rev s.key u

theorem CRRead.later {c c' : Cluster} {s : Knows} (h : CRRead c s)
    (hl : Later c c') : CRRead c' s :=
  fun u hu => (h u hu).advance hl.crs

/-- **POOL INVARIANT**: what the contract and the rules keep together is so in
    every state that a pool of idle workers can reach. -/
theorem invariant_of_reaches {ι σ : Type} [DecidableEq ι]
    {calls : σ → (r : Req) → σ → Resp r → Prop} {others : σ → σ → Prop}
    {I : σ → Prop} {R : σ → Knows → Prop}
    (hfresh : ∀ st k, R st (Knows.fresh k false))
    (hcall : ∀ st s r st' x, I st → R st s → allowed s r → calls st r st' x →
      answers s r x ∧ I st' ∧ R st' (next s r x)
        ∧ ∀ s', R st s' → R st' s')
    (hothers : ∀ st st', I st → others st st' →
      I st' ∧ ∀ s, R st s → R st' s)
    {P₀ P : Pool ι Req Resp Outcome σ} (hidle : Idle P₀) (h₀ : I P₀.store)
    (h : Reaches (rules calls others) P₀ P) : I P.store := by
  have hK : Keeps (rules calls others) conduct
      (fun st (g : ι → Knows) => I st ∧ ∀ i, R st (g i))
      (fun _ _ _ => True) := by
    refine ⟨?_, ?_, ?_⟩
    · rintro st g i r st' x ⟨hI, hR⟩ hr hs
      obtain ⟨hans, hI', hnext, hkeep⟩ := hcall st (g i) r st' x hI (hR i) hr hs
      refine ⟨hans, hI', ?_⟩
      intro j
      by_cases hj : j = i
      · subst hj
        rw [Function.update_self]
        exact hnext
      · rw [Function.update_of_ne hj]
        exact hkeep _ (hR j)
    · rintro st g st' ⟨hI, hR⟩ hs
      obtain ⟨hI', hkeep⟩ := hothers st st' hI hs
      exact ⟨hI', fun i => hkeep _ (hR i)⟩
    · rintro st g i a p ⟨hI, hR⟩ - ⟨k, rfl⟩
      refine ⟨Knows.fresh k false, ⟨hI, ?_⟩,
        (obeys_reconcileKey k false).mono fun _ _ _ => trivial⟩
      intro j
      by_cases hj : j = i
      · subst hj
        rw [Function.update_self]
        exact hfresh st k
      · rw [Function.update_of_ne hj]
        exact hR j
  have hF : Fits conduct (fun st (g : ι → Knows) => I st ∧ ∀ i, R st (g i))
      (fun _ _ _ => True) P₀ := by
    refine ⟨fun _ => Knows.fresh ("", "") false, ⟨h₀, fun _ => hfresh _ _⟩, ?_⟩
    intro i
    obtain ⟨o, ho⟩ := hidle i
    rw [ho]
    exact trivial
  obtain ⟨g, ⟨hI, -⟩, -⟩ := fits_of_reaches hK h hF
  exact hI

end OperatorPool
