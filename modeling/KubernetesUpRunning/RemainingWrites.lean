import KubernetesUpRunning.Neighbours

/-! # How many writes a CR still needs

    A reconcile writes its CR and its Deployment, and each such write brings the
    CR back into the queue.  `remaining` counts what the reconciler has still to
    write: the annotations, the record of the proxy, the finalizer, the status
    and the Deployment.  A reconcile takes at least one away for every object it
    changes (`remaining_reconcileNow`), whatever other CRs have done to the
    HTTPProxies; one that changes neither leaves the CR `Calm`. -/

namespace RemainingWrites

open ApiServer AssocMap ClusterRuns FixedPoint GoJson Idempotence KubeObjects
open Neighbours ProxyShape Reconcile ReconcileEffect ReconcileRun ServerSteps
open VersionedStore

/-- One write for what is not yet so. -/
def lacking (p : Prop) [Decidable p] : Nat := if p then 0 else 1

theorem lacking_of {p : Prop} [Decidable p] (h : p) : lacking p = 0 := if_pos h

theorem lacking_of_not {p : Prop} [Decidable p] (h : ¬ p) : lacking p = 1 :=
  if_neg h

theorem lacking_le (p : Prop) [Decidable p] : lacking p ≤ 1 := by
  rw [lacking]
  split <;> omega

theorem lacking_congr {p q : Prop} [Decidable p] [Decidable q] (h : p ↔ q) :
    lacking p = lacking q := by
  by_cases hp : p
  · rw [lacking_of hp, lacking_of (h.mp hp)]
  · rw [lacking_of_not hp, lacking_of_not fun hq => hp (h.mpr hq)]

theorem lacking_mono {p q : Prop} [Decidable p] [Decidable q] (h : p → q) :
    lacking q ≤ lacking p := by
  by_cases hp : p
  · rw [lacking_of (h hp)]
    exact Nat.zero_le _
  · rw [lacking_of_not hp]
    exact lacking_le q

/-! ## When the writes of the CR are done -/

theorem recorded_eq_self_iff {u : Multiplicador} :
    recorded u = u ↔ ∃ a, u.annotations = some a
      ∧ a.lookup annProxy = some (proxyNameOf u)
      ∧ a.lookup annProxyRoute = some (prefixOf u) := by
  constructor
  · intro h
    have ha := congrArg Multiplicador.annotations h
    refine ⟨_, ha.symm, ?_, lookup_setKey_self _ _ _⟩
    rw [lookup_setKey_of_ne (by decide), lookup_setKey_self]
  · rintro ⟨a, ha, hp, hroute⟩
    have hann : u.ann = a := by rw [Multiplicador.ann, ha]; rfl
    rw [recorded, hann, setKey_eq_self hp, setKey_eq_self hroute,
      Multiplicador.setAnnotations, ← ha]

theorem withReady_eq_self_iff {u : Multiplicador} :
    withReady u = u ↔ u.status = some (readyStatus u) := by
  constructor
  · exact fun h => (congrArg Multiplicador.status h).symm
  · exact fun h => by rw [withReady, ← h]

/-- The annotations do not touch the record. -/
theorem recorded_annotated {u : Multiplicador} :
    recorded (annotated u) = annotated u ↔ recorded u = u := by
  have hread : ∀ key, key ≠ annValid → key ≠ annMultiplicador →
      (setKey annMultiplicador (sprintD u.multiplicador)
        (setKey annValid "true" u.ann)).lookup key = u.ann.lookup key := by
    intro key h₁ h₂
    rw [lookup_setKey_of_ne h₂, lookup_setKey_of_ne h₁]
  rw [recorded_eq_self_iff, recorded_eq_self_iff]
  constructor
  · rintro ⟨a, ha, hp, hroute⟩
    obtain rfl := Option.some.inj ha
    rw [hread _ (by decide) (by decide)] at hp hroute
    cases hann : u.annotations with
    | none =>
        rw [Multiplicador.ann, hann] at hp
        exact absurd hp (by simp)
    | some b =>
        rw [Multiplicador.ann, hann] at hp hroute
        exact ⟨b, rfl, hp, hroute⟩
  · rintro ⟨a, ha, hp, hroute⟩
    have hann : u.ann = a := by rw [Multiplicador.ann, ha]; rfl
    refine ⟨_, rfl, ?_, ?_⟩
    · rw [hread _ (by decide) (by decide), hann]
      exact hp
    · rw [hread _ (by decide) (by decide), hann]
      exact hroute

theorem recorded_recorded (u : Multiplicador) :
    recorded (recorded u) = recorded u := by
  refine recorded_eq_self_iff.mpr ⟨_, rfl, ?_, lookup_setKey_self _ _ _⟩
  rw [lookup_setKey_of_ne (by decide), lookup_setKey_self]
  rfl

/-- The finalizer does not touch the record. -/
theorem recorded_withFinalizer {u : Multiplicador} :
    recorded (withFinalizer u) = withFinalizer u ↔ recorded u = u := by
  have hsame : proxyNameOf (withFinalizer u) = proxyNameOf u
      ∧ prefixOf (withFinalizer u) = prefixOf u := by
    rw [withFinalizer]
    split <;> exact ⟨rfl, rfl⟩
  rw [recorded_eq_self_iff, recorded_eq_self_iff, withFinalizer_annotations,
    hsame.1, hsame.2]

/-! ## The count -/

/-- What the reconciler has still to write into a CR that is active. -/
def activeWrites (u : Multiplicador) : Nat :=
  lacking (annotated u = u) + lacking (u.ruta ≠ "" → recorded u = u)
    + lacking (u.ruta ≠ "" → finalizerName ∈ u.finalizers)
    + lacking (withReady u = u)

/-- What the reconciler has still to write into a CR. -/
def crWrites (u : Multiplicador) : Nat :=
  if u.deletionTimestamp.isSome then lacking (finalizerName ∉ u.finalizers)
  else if u.multiplicador ≤ 0 then lacking (markedInvalid u = u)
  else activeWrites u

/-- The Deployment is the one that a reconcile leaves. -/
def Deployed (u : Multiplicador) (d : Option Deployment) : Prop :=
  active u = true → d = some (deploymentAfter u d)

instance (u : Multiplicador) (d : Option Deployment) :
    Decidable (Deployed u d) := inferInstanceAs (Decidable (_ → _))

/-- What the reconciler has still to write for the CR at `k`. -/
def remaining (c : Cluster) (k : Key) : Nat :=
  match content c.crs k with
  | none => 0
  | some u =>
      crWrites u + lacking (Deployed u (content c.deployments (deploymentKey k)))

/-- Five writes are enough. -/
theorem remaining_le (c : Cluster) (k : Key) : remaining c k ≤ 5 := by
  rw [remaining]
  split
  · omega
  · rename_i u hu
    have hd := lacking_le (Deployed u (content c.deployments (deploymentKey k)))
    have hcr : crWrites u ≤ 4 := by
      rw [crWrites]
      split
      · exact (lacking_le _).trans (by omega)
      · split
        · exact (lacking_le _).trans (by omega)
        · have h₁ := lacking_le (annotated u = u)
          have h₂ := lacking_le (u.ruta ≠ "" → recorded u = u)
          have h₃ := lacking_le (u.ruta ≠ "" → finalizerName ∈ u.finalizers)
          have h₄ := lacking_le (withReady u = u)
          rw [activeWrites]
          omega
    omega

/-! ## One write less -/

section Writes

variable {u : Multiplicador}

theorem withReady_annotated :
    withReady (annotated u) = annotated u ↔ withReady u = u := by
  rw [withReady_eq_self_iff, withReady_eq_self_iff]
  exact Iff.rfl

/-- The first write: the annotations. -/
theorem activeWrites_annotated (h : annotated u ≠ u) :
    activeWrites (annotated u) + 1 = activeWrites u := by
  have hrec : lacking ((annotated u).ruta ≠ "" →
        recorded (annotated u) = annotated u)
      = lacking (u.ruta ≠ "" → recorded u = u) :=
    lacking_congr (imp_congr Iff.rfl recorded_annotated)
  have hfin : lacking ((annotated u).ruta ≠ "" →
        finalizerName ∈ (annotated u).finalizers)
      = lacking (u.ruta ≠ "" → finalizerName ∈ u.finalizers) :=
    lacking_congr Iff.rfl
  rw [activeWrites, activeWrites, lacking_of (annotated_annotated u),
    lacking_of_not h, hrec, hfin, lacking_congr withReady_annotated]
  omega

/-- The status. -/
theorem activeWrites_withReady (h : withReady u ≠ u) :
    activeWrites (withReady u) + 1 ≤ activeWrites u := by
  have hann : annotated u = u → annotated (withReady u) = withReady u :=
    annotated_withReady
  have hrec : (u.ruta ≠ "" → recorded u = u) →
      ((withReady u).ruta ≠ "" → recorded (withReady u) = withReady u) := by
    intro hr hruta
    obtain ⟨a, ha, hp, hroute⟩ := recorded_eq_self_iff.mp (hr hruta)
    exact recorded_eq_self_iff.mpr ⟨a, ha, hp, hroute⟩
  have h₁ := lacking_mono hann
  have h₂ := lacking_mono hrec
  have h₃ : lacking ((withReady u).ruta ≠ "" →
        finalizerName ∈ (withReady u).finalizers)
      = lacking (u.ruta ≠ "" → finalizerName ∈ u.finalizers) :=
    lacking_congr Iff.rfl
  rw [activeWrites, activeWrites, h₃, lacking_of_not h,
    lacking_of (show withReady (withReady u) = withReady u from rfl)]
  omega

/-- The record, with the finalizer when the proxy was there before. -/
theorem activeWrites_settled {o : Option Fields} (hann : annotated u = u)
    (hr : u.ruta ≠ "") (h : settled u o ≠ u) :
    activeWrites (settled u o) + 1 ≤ activeWrites u := by
  have hcont := continues_settled u o
  have hruta : (settled u o).ruta = u.ruta := by
    obtain ⟨⟨a, f, s, heq⟩, -⟩ := hcont
    rw [heq]
    rfl
  have hready : withReady (settled u o) = settled u o ↔ withReady u = u := by
    have hstatus : (settled u o).status = u.status
        ∧ readyStatus (settled u o) = readyStatus u := by
      cases o with
      | none => exact ⟨rfl, rfl⟩
      | some o =>
          rw [settled, withFinalizer]
          split <;> exact ⟨rfl, rfl⟩
    rw [withReady_eq_self_iff, withReady_eq_self_iff, hstatus.1, hstatus.2]
  rw [activeWrites, activeWrites, lacking_of (annotated_settled hann o),
    lacking_of hann, lacking_congr hready, hruta]
  cases o with
  | none =>
      -- without the finalizer, which stays as it is
      have hrec : recorded u ≠ u := h
      have hfin : (settled u none).finalizers = u.finalizers := rfl
      have hlack : ¬ (u.ruta ≠ "" → recorded u = u) := fun hi => hrec (hi hr)
      have hdone : u.ruta ≠ "" → recorded (settled u none) = settled u none :=
        fun _ => recorded_recorded u
      rw [hfin, lacking_of hdone, lacking_of_not hlack]
      omega
  | some o =>
      have hrec : u.ruta ≠ "" →
          recorded (settled u (some o)) = settled u (some o) :=
        fun _ => recorded_withFinalizer.mpr (recorded_recorded u)
      have hfin : u.ruta ≠ "" →
          finalizerName ∈ (settled u (some o)).finalizers :=
        fun _ => mem_withFinalizer (recorded u)
      rw [lacking_of hrec, lacking_of hfin]
      -- one of the two was lacking
      by_cases hold : recorded u = u
      · have hno : finalizerName ∉ u.finalizers := by
          intro hmem
          refine h ?_
          rw [settled, hold, withFinalizer, if_pos hmem]
        rw [lacking_of_not
          (show ¬ (u.ruta ≠ "" → finalizerName ∈ u.finalizers) from
            fun hi => hno (hi hr))]
        omega
      · rw [lacking_of_not (show ¬ (u.ruta ≠ "" → recorded u = u) from
          fun hi => hold (hi hr))]
        omega

theorem activeWrites_recordWrite {P : Key → Option Fields}
    (hann : annotated u = u) (h : recordWrite u P u ≠ u) :
    activeWrites (recordWrite u P u) + 1 ≤ activeWrites u := by
  have hr : u.ruta ≠ "" := by
    intro hr
    rw [recordWrite, if_pos hr] at h
    exact h rfl
  rcases recordWrite_cases u P with heq | ⟨o, heq⟩
  · exact absurd heq h
  · rw [heq] at h ⊢
    exact activeWrites_settled hann hr h

/-- **THE WRITE THAT LANDS** is one that was lacking. -/
theorem activeWrites_crAfter (dep : Option Deployment)
    (P : Key → Option Fields) :
    activeWrites (crAfter u dep P) + lacking (crAfter u dep P = u)
      ≤ activeWrites u := by
  by_cases hsame : crAfter u dep P = u
  · rw [lacking_of hsame, hsame]
    omega
  · rw [lacking_of_not hsame]
    unfold crAfter at hsame ⊢
    split
    · rename_i hann
      exact (activeWrites_annotated hann).le
    · rename_i hann
      have hann' : annotated u = u := by simpa using hann
      rw [if_neg hann] at hsame
      cases dep with
      | none =>
          dsimp only at hsame ⊢
          split
          · rename_i hready
            exact activeWrites_withReady hready
          · rename_i hready
            rw [if_neg hready] at hsame
            exact activeWrites_recordWrite hann' hsame
      | some d =>
          dsimp only at hsame ⊢
          split
          · rename_i hrec
            exact activeWrites_recordWrite hann' hrec
          · rename_i hrec
            rw [if_neg hrec] at hsame
            split
            · rename_i hp
              rw [if_pos hp] at hsame
              exact absurd rfl hsame
            · rename_i hp
              rw [if_neg hp] at hsame
              exact activeWrites_withReady hsame

end Writes

/-! ## One reconcile -/

/-- Deployments that were left by a reconcile stay. -/
theorem deploymentAfter_deploymentAfter (u : Multiplicador)
    (d : Option Deployment) :
    deploymentAfter u (some (deploymentAfter u d)) = deploymentAfter u d :=
  repairDeployment_deploymentAfter u d

section Reconcile

variable {c : Cluster} {k : Key} {u : Versioned Multiplicador}

/-- The CR has not changed. -/
def SameCR (c c' : Cluster) (k : Key) : Prop :=
  content c'.crs k = content c.crs k

/-- Its Deployment has not changed. -/
def SameDeployment (c c' : Cluster) (k : Key) : Prop :=
  content c'.deployments (deploymentKey k)
    = content c.deployments (deploymentKey k)

instance (c c' : Cluster) (k : Key) : Decidable (SameCR c c' k) :=
  inferInstanceAs (Decidable (_ = _))

instance (c c' : Cluster) (k : Key) : Decidable (SameDeployment c c' k) :=
  inferInstanceAs (Decidable (_ = _))

/-- A reconcile leaves the Deployment that its CR wants. -/
theorem deployed_reconcileNow (h : WellFormed c) (hk : c.crs k = some u)
    {w : Multiplicador} (hw : SameClaims u.obj w) :
    Deployed w
      (content (reconcileNow c k).deployments (deploymentKey k)) := by
  intro ha
  have hact : active u.obj = true := hw.active.symm.trans ha
  obtain ⟨⟨a, f, s, rfl⟩, -⟩ := hw
  rw [reconcileNow_deployments h hk, if_pos hact, Function.update_self]
  exact congrArg some (deploymentAfter_deploymentAfter u.obj _).symm

/-- It changes the Deployment only when it was another one. -/
theorem sameDeployment_of_deployed (h : WellFormed c) (hk : c.crs k = some u)
    (hd : Deployed u.obj (content c.deployments (deploymentKey k))) :
    SameDeployment c (reconcileNow c k) k := by
  rw [SameDeployment, reconcileNow_deployments h hk]
  split
  · rename_i ha
    rw [Function.update_self]
    exact (hd ha).symm
  · rfl

/-- What the count of the CR itself loses. -/
theorem crWrites_crNext {u w : Multiplicador} {dep : Option Deployment}
    {P : Key → Option Fields} (h : crNext u dep P = some w) :
    crWrites w + lacking (w = u) ≤ crWrites u := by
  rw [crNext] at h
  by_cases hdel : u.deletionTimestamp.isSome = true
  · rw [if_pos hdel] at h
    by_cases hfin : finalizerName ∈ u.finalizers
    · rw [if_pos hfin, admitCR] at h
      split at h
      · exact absurd h (by simp)
      · have hw := Option.some.inj h
        have hgone : finalizerName ∉ w.finalizers := by
          rw [← hw]
          simp [withoutFinalizer]
        have hwdel : w.deletionTimestamp.isSome = true := by
          rw [← hw]
          exact hdel
        have hheld : ¬ finalizerName ∉ u.finalizers := fun hn => hn hfin
        rw [crWrites, crWrites, if_pos hwdel, if_pos hdel, lacking_of hgone,
          lacking_of_not hheld]
        have hle := lacking_le (w = u)
        omega
    · rw [if_neg hfin] at h
      have hw := Option.some.inj h
      rw [← hw, lacking_of rfl]
      omega
  · rw [if_neg hdel] at h
    by_cases hpos : u.multiplicador ≤ 0
    · rw [if_pos hpos] at h
      have hw := Option.some.inj h
      have hwdel : ¬ w.deletionTimestamp.isSome = true := by
        rw [← hw]
        exact hdel
      have hwpos : w.multiplicador ≤ 0 := by
        rw [← hw]
        exact hpos
      have hmarked : markedInvalid w = w := by
        rw [← hw]
        rfl
      rw [crWrites, crWrites, if_neg hwdel, if_neg hdel, if_pos hwpos,
        if_pos hpos, lacking_of hmarked, hw, Nat.zero_add]
    · rw [if_neg hpos] at h
      have hw := Option.some.inj h
      have hcont := continues_crAfter u dep P
      rw [hw] at hcont
      have hwdel : ¬ w.deletionTimestamp.isSome = true := by
        rw [deletionTimestamp_of_continues hcont]
        exact hdel
      have hwpos : ¬ w.multiplicador ≤ 0 := by
        rw [multiplicador_of_continues hcont]
        exact hpos
      rw [crWrites, crWrites, if_neg hwdel, if_neg hdel, if_neg hwpos,
        if_neg hpos, ← hw]
      exact activeWrites_crAfter dep P

/-- **EVERY CHANGE COUNTS**: a reconcile has at least one write less to do for
    each of the two objects that it changes. -/
theorem remaining_reconcileNow (h : WellFormed c) :
    remaining (reconcileNow c k) k
        + lacking (SameCR c (reconcileNow c k) k)
        + lacking (SameDeployment c (reconcileNow c k) k)
      ≤ remaining c k := by
  cases hk : c.crs k with
  | none =>
      have hcr : SameCR c c k := rfl
      have hdep : SameDeployment c c k := rfl
      rw [reconcileNow_of_none hk, lacking_of hcr, lacking_of hdep]
      omega
  | some u =>
      have hnext := reconcileNow_cr h hk
      have hold : content c.crs k = some u.obj := content_of_some hk
      have hdep := lacking_mono (sameDeployment_of_deployed h hk)
      -- the count before the reconcile
      have hbefore : remaining c k = crWrites u.obj
          + lacking (Deployed u.obj
            (content c.deployments (deploymentKey k))) := by
        rw [remaining, hold]
      cases hw : crNext u.obj (content c.deployments (k.1, deplNameOf k.2))
          (content c.proxies) with
      | none =>
          -- the CR goes with its finalizer
          rw [hw] at hnext
          have hvan := crNext_eq_none.mp hw
          rw [vanishes, Bool.and_eq_true, decide_eq_true_eq] at hvan
          have hheld : ¬ finalizerName ∉ u.obj.finalizers :=
            fun hn => hn hvan.2.1
          have hafter : remaining (reconcileNow c k) k = 0 := by
            rw [remaining, hnext]
          have hone : crWrites u.obj = 1 := by
            rw [crWrites, if_pos hvan.1, lacking_of_not hheld]
          have hle := lacking_le (SameCR c (reconcileNow c k) k)
          omega
      | some w =>
          rw [hw] at hnext
          have hcr := crWrites_crNext hw
          have hafter : remaining (reconcileNow c k) k = crWrites w := by
            rw [remaining, hnext]
            dsimp only
            rw [lacking_of (deployed_reconcileNow h hk (sameClaims_crNext hw))]
            rfl
          have hiff : SameCR c (reconcileNow c k) k ↔ w = u.obj := by
            rw [SameCR, hnext, hold]
            simp
          have hlack := lacking_congr hiff
          omega

/-- The others have as much to write as before. -/
theorem remaining_of_ne {k' : Key} (h : WellFormed c) (hk : k' ≠ k) :
    remaining (reconcileNow c k) k' = remaining c k' := by
  have hdep : deploymentKey k' ≠ deploymentKey k :=
    fun e => hk (deploymentKey_inj.mp e)
  have hcr : content (reconcileNow c k).crs k' = content c.crs k' :=
    congrArg (Option.map _) (reconcileNow_crs_of_ne h hk)
  rw [remaining, remaining, hcr, reconcileNow_deployments_of_ne h hdep]

end Reconcile

/-! ## Nothing more to write -/

/-- The reconciler has nothing to write for the CR but perhaps the finalizer,
    and its children are in place. -/
structure Calm (c : Cluster) (u : Multiplicador) : Prop where
  released : u.deletionTimestamp.isSome = true → finalizerName ∉ u.finalizers
  refused : u.deletionTimestamp = none → u.multiplicador ≤ 0 →
    markedInvalid u = u
  annotated : active u = true → annotated u = u
  recorded : joins u = true → recorded u = u
  ready : active u = true → withReady u = u
  deployment : active u = true → ∃ d,
    content c.deployments (nsOf u, deplNameOf u.name) = some d
      ∧ repairDeployment u d = d
  service : active u = true → ∃ s,
    content c.services (nsOf u, svcNameOf u.name) = some s
      ∧ repairService u s = s
  owned : joins u = true → OwnedBy u.uid (content c.proxies (targetKey u))

/-- A write of the record that changes nothing. -/
theorem recorded_of_recordWrite {u : Multiplicador} {P : Key → Option Fields}
    {m : Fields} (hr : u.ruta ≠ "")
    (hm : mergeContent u (leaveProxies u P (targetKey u)) = some m)
    (h : recordWrite u P u = u) : recorded u = u := by
  have hm' : mergeContent u (leaveProxies u P (nsOf u, proxyNameOf u))
      = some m := hm
  rw [recordWrite, if_neg hr, hm'] at h
  dsimp only at h
  rw [mainWrite_settled] at h
  cases ho : leaveProxies u P (nsOf u, proxyNameOf u) with
  | none =>
      rw [ho] at h
      exact h
  | some o =>
      rw [ho, settled] at h
      have hrec := recorded_withFinalizer.mpr (recorded_recorded u)
      rw [h] at hrec
      exact hrec

section Calm

variable {c : Cluster} {k : Key} {u : Versioned Multiplicador}

/-- An active CR that its reconcile leaves as it is. -/
theorem marks_of_same {u : Multiplicador} {dep : Option Deployment}
    {P : Key → Option Fields} {m : Fields} (h : crAfter u dep P = u)
    (hm : mergeContent u (leaveProxies u P (targetKey u)) = some m) :
    annotated u = u ∧ withReady u = u ∧ (u.ruta ≠ "" → recorded u = u) := by
  have hann : annotated u = u := by
    by_contra hne
    unfold crAfter at h
    rw [if_pos hne] at h
    exact hne h
  unfold crAfter at h
  rw [if_neg (by simpa using hann)] at h
  cases dep with
  | none =>
      dsimp only at h
      have hready : withReady u = u := by
        by_contra hne
        rw [if_pos hne] at h
        exact hne h
      rw [if_neg (by simpa using hready)] at h
      exact ⟨hann, hready, fun hr => recorded_of_recordWrite hr hm h⟩
  | some d =>
      dsimp only at h
      have hrec : recordWrite u P u = u := by
        by_contra hne
        rw [if_pos hne] at h
        exact hne h
      have hp : panics u P = false := by
        rw [panics]
        have hm' : mergeContent u (leaveProxies u P (nsOf u, proxyNameOf u))
            = some m := hm
        rw [hm']
        simp
      rw [if_neg (by simpa using hrec), hp] at h
      exact ⟨hann, h, fun hr => recorded_of_recordWrite hr hm hrec⟩

/-- **A RECONCILE THAT LEAVES ITS CR** as it was had nothing more to write. -/
theorem calm_of_same (h : WellFormed c) (hmaps : HaveMaps c)
    (hk : c.crs k = some u) (hsame : SameCR c (reconcileNow c k) k) :
    Calm (reconcileNow c k) u.obj := by
  have hn := h.stored k u hk
  have hnext := reconcileNow_cr h hk
  rw [hsame, content_of_some hk] at hnext
  by_cases hdel : u.obj.deletionTimestamp.isSome = true
  · have hnot : active u.obj ≠ true := by
      intro ha
      rw [(active_iff.mp ha).1] at hdel
      exact absurd hdel (by simp)
    refine ⟨fun _ => ?_, fun hn => ?_, fun ha => absurd ha hnot,
      fun hj => absurd (joins_iff.mp hj).1 hnot, fun ha => absurd ha hnot,
      fun ha => absurd ha hnot, fun ha => absurd ha hnot,
      fun hj => absurd (joins_iff.mp hj).1 hnot⟩
    · intro hmem
      rw [crNext, if_pos hdel, if_pos hmem, admitCR] at hnext
      split at hnext
      · exact absurd hnext (by simp)
      · have hfin := congrArg Multiplicador.finalizers (Option.some.inj hnext)
        have hgone : finalizerName ∉ (withoutFinalizer u.obj).finalizers := by
          simp [withoutFinalizer]
        rw [hfin] at hmem
        exact hgone hmem
    · rw [hn] at hdel
      exact absurd hdel (by simp)
  · have hlive : u.obj.deletionTimestamp = none := by simpa using hdel
    have hnodel : u.obj.deletionTimestamp.isSome = true →
        finalizerName ∉ u.obj.finalizers := fun hd => absurd hd hdel
    rw [crNext, if_neg hdel] at hnext
    by_cases hpos : u.obj.multiplicador ≤ 0
    · rw [if_pos hpos] at hnext
      have hnot : active u.obj ≠ true := by
        intro ha
        have hgt := (active_iff.mp ha).2
        omega
      exact ⟨hnodel, fun _ _ => (Option.some.inj hnext).symm,
        fun ha => absurd ha hnot, fun hj => absurd (joins_iff.mp hj).1 hnot,
        fun ha => absurd ha hnot, fun ha => absurd ha hnot,
        fun ha => absurd ha hnot, fun hj => absurd (joins_iff.mp hj).1 hnot⟩
    · rw [if_neg hpos] at hnext
      have hplace := inPlace_reconcileNow hk hlive (by omega) hmaps
      obtain ⟨m, hm⟩ := exists_merge_of_maps hmaps u.obj
      obtain ⟨hann, hready, hrec⟩ :=
        marks_of_same (Option.some.inj hnext).symm hm
      refine ⟨hnodel, fun _ hle => absurd hle hpos, fun _ => hann,
        fun hj => hrec (joins_iff.mp hj).2, fun _ => hready,
        fun _ => hplace.deployment, fun _ => hplace.service, fun hj => ?_⟩
      obtain ⟨x, hx, hserves, -⟩ := hplace.merged (joins_iff.mp hj).2
      exact ⟨x, hx, hserves.owned⟩

/-- The reconciles of other CRs disturb nobody's calm. -/
theorem Calm.kept {k' : Key} {v : Versioned Multiplicador} (h : WellFormed c)
    (hk : c.crs k = some u) (hk' : c.crs k' = some v) (hne : k' ≠ k)
    (huid : v.obj.uid ≠ u.obj.uid) (hc : Calm c u.obj) :
    Calm (reconcileNow c k') u.obj := by
  have hn := h.stored k u hk
  have hdepl : deploymentKey k ≠ deploymentKey k' :=
    fun e => hne (deploymentKey_inj.mp e).symm
  have hsvc : serviceKey k ≠ serviceKey k' :=
    fun e => hne (serviceKey_inj.mp e).symm
  have hwhere : (nsOf u.obj, deplNameOf u.obj.name) = deploymentKey k := by
    rw [hn.nsOf, hn.name]
    rfl
  have hwhere' : (nsOf u.obj, svcNameOf u.obj.name) = serviceKey k := by
    rw [hn.nsOf, hn.name]
    rfl
  refine ⟨hc.released, hc.refused, hc.annotated, hc.recorded, hc.ready,
    fun ha => ?_, fun ha => ?_, fun hj => ?_⟩
  · obtain ⟨d, hd, hfix⟩ := hc.deployment ha
    refine ⟨d, ?_, hfix⟩
    rw [hwhere, reconcileNow_deployments_of_ne h hdepl, ← hwhere]
    exact hd
  · obtain ⟨s, hs, hfix⟩ := hc.service ha
    refine ⟨s, ?_, hfix⟩
    rw [hwhere', reconcileNow_services_of_ne h hsvc, ← hwhere']
    exact hs
  · rw [reconcileNow_proxies hk']
    exact (hc.owned hj).kept huid

end Calm

end RemainingWrites
