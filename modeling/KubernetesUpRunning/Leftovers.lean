import KubernetesUpRunning.ClusterRuns

/-! # What a deleted CR leaves behind

    An HTTPProxy that still has an existing owner should hold no route to the
    service of a CR that is gone.  A CR can go without its routes being taken
    out: the finalizer is added on one of the two ways of getting a route, and
    the cleanup looks only where the record says.  A proxy that nobody owns any
    more can also be adopted, with what it holds, before it is collected.  This
    file says exactly which moves keep the property. -/

namespace Leftovers

open ApiServer ClusterRuns GoJson KubeObjects ProxyShape ProxyView Reconcile
open ReconcileEffect ReconcileRun ServerSteps VersionedStore

/-- A CR of the namespace of `q`, other than the one at `k`, owns the proxy
    at `q`. -/
def OwnedBesides (c : Cluster) (k q : Key) : Prop :=
  ∃ k' v, k' ≠ k ∧ k'.1 = q.1 ∧ c.crs k' = some v
    ∧ ∃ e ∈ ownersAt (content c.proxies) q, ownedBy v.obj.uid e = true

/-- An existing CR owns the proxy at `q`. -/
def Owned (c : Cluster) (q : Key) : Prop :=
  ∃ k v, k.1 = q.1 ∧ c.crs k = some v
    ∧ ∃ e ∈ ownersAt (content c.proxies) q, ownedBy v.obj.uid e = true

/-- No proxy that an existing CR owns holds a route to the service of a CR
    that does not exist. -/
def NothingLeft (c : Cluster) : Prop :=
  ∀ k, c.crs k = none → ∀ q, q.1 = k.1 → Owned c q →
    ∀ r ∈ routesAt (content c.proxies) q,
      pointsTo (svcNameOf k.2) r = false

/-- The reconcile of `u` takes the route `r` out of the proxy at `q`: it lies
    under the recorded prefix in the recorded proxy, or its place in the
    target is taken. -/
def TakenOut (u : Multiplicador) (q : Key) (r : Json) : Prop :=
  (dropsOld u = true ∧ q = oldKey u ∧ prevRoute u ≠ ""
      ∧ firstPrefix r = some (prevRoute u))
    ∨ (joins u = true ∧ q = targetKey u ∧ firstPrefix r = some (prefixOf u))

/-- The move leaves nothing behind: when it makes a CR vanish, the routes to
    its service are taken out or nobody else owns the proxy; when it makes a
    CR the owner of its target, the routes there to services of CRs that do
    not exist are taken out. -/
def TidiesUp (w : World) : Move → Prop
  | .delete k _ => ∀ v, w.cluster.crs k = some v → v.obj.finalizers = [] →
      ∀ q, q.1 = k.1 → OwnedBesides w.cluster k q →
        ∀ r ∈ routesAt (content w.cluster.proxies) q,
          pointsTo (svcNameOf k.2) r = false
  | .reconcile k => ∀ v, w.cluster.crs k = some v →
      (vanishes v.obj = true → ∀ q, q.1 = k.1 →
        OwnedBesides w.cluster k q →
        ∀ r ∈ routesAt (content w.cluster.proxies) q,
          pointsTo (svcNameOf k.2) r = true → TakenOut v.obj q r) ∧
      (joins v.obj = true → ∀ k', k'.1 = k.1 → w.cluster.crs k' = none →
        ∀ r ∈ routesAt (content w.cluster.proxies) (targetKey v.obj),
          pointsTo (svcNameOf k'.2) r = true →
          TakenOut v.obj (targetKey v.obj) r)
  | _ => True

/-- Owner entries carry uids that were given to CRs. -/
def OwnersIssued (w : World) : Prop :=
  ∀ q, ∀ e ∈ ownersAt (content w.cluster.proxies) q,
    ∀ uid, ownedBy uid e = true → uid ∈ w.issued

/-! ## Moves that add nothing -/

/-- The later cluster has the same CRs, and no more owners and routes. -/
structure NoMore (c c' : Cluster) : Prop where
  gone : ∀ k, c'.crs k = none → c.crs k = none
  uids : SameUids c c'
  owners : ∀ q, ∀ e ∈ ownersAt (content c'.proxies) q,
    e ∈ ownersAt (content c.proxies) q
  routes : ∀ q, ∀ r ∈ routesAt (content c'.proxies) q,
    r ∈ routesAt (content c.proxies) q

theorem NothingLeft.of_noMore {c c' : Cluster} (h : NothingLeft c)
    (hm : NoMore c c') : NothingLeft c' := by
  intro k hk q hq howned r hr
  obtain ⟨k', v', hns, hv', e, he, hown⟩ := howned
  obtain ⟨v, hv, huid⟩ := hm.uids k' v' hv'
  refine h k (hm.gone k hk) q hq ⟨k', v, hns, hv, e, hm.owners q e he, ?_⟩ r
    (hm.routes q r hr)
  rw [huid]
  exact hown

/-- Writing a CR that is there, and stays. -/
theorem noMore_write {c : Cluster} {k : Key} {old : Versioned Multiplicador}
    {x : Multiplicador} (hold : c.crs k = some old)
    (hx : x.uid = old.obj.uid) :
    NoMore c (c.putCRs (write c.crs c.rev k (some x))) := by
  refine ⟨?_, sameUids_write hold ?_, fun _ _ he => he, fun _ _ hr => hr⟩
  · intro k' hk'
    by_cases hk : k' = k
    · subst hk
      have hc : content (write c.crs c.rev k' (some x)).1 k' = none :=
        content_of_none hk'
      rw [content_write, Function.update_self] at hc
      exact absurd hc (by simp)
    · have hw : (write c.crs c.rev k (some x)).1 k' = c.crs k' :=
        write_of_ne hk
      exact hw.symm.trans hk'
  · intro y hy
    rw [← Option.some.inj hy]
    exact hx

theorem NoMore.refl (c : Cluster) : NoMore c c :=
  ⟨fun _ h => h, SameUids.refl c, fun _ _ h => h, fun _ _ h => h⟩

/-- An edit of the spec. -/
theorem noMore_editSpec {c : Cluster} (h : WellFormed c) (k : Key)
    (spec : Option Json) : NoMore c (editSpec c k spec) := by
  rw [editSpec, editCR]
  split
  · rename_i v hv
    have hadmit : ∃ x, admitCR { v.obj with spec := spec } v.obj = some x
        ∧ x.uid = v.obj.uid := by
      rw [admitCR]
      split
      · rename_i hgo
        exact absurd hgo.2 ((h.stored k v hv).waits hgo.1)
      · exact ⟨_, rfl, rfl⟩
    obtain ⟨x, hx, huid⟩ := hadmit
    rw [hx]
    exact noMore_write hv huid
  · exact NoMore.refl c

/-- The garbage collector only takes away. -/
theorem noMore_collectProxy (c : Cluster) (k : Key) :
    NoMore c (collectProxy c k) := by
  have hcr := collectProxy_crs c k
  have hsub : ∀ q o', content (collectProxy c k).proxies q = some o' →
      ∃ o, content c.proxies q = some o
        ∧ (∀ e ∈ ownersOf o', e ∈ ownersOf o)
        ∧ (∀ r ∈ routesOf o', r ∈ routesOf o) := by
    intro q o' ho'
    rw [collectProxy] at ho'
    split at ho'
    · exact ⟨o', ho', fun _ h => h, fun _ h => h⟩
    · rename_i v hv
      split at ho'
      · exact ⟨o', ho', fun _ h => h, fun _ h => h⟩
      · have hw : ∀ new, content (c.putProxies
            (write c.proxies c.rev k new)).proxies
            = Function.update (content c.proxies) k new :=
          fun new => content_write c.proxies c.rev k new
        by_cases hq : q = k
        · subst hq
          split at ho'
          · rw [hw, Function.update_self] at ho'
            exact absurd ho' (by simp)
          · rw [hw, Function.update_self] at ho'
            refine ⟨v.obj, content_of_some hv, ?_⟩
            rw [← Option.some.inj ho']
            exact dropDangling_sub c q.1 v.obj
        · split at ho' <;>
          · rw [hw, Function.update_of_ne hq] at ho'
            exact ⟨o', ho', fun _ h => h, fun _ h => h⟩
  refine ⟨?_, ?_, ?_, ?_⟩
  · intro q hq
    rwa [hcr] at hq
  · intro q v hv
    rw [hcr] at hv
    exact ⟨v, hv, rfl⟩
  · intro q e he
    cases hq : content (collectProxy c k).proxies q with
    | none => rw [ownersAt, hq] at he; exact absurd he List.not_mem_nil
    | some o' =>
        obtain ⟨o, ho, howners, -⟩ := hsub q o' hq
        rw [ownersAt, hq] at he
        rw [ownersAt, ho]
        exact howners e he
  · intro q r hr
    cases hq : content (collectProxy c k).proxies q with
    | none => rw [routesAt, hq] at hr; exact absurd hr List.not_mem_nil
    | some o' =>
        obtain ⟨o, ho, -, hroutes⟩ := hsub q o' hq
        rw [routesAt, hq] at hr
        rw [routesAt, ho]
        exact hroutes r hr

/-! ## A reconcile -/

section Reconcile

variable {c : Cluster} {k : Key} {v : Versioned Multiplicador}

/-- The CR is gone after its reconcile exactly when its last finalizer went. -/
theorem gone_reconcileNow (h : WellFormed c) (hk : c.crs k = some v) :
    (reconcileNow c k).crs k = none ↔ vanishes v.obj = true := by
  rw [← crNext_eq_none, ← reconcileNow_cr h hk]
  simp [content]

/-- A CR that is served is not being deleted. -/
theorem joins_of_vanishes {u : Multiplicador} (hv : vanishes u = true) :
    joins u = false := by
  simp only [vanishes, Bool.and_eq_true] at hv
  simp only [joins, Bool.and_eq_false_iff]
  refine Or.inl (Or.inl ?_)
  simpa using hv.1

/-- A route is there after the reconcile unless it is taken out. -/
theorem route_after (hP : Shaped (content c.proxies))
    (hk : c.crs k = some v) {q : Key} {r : Json}
    (hr : r ∈ routesAt (content c.proxies) q) (ht : ¬ TakenOut v.obj q r) :
    r ∈ routesAt (content (reconcileNow c k).proxies) q := by
  rw [reconcileNow_proxies hk]
  exact (mem_routesAt_proxiesAfter hP).mpr
    (Or.inr ⟨hr, fun h => ht (Or.inl h), fun h => ht (Or.inr h)⟩)

/-- A route that is there afterwards is the CR's own, or was there and is not
    taken out. -/
theorem route_before (hP : Shaped (content c.proxies))
    (hk : c.crs k = some v) {q : Key} {r : Json}
    (hr : r ∈ routesAt (content (reconcileNow c k).proxies) q) :
    (joins v.obj = true ∧ q = targetKey v.obj ∧ r = routeFor v.obj)
      ∨ (r ∈ routesAt (content c.proxies) q ∧ ¬ TakenOut v.obj q r) := by
  rw [reconcileNow_proxies hk] at hr
  rcases (mem_routesAt_proxiesAfter hP).mp hr with h | ⟨hmem, h₁, h₂⟩
  · exact Or.inl h
  · refine Or.inr ⟨hmem, ?_⟩
    rintro (h | h)
    · exact h₁ h
    · exact h₂ h

end Reconcile

/-- **ONE RECONCILE** leaves nothing behind exactly when it tidies up. -/
theorem nothingLeft_reconcile {w : World} (hs : Sound w)
    (hn : NothingLeft w.cluster) (k : Key) :
    NothingLeft (reconcileNow w.cluster k) ↔ TidiesUp w (.reconcile k) := by
  cases hk : w.cluster.crs k with
  | none =>
      rw [reconcileNow_of_none hk]
      constructor
      · intro _ v hv
        exact absurd (hk.symm.trans hv) (by simp)
      · exact fun _ => hn
  | some v =>
      have hP := hs.shaped
      have hst := hs.wellFormed.stored k v hk
      have hgone := gone_reconcileNow hs.wellFormed hk
      have hothers : ∀ k', k' ≠ k →
          (reconcileNow w.cluster k).crs k' = w.cluster.crs k' :=
        fun k' hne => reconcileNow_crs_of_ne hs.wellFormed hne
      have hprox : content (reconcileNow w.cluster k).proxies
          = proxiesAfter v.obj (content w.cluster.proxies) :=
        reconcileNow_proxies hk
      constructor
      · -- what is not taken out is found afterwards
        intro hn' v₁ hv₁
        obtain rfl := Option.some.inj (hk.symm.trans hv₁)
        constructor
        · rintro hvan q hq ⟨k', v', hne, hns, hv', e, he, hown⟩ r hr hp
          by_contra htake
          have hr' := route_after hP hk hr htake
          have hforeign : ownedBy v.obj.uid e = false := by
            have huid : v'.obj.uid ≠ v.obj.uid := fun h =>
              hne (hs.distinct k' k v' v hv' hk h)
            rw [ownedBy_iff] at hown
            simpa [ownedBy, hown] using huid
          have he' : e ∈ ownersAt
              (content (reconcileNow w.cluster k).proxies) q := by
            rw [hprox]
            exact owner_after_of_ne hP he hforeign
          have hfalse := hn' k (hgone.mpr hvan) q hq
            ⟨k', v', hns, (hothers k' hne).trans hv', e, he', hown⟩ r hr'
          exact absurd (hfalse.symm.trans hp) (by simp)
        · intro hj k' hns hk' r hr hp
          by_contra htake
          have hr' := route_after hP hk hr htake
          have hne : k' ≠ k := by
            rintro rfl
            exact absurd (hk'.symm.trans hk) (by simp)
          -- the CR is still there, and owns its target now
          have hstays : (reconcileNow w.cluster k).crs k ≠ none := by
            intro h
            have hvan := hgone.mp h
            exact absurd ((joins_of_vanishes hvan).symm.trans hj) (by simp)
          obtain ⟨v', hv'⟩ := Option.ne_none_iff_exists'.mp hstays
          obtain ⟨v₀, hv₀, huid⟩ :=
            sameUids_reconcileNow w.cluster k k v' hv'
          obtain rfl := Option.some.inj (hk.symm.trans hv₀)
          obtain ⟨e, he, hown⟩ := owner_joined hP hj
          rw [← hprox] at he
          rw [huid] at hown
          have hq : (targetKey v.obj).1 = k.1 := hst.nsOf
          have hfalse := hn' k' ((hothers k' hne).trans hk')
            (targetKey v.obj) (hq.trans hns.symm)
            ⟨k, v', hq.symm, hv', e, he, hown⟩ r hr'
          exact absurd (hfalse.symm.trans hp) (by simp)
      · intro htidy k' hk' q hq howned r hr
        obtain ⟨k₂, v₂, hns₂, hv₂, e, he, hown⟩ := howned
        obtain ⟨u₂, hu₂, huid₂⟩ := sameUids_reconcileNow w.cluster k k₂ v₂ hv₂
        rw [← huid₂] at hown
        by_contra hp
        have hp' : pointsTo (svcNameOf k'.2) r = true := by simpa using hp
        obtain ⟨hvanish, hadopt⟩ := htidy v hk
        rcases route_before hP hk hr with ⟨hj, rfl, rfl⟩ | ⟨hr₀, hkept⟩
        · -- the CR's own route: the CR exists
          rw [pointsTo_routeFor, decide_eq_true_eq, svcNameOf_inj] at hp'
          have hkk : k' = k :=
            Prod.ext (hq.symm.trans hst.nsOf) (hp'.trans hst.name)
          have hvan := hgone.mp (hkk ▸ hk')
          exact absurd ((joins_of_vanishes hvan).symm.trans hj) (by simp)
        · rw [hprox] at he
          by_cases hkk : k' = k
          · -- the CR itself is gone, and somebody else owns the proxy
            subst hkk
            have hvan := hgone.mp hk'
            have hne : k₂ ≠ k' := by
              rintro rfl
              exact absurd (hk'.symm.trans hv₂) (by simp)
            rcases owner_of_after hP he with ⟨hj, -, -⟩ | he₀
            · exact absurd ((joins_of_vanishes hvan).symm.trans hj) (by simp)
            · exact hkept (hvanish hvan q hq
                ⟨k₂, u₂, hne, hns₂, hu₂, e, he₀, hown⟩ r hr₀ hp')
          · have hk₀ := (hothers k' hkk).symm.trans hk'
            rcases owner_of_after hP he with ⟨hj, rfl, -⟩ | he₀
            · -- the CR has just adopted the proxy
              exact hkept (hadopt hj k' (hq.symm.trans hst.nsOf) hk₀ r hr₀ hp')
            · have hfalse := hn k' hk₀ q hq
                ⟨k₂, u₂, hns₂, hu₂, e, he₀, hown⟩ r hr₀
              exact hp hfalse

/-! ## A deletion and a creation -/

/-- **ONE DELETION**: a CR with finalizers waits; one without goes at once,
    and leaves nothing behind exactly when nobody shares its routes. -/
theorem nothingLeft_delete {w : World} (hn : NothingLeft w.cluster) (k : Key)
    (now : String) :
    NothingLeft (deleteCR w.cluster k now) ↔ TidiesUp w (.delete k now) := by
  cases hk : w.cluster.crs k with
  | none =>
      have hsame : deleteCR w.cluster k now = w.cluster := by
        rw [deleteCR, hk]
      rw [hsame]
      constructor
      · intro _ v hv
        exact absurd (hk.symm.trans hv) (by simp)
      · exact fun _ => hn
  | some v =>
      by_cases hfin : v.obj.finalizers = []
      · have hdel : deleteCR w.cluster k now
            = w.cluster.putCRs (write w.cluster.crs w.cluster.rev k none) := by
          rw [deleteCR, hk]
          exact if_pos hfin
        have hgone : (deleteCR w.cluster k now).crs k = none := by
          rw [hdel]
          have hc : content (write w.cluster.crs w.cluster.rev k none).1 k
              = none := by
            rw [content_write, Function.update_self]
          exact Option.map_eq_none_iff.mp hc
        have hothers : ∀ k', k' ≠ k →
            (deleteCR w.cluster k now).crs k' = w.cluster.crs k' := by
          intro k' hne
          rw [hdel]
          exact write_of_ne hne
        have hprox := deleteCR_proxies w.cluster k now
        constructor
        · intro hn' v₁ _ _ q hq howned r hr
          obtain ⟨k', v', hne, hns, hv', e, he, hown⟩ := howned
          refine hn' k hgone q hq
            ⟨k', v', hns, (hothers k' hne).trans hv', e, ?_, hown⟩ r ?_
          · rw [hprox]
            exact he
          · rw [hprox]
            exact hr
        · intro htidy k' hk' q hq howned r hr
          obtain ⟨k₂, v₂, hns₂, hv₂, e, he, hown⟩ := howned
          rw [hprox] at he hr
          have hne₂ : k₂ ≠ k := by
            rintro rfl
            exact absurd (hgone.symm.trans hv₂) (by simp)
          rw [hothers k₂ hne₂] at hv₂
          by_cases hkk : k' = k
          · subst hkk
            exact htidy v hk hfin q hq
              ⟨k₂, v₂, hne₂, hns₂, hv₂, e, he, hown⟩ r hr
          · rw [hothers k' hkk] at hk'
            exact hn k' hk' q hq ⟨k₂, v₂, hns₂, hv₂, e, he, hown⟩ r hr
      · let marked : Multiplicador := { v.obj with
          deletionTimestamp := some (v.obj.deletionTimestamp.getD now) }
        have hdel : deleteCR w.cluster k now = w.cluster.putCRs
            (write w.cluster.crs w.cluster.rev k (some marked)) := by
          rw [deleteCR, hk]
          exact if_neg hfin
        have huid : marked.uid = v.obj.uid := rfl
        rw [hdel]
        constructor
        · intro _ v₁ hv₁ hfin₁
          obtain rfl := Option.some.inj (hk.symm.trans hv₁)
          exact absurd hfin₁ hfin
        · exact fun _ => hn.of_noMore (noMore_write hk huid)

/-- A new CR owns nothing yet. -/
theorem nothingLeft_create {w : World} (hi : OwnersIssued w)
    (hn : NothingLeft w.cluster) {u : Multiplicador}
    (hl : Legal w (.create u)) :
    NothingLeft (createCR w.cluster (u.ns, u.name) u) := by
  obtain ⟨-, -, -, hfresh⟩ := hl
  rw [createCR]
  cases hc : create w.cluster.crs w.cluster.rev (u.ns, u.name) u with
  | error e => exact hn
  | ok r =>
      obtain ⟨hfree, rfl⟩ := create_ok hc
      have hnew : content (write w.cluster.crs w.cluster.rev (u.ns, u.name)
          (some u)).1 (u.ns, u.name) = some u := by
        rw [content_write, Function.update_self]
      intro k hk q hq howned r hr
      have hne : k ≠ (u.ns, u.name) := by
        rintro rfl
        exact absurd ((content_of_none hk).symm.trans hnew) (by simp)
      obtain ⟨k', v', hns, hv', e, he, hown⟩ := howned
      have hk₀ : w.cluster.crs k = none := (write_of_ne hne).symm.trans hk
      by_cases hkk : k' = (u.ns, u.name)
      · subst hkk
        have huid : v'.obj = u :=
          Option.some.inj ((content_of_some hv').symm.trans hnew)
        rw [huid] at hown
        exact absurd (hi q e he _ hown) hfresh
      · have hv₀ : w.cluster.crs k' = some v' :=
          (write_of_ne hkk).symm.trans hv'
        exact hn k hk₀ q hq ⟨k', v', hns, hv₀, e, he, hown⟩ r hr

/-! ## Runs -/

theorem ownersIssued_step {w : World} (hs : Sound w) (hi : OwnersIssued w)
    {m : Move} : OwnersIssued (step w m) := by
  intro q e he uid hown
  cases m with
  | create u =>
      rw [step, createCR_proxies] at he
      exact List.mem_cons_of_mem _ (hi q e he uid hown)
  | edit k spec =>
      rw [step, editSpec, editCR_proxies] at he
      exact hi q e he uid hown
  | delete k now =>
      rw [step, deleteCR_proxies] at he
      exact hi q e he uid hown
  | collect k =>
      exact hi q e ((noMore_collectProxy w.cluster k).owners q e he) uid hown
  | reconcile k =>
      change e ∈ ownersAt (content (reconcileNow w.cluster k).proxies) q at he
      cases hk : w.cluster.crs k with
      | none =>
          rw [reconcileNow_of_none hk] at he
          exact hi q e he uid hown
      | some v =>
          rw [reconcileNow_proxies hk] at he
          rcases owner_of_after hs.shaped he with ⟨-, -, rfl⟩ | he₀
          · rw [ownedBy_iff, uidOf_ownerFor] at hown
            rw [← Json.str.inj (Option.some.inj hown)]
            exact hs.issued k v hk
          · exact hi q e he₀ uid hown

/-- **ONE MOVE** keeps the property exactly when it tidies up. -/
theorem nothingLeft_step {w : World} (hs : Sound w) (hi : OwnersIssued w)
    (hn : NothingLeft w.cluster) {m : Move} (hl : Legal w m) :
    NothingLeft (step w m).cluster ↔ TidiesUp w m := by
  cases m with
  | create u => exact ⟨fun _ => trivial, fun _ => nothingLeft_create hi hn hl⟩
  | edit k spec =>
      exact ⟨fun _ => trivial,
        fun _ => hn.of_noMore (noMore_editSpec hs.wellFormed k spec)⟩
  | delete k now => exact nothingLeft_delete hn k now
  | reconcile k => exact nothingLeft_reconcile hs hn k
  | collect k =>
      exact ⟨fun _ => trivial,
        fun _ => hn.of_noMore (noMore_collectProxy w.cluster k)⟩

theorem nothingLeft_start {w : World} (h : Start w) :
    OwnersIssued w ∧ NothingLeft w.cluster := by
  have hnone : ∀ q, content w.cluster.proxies q = none :=
    fun q => content_of_none (h.noProxies q)
  constructor
  · intro q e he
    rw [ownersAt, hnone q] at he
    exact absurd he List.not_mem_nil
  · intro k _ q _ _ r hr
    rw [routesAt, hnone q] at hr
    exact absurd hr List.not_mem_nil

theorem nothingLeft_runs {w₀ w : World} (h₀ : Start w₀)
    (h : Runs TidiesUp w₀ w) :
    Sound w ∧ OwnersIssued w ∧ NothingLeft w.cluster := by
  refine runs_keep (I := fun w => OwnersIssued w ∧ NothingLeft w.cluster) ?_ h
    h₀.sound (nothingLeft_start h₀)
  rintro w m hs ⟨hi, hn⟩ hl hok
  exact ⟨ownersIssued_step hs hi, (nothingLeft_step hs hi hn hl).mpr hok⟩

/-- **NOTHING IS LEFT BEHIND** in every state of a run whose moves all tidy
    up, and the next move keeps it so exactly when it tidies up too. -/
theorem nothingLeft_iff_tidiesUp {w₀ w : World} (h₀ : Start w₀)
    (h : Runs TidiesUp w₀ w) {m : Move} (hl : Legal w m) :
    NothingLeft w.cluster
      ∧ (NothingLeft (step w m).cluster ↔ TidiesUp w m) := by
  obtain ⟨hs, hi, hn⟩ := nothingLeft_runs h₀ h
  exact ⟨hn, nothingLeft_step hs hi hn hl⟩

/-! ## A CR that goes at once -/

/-- Two CRs share a host, each has been reconciled once, and one is
    deleted. -/
def sharedThenDeleted : List Move :=
  [.create (newCR "a" "a.com" "x"), .create (newCR "b" "a.com" "y"),
    .reconcile ("default", "a"), .reconcile ("default", "b"),
    .delete ("default", "a") "now"]

/-- The first reconcile adds no finalizer, so the deletion is immediate and
    the route of `a` stays in the proxy that `b` owns. -/
theorem not_nothingLeft_sharedThenDeleted :
    ¬ ∀ w₀ w : World, Start w₀ → Runs (fun _ _ => True) w₀ w →
      NothingLeft w.cluster := by
  intro h
  have hrun : Runs (fun _ _ => True) emptyWorld
      (sharedThenDeleted.foldl step emptyWorld) :=
    runs_of_legal (by decide +kernel)
  have hgone : ((sharedThenDeleted.foldl step emptyWorld).cluster.crs
      ("default", "a")).isNone = true := by decide +kernel
  have hb : ((sharedThenDeleted.foldl step emptyWorld).cluster.crs
      ("default", "b")).map (fun v => v.obj.uid) = some "uid-b" := by
    decide +kernel
  have hown : (ownersAt (content
      (sharedThenDeleted.foldl step emptyWorld).cluster.proxies)
      ("default", "vhost-a-com")).any (ownedBy "uid-b") = true := by
    decide +kernel
  have hroute : (routesAt (content
      (sharedThenDeleted.foldl step emptyWorld).cluster.proxies)
      ("default", "vhost-a-com")).any (pointsTo (svcNameOf "a")) = true := by
    decide +kernel
  obtain ⟨v, hv, huid⟩ := Option.map_eq_some_iff.mp hb
  obtain ⟨e, he, hep⟩ := List.any_eq_true.mp hown
  obtain ⟨r, hr, hrp⟩ := List.any_eq_true.mp hroute
  have hfalse := h _ _ start_emptyWorld hrun ("default", "a")
    (Option.isNone_iff_eq_none.mp hgone) ("default", "vhost-a-com") rfl
    ⟨("default", "b"), v, rfl, hv, e, he, by rw [huid]; exact hep⟩ r hr
  exact absurd (hfalse.symm.trans hrp) (by simp)

/-! ## A CR that is cleaned up -/

/-- The services of the route belong to CRs of the namespace that are there,
    all of them named in `names`. -/
def served (names : List String) (c : Cluster) (ns : String) (r : Json) :
    Bool :=
  (serviceNames r).all fun s =>
    names.any fun n => decide (s = svcNameOf n) && (c.crs (ns, n)).isSome

theorem stored_of_served {names : List String} {c : Cluster} {ns n : String}
    {r : Json} (h : served names c ns r = true)
    (hp : pointsTo (svcNameOf n) r = true) : c.crs (ns, n) ≠ none := by
  have hany := List.all_eq_true.mp h _ (of_decide_eq_true hp)
  obtain ⟨n', -, hn'⟩ := List.any_eq_true.mp hany
  obtain ⟨hsvc, hstored⟩ := Bool.and_eq_true_iff.mp hn'
  have hnn : n = n' := svcNameOf_inj.mp (of_decide_eq_true hsvc)
  subst hnn
  exact Option.isSome_iff_ne_none.mp hstored

/-- A test of moves by which no CR vanishes: a CR that is deleted has a
    finalizer, and one that is reconciled stays, is served by the proxy at `q₀`
    if at all, and finds only routes to existing CRs there. -/
def tidy (q₀ : Key) (names : List String) (w : World) : Move → Bool
  | .delete k _ =>
      (w.cluster.crs k).all fun v => decide (v.obj.finalizers ≠ [])
  | .reconcile k =>
      (w.cluster.crs k).all fun v => !vanishes v.obj
        && decide (joins v.obj = true → targetKey v.obj = q₀)
        && (routesAt (content w.cluster.proxies) (targetKey v.obj)).all
          (served names w.cluster k.1)
  | _ => true

section Tidy

variable {q₀ : Key} {names : List String} {w : World} {m : Move}

theorem tidiesUp_of_tidy (h : tidy q₀ names w m = true) : TidiesUp w m := by
  cases m with
  | delete k now =>
      intro v hv hnone
      rw [tidy, hv] at h
      exact absurd hnone (of_decide_eq_true h)
  | reconcile k =>
      intro v hv
      rw [tidy, hv] at h
      simp only [Option.all_some, Bool.and_eq_true, Bool.not_eq_true'] at h
      obtain ⟨⟨hstays, -⟩, hserved⟩ := h
      refine ⟨fun hvan => absurd (hvan.symm.trans hstays) (by simp), ?_⟩
      intro _ k' hns hnone r hr hp
      have hthere := stored_of_served (List.all_eq_true.mp hserved r hr) hp
      rw [← hns] at hthere
      exact absurd hnone hthere
  | _ => exact trivial

/-- All routes are at `q₀`. -/
def RoutesAtOnly (q₀ : Key) (c : Cluster) : Prop :=
  ∀ q, ∀ r ∈ routesAt (content c.proxies) q, q = q₀

theorem routesAtOnly_step (hs : Sound w) (h : RoutesAtOnly q₀ w.cluster)
    (ht : tidy q₀ names w m = true) : RoutesAtOnly q₀ (step w m).cluster := by
  cases m with
  | create u =>
      intro q r hr
      have hr' : r ∈ routesAt
          (content (createCR w.cluster (u.ns, u.name) u).proxies) q := hr
      rw [createCR_proxies] at hr'
      exact h q r hr'
  | edit k spec =>
      exact fun q r hr =>
        h q r ((noMore_editSpec hs.wellFormed k spec).routes q r hr)
  | delete k now =>
      intro q r hr
      have hr' : r ∈ routesAt (content (deleteCR w.cluster k now).proxies) q :=
        hr
      rw [deleteCR_proxies] at hr'
      exact h q r hr'
  | reconcile k =>
      intro q r hr
      have hr' : r ∈ routesAt (content (reconcileNow w.cluster k).proxies) q :=
        hr
      cases hk : w.cluster.crs k with
      | none =>
          rw [reconcileNow_of_none hk] at hr'
          exact h q r hr'
      | some v =>
          rw [tidy, hk] at ht
          simp only [Option.all_some, Bool.and_eq_true, decide_eq_true_eq]
            at ht
          rcases route_before hs.shaped hk hr' with ⟨hj, hq, -⟩ | ⟨hmem, -⟩
          · exact hq.trans (ht.1.2 hj)
          · exact h q r hmem
  | collect k =>
      intro q r hr
      exact h q r ((noMore_collectProxy w.cluster k).routes q r hr)

end Tidy

/-- Two CRs share a host and have been reconciled until each is recorded and
    has its finalizer; then one is deleted. -/
def sharedThenMarked : World :=
  [.create (newCR "b" "a.com" "y"), .create (newCR "a" "a.com" "x"),
    .reconcile ("default", "b"), .reconcile ("default", "a"),
    .reconcile ("default", "a"), .delete ("default", "a") "now"].foldl step
      emptyWorld

theorem tidy_sharedThenMarked :
    Runs (fun w m => tidy ("default", "vhost-a-com") ["a", "b"] w m = true)
      emptyWorld sharedThenMarked :=
  runs_of_moves _ (fun _ _ h => h) (by decide +kernel)

/-- All its routes lie under its recorded prefix in its recorded proxy, which
    the reconcile cleans up. -/
theorem tidiesUp_sharedThenMarked :
    TidiesUp sharedThenMarked (.reconcile ("default", "a")) := by
  have honly : RoutesAtOnly ("default", "vhost-a-com")
      sharedThenMarked.cluster :=
    (runs_keep (I := fun w => RoutesAtOnly _ w.cluster)
      (fun _ _ hs hI _ ht => routesAtOnly_step hs hI ht) tidy_sharedThenMarked
      start_emptyWorld.sound fun q r hr => absurd hr List.not_mem_nil).2
  intro v hv
  have hkeys : (sharedThenMarked.cluster.crs ("default", "a")).map (fun v =>
      (joins v.obj, dropsOld v.obj, oldKey v.obj, prevRoute v.obj))
      = some (false, true, ("default", "vhost-a-com"), "/x") := by
    decide +kernel
  rw [hv] at hkeys
  obtain ⟨hj, hd, hold, hroute⟩ :
      joins v.obj = false ∧ dropsOld v.obj = true
        ∧ oldKey v.obj = ("default", "vhost-a-com")
        ∧ prevRoute v.obj = "/x" := by
    simpa using hkeys
  refine ⟨?_, fun h => absurd (hj.symm.trans h) (by simp)⟩
  intro _ q _ _ r hr hp
  obtain rfl := honly q r hr
  have hfirst : ∀ r ∈ routesAt (content sharedThenMarked.cluster.proxies)
      ("default", "vhost-a-com"), pointsTo (svcNameOf "a") r = true →
      firstPrefix r = some "/x" := by
    decide +kernel
  exact Or.inl ⟨hd, hold.symm, by rw [hroute]; decide,
    by rw [hroute]; exact hfirst r hr hp⟩

/-- The CR that is deleted waits for its cleanup, its reconcile cleans up and
    it vanishes, and the proxy that the other one owns has nothing of it. -/
theorem nothingLeft_cleanedUp :
    (sharedThenMarked.cluster.crs ("default", "a")).map (fun v =>
        (v.obj.deletionTimestamp, v.obj.finalizers))
      = some (some "now", [finalizerName])
    ∧ ((step sharedThenMarked (.reconcile ("default", "a"))).cluster.crs
        ("default", "a")).isNone = true
    ∧ (ownersAt (content (step sharedThenMarked
        (.reconcile ("default", "a"))).cluster.proxies)
        ("default", "vhost-a-com")).any (ownedBy "uid-b") = true
    ∧ NothingLeft
        (step sharedThenMarked (.reconcile ("default", "a"))).cluster := by
  refine ⟨by decide +kernel, by decide +kernel, by decide +kernel, ?_⟩
  have hrun : Runs TidiesUp emptyWorld sharedThenMarked := by
    refine Relation.ReflTransGen.mono ?_ _ _ tidy_sharedThenMarked
    rintro w w' ⟨m, hl, hm, hw⟩
    exact ⟨m, hl, tidiesUp_of_tidy hm, hw⟩
  exact (nothingLeft_iff_tidiesUp start_emptyWorld hrun
    (m := .reconcile ("default", "a")) trivial).2.mpr tidiesUp_sharedThenMarked

end Leftovers
