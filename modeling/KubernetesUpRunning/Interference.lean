import KubernetesUpRunning.ClusterRuns
import Mathlib.Data.List.Perm.Subperm

/-! # CRs that share a proxy

    Routes are found by the prefix of their first condition, never by the
    service they point to.  This file says exactly when one reconcile of a CR
    leaves alone what another CR has in the HTTPProxies: when neither the
    prefix it takes out of its recorded proxy nor the one it writes into its
    target is, there, the prefix of a route of the other. -/

namespace Interference

open ApiServer ClusterRuns GoJson KubeObjects ProxyShape ProxyView Reconcile
open ReconcileEffect ReconcileRun ServerSteps VersionedStore

/-- What the CR `v` has in the HTTPProxies is the same before and after: its
    routes, its owner entries, and every proxy that holds one of them. -/
structure Untouched (v : Multiplicador) (P P' : Key → Option Fields) :
    Prop where
  routes : ∀ q, (routesAt P' q).filter (pointsTo (svcNameOf v.name))
    = (routesAt P q).filter (pointsTo (svcNameOf v.name))
  owners : ∀ q, (ownersAt P' q).filter (ownedBy v.uid)
    = (ownersAt P q).filter (ownedBy v.uid)
  kept : ∀ q o, P q = some o →
    ((∃ r ∈ routesOf o, pointsTo (svcNameOf v.name) r = true)
      ∨ ∃ r ∈ ownersOf o, ownedBy v.uid r = true) → P' q ≠ none

/-- The proxy at `q` routes the prefix `p` to the service of `v`. -/
def HoldsRoute (v : Multiplicador) (P : Key → Option Fields) (q : Key)
    (p : String) : Prop :=
  ∃ r ∈ routesAt P q,
    firstPrefix r = some p ∧ pointsTo (svcNameOf v.name) r = true

/-- The reconcile of `u` takes a route of `v`. -/
def TakesRoute (u v : Multiplicador) (P : Key → Option Fields) : Prop :=
  (dropsOld u = true ∧ prevRoute u ≠ ""
      ∧ HoldsRoute v P (oldKey u) (prevRoute u))
    ∨ (joins u = true ∧ HoldsRoute v P (targetKey u) (prefixOf u))

/-! ## Lists -/

/-- Filtering first by `g` loses nothing of `f` exactly when `f` implies
    `g`. -/
theorem filter_filter_eq_iff {α : Type} {f g : α → Bool} {rs : List α} :
    (rs.filter g).filter f = rs.filter f
      ↔ ∀ r ∈ rs, f r = true → g r = true := by
  constructor
  · intro h r hr hf
    have hmem : r ∈ (rs.filter g).filter f := by
      rw [h]
      exact List.mem_filter.mpr ⟨hr, hf⟩
    exact (List.mem_filter.mp (List.mem_filter.mp hmem).1).2
  · intro h
    rw [List.filter_filter]
    refine List.filter_congr ?_
    intro r hr
    cases hf : f r with
    | false => rfl
    | true => simp [h r hr hf]

/-- A list without repetitions and a part of it. -/
theorem eq_of_sublist_of_subset {α : Type} {xs ys : List α}
    (hs : xs.Sublist ys) (hnd : ys.Nodup) (h : ∀ y ∈ ys, y ∈ xs) : xs = ys :=
  hs.eq_of_length_le (hnd.subperm h).length_le

/-! ## One reconcile -/

section Reconcile

variable {u v : Multiplicador} {P : Key → Option Fields}

/-- The owner entries of another CR stay. -/
theorem owners_untouched (hP : Shaped P) (huid : u.uid ≠ v.uid) (q : Key) :
    (ownersAt (proxiesAfter u P) q).filter (ownedBy v.uid)
      = (ownersAt P q).filter (ownedBy v.uid) := by
  -- an entry of `v` is not one of `u`
  have hne : some (Json.str u.uid) ≠ some (Json.str v.uid) := by
    intro e
    exact huid (Json.str.inj (Option.some.inj e))
  have hother : ∀ r, ownedBy v.uid r = true → (!ownedBy u.uid r) = true := by
    intro r hr
    rw [ownedBy_iff] at hr
    simp [ownedBy, hr, hne.symm]
  have hmine : ownedBy v.uid (ownerFor u) = false := decide_eq_false hne
  have hleft : (ownersAt (departProxies u P) q).filter (ownedBy v.uid)
      = (ownersAt P q).filter (ownedBy v.uid) := by
    rw [ownersAt_departProxies]
    split
    · exact filter_filter_eq_iff.mpr fun r _ hr => hother r hr
    · rfl
  rw [proxiesAfter_eq, joinProxies]
  split
  · obtain ⟨m, hm⟩ := hP.exists_merge u
    rw [ownersAt_installProxies q hm]
    split
    · rw [← hleft, mergedOwners]
      split
      · rfl
      · rw [List.filter_append]
        simp [hmine]
    · exact hleft
  · exact hleft

/-- The routes of another CR stay exactly when the reconcile takes none. -/
theorem routes_untouched_iff (hP : Shaped P)
    (hsvc : svcNameOf v.name ≠ svcNameOf u.name) :
    (∀ q, (routesAt (proxiesAfter u P) q).filter (pointsTo (svcNameOf v.name))
      = (routesAt P q).filter (pointsTo (svcNameOf v.name)))
      ↔ ¬ TakesRoute u v P := by
  have hmine : pointsTo (svcNameOf v.name) (routeFor u) = false := by
    simpa using hsvc
  constructor
  · -- a route that is taken is no longer found
    intro h htake
    have hlost : ∀ q r, r ∈ routesAt P q →
        pointsTo (svcNameOf v.name) r = true →
        r ∈ routesAt (proxiesAfter u P) q := by
      intro q r hr hp
      have hmem := List.mem_filter.mpr ⟨hr, hp⟩
      rw [← h q] at hmem
      exact (List.mem_filter.mp hmem).1
    have hforeign : ∀ r, pointsTo (svcNameOf v.name) r = true →
        r ≠ routeFor u := by
      rintro r hp rfl
      exact absurd (hmine.symm.trans hp) (by simp)
    rcases htake with ⟨hd, hne, r, hr, hfirst, hp⟩ | ⟨hj, r, hr, hfirst, hp⟩
    · rcases (mem_routesAt_proxiesAfter hP).mp (hlost _ r hr hp)
        with ⟨-, -, hmine'⟩ | ⟨-, hkept, -⟩
      · exact hforeign r hp hmine'
      · exact hkept ⟨hd, rfl, hne, hfirst⟩
    · rcases (mem_routesAt_proxiesAfter hP).mp (hlost _ r hr hp)
        with ⟨-, -, hmine'⟩ | ⟨-, -, hkept⟩
      · exact hforeign r hp hmine'
      · exact hkept ⟨hj, rfl, hfirst⟩
  · intro h q
    refine eq_of_sublist_of_subset (routes_proxiesAfter_sublist hP hmine q)
      ((hP.prefixes q).of_map firstPrefix |>.filter _) ?_
    intro r hr
    obtain ⟨hmem, hp⟩ := List.mem_filter.mp hr
    refine List.mem_filter.mpr ⟨?_, hp⟩
    refine (mem_routesAt_proxiesAfter hP).mpr (Or.inr ⟨hmem, ?_, ?_⟩)
    · rintro ⟨hd, rfl, hne, hfirst⟩
      exact h (Or.inl ⟨hd, hne, r, hmem, hfirst, hp⟩)
    · rintro ⟨hj, rfl, hfirst⟩
      exact h (Or.inr ⟨hj, r, hmem, hfirst, hp⟩)

/-- A proxy that holds something of `v` is not deleted, when nothing of `v`
    is taken. -/
theorem kept_of_same {P' : Key → Option Fields}
    (hroutes : ∀ q, (routesAt P' q).filter (pointsTo (svcNameOf v.name))
      = (routesAt P q).filter (pointsTo (svcNameOf v.name)))
    (howners : ∀ q, (ownersAt P' q).filter (ownedBy v.uid)
      = (ownersAt P q).filter (ownedBy v.uid)) : Untouched v P P' := by
  refine ⟨hroutes, howners, ?_⟩
  intro q o ho hheld hgone
  have hr := hroutes q
  have hw := howners q
  simp only [routesAt, ownersAt, ho, hgone, Option.map_some, Option.map_none,
    Option.getD_some, Option.getD_none, List.filter_nil] at hr hw
  rcases hheld with ⟨r, hmem, hp⟩ | ⟨r, hmem, hp⟩
  · exact absurd (hr ▸ List.mem_filter.mpr ⟨hmem, hp⟩) List.not_mem_nil
  · exact absurd (hw ▸ List.mem_filter.mpr ⟨hmem, hp⟩) List.not_mem_nil

end Reconcile

/-- **NON-INTERFERENCE**: in every reachable state, one reconcile of a CR
    leaves what another CR of its namespace has in the HTTPProxies exactly as
    it was, if and only if it takes none of its routes. -/
theorem untouched_iff_takes_no_route {w₀ w : World} (h₀ : Start w₀)
    (h : Runs (fun _ _ => True) w₀ w) {a b : Key}
    {u v : Versioned Multiplicador} (ha : w.cluster.crs a = some u)
    (hb : w.cluster.crs b = some v) (hab : a ≠ b) (hns : a.1 = b.1) :
    Untouched v.obj (content w.cluster.proxies)
        (content (reconcileNow w.cluster a).proxies)
      ↔ ¬ TakesRoute u.obj v.obj (content w.cluster.proxies) := by
  have hs := sound_of_runs h h₀.sound
  have hna := hs.wellFormed.stored a u ha
  have hnb := hs.wellFormed.stored b v hb
  have huid : u.obj.uid ≠ v.obj.uid := fun e =>
    hab (hs.distinct a b u v ha hb e)
  have hsvc : svcNameOf v.obj.name ≠ svcNameOf u.obj.name := by
    rw [Ne, svcNameOf_inj, hna.name, hnb.name]
    exact fun e => hab (Prod.ext hns e.symm)
  rw [reconcileNow_proxies ha]
  constructor
  · intro hu
    exact (routes_untouched_iff hs.shaped hsvc).mp hu.routes
  · intro ht
    exact kept_of_same ((routes_untouched_iff hs.shaped hsvc).mpr ht)
      (owners_untouched hs.shaped huid)

/-! ## A prefix that has changed hands -/

/-- `a` is served under `/x` and recorded there; its user moves it to `/y`;
    `b` is created for `/x` and reconciled first. -/
def handedOver : List Move :=
  [.create (newCR "a" "a.com" "x"), .reconcile ("default", "a"),
    .reconcile ("default", "a"), .edit ("default", "a") (specFor "a.com" "y"),
    .create (newCR "b" "a.com" "x"), .reconcile ("default", "b")]

/-- The reconcile of `a` takes its old prefix out and the route of `b` with
    it, although their targets differ. -/
theorem not_untouched_handedOver :
    ¬ ∀ (w₀ w : World) (a b : Key) (u v : Versioned Multiplicador),
      Start w₀ → Runs (fun _ _ => True) w₀ w → w.cluster.crs a = some u →
      w.cluster.crs b = some v → a ≠ b → a.1 = b.1 →
      (targetKey u.obj, prefixOf u.obj) ≠ (targetKey v.obj, prefixOf v.obj) →
      Untouched v.obj (content w.cluster.proxies)
        (content (reconcileNow w.cluster a).proxies) := by
  intro h
  have hrun : Runs (fun _ _ => True) emptyWorld
      (handedOver.foldl step emptyWorld) :=
    runs_of_legal (by decide +kernel)
  have ha : ((handedOver.foldl step emptyWorld).cluster.crs
      ("default", "a")).map (fun u => prefixOf u.obj) = some "/y" := by
    decide +kernel
  have hb : ((handedOver.foldl step emptyWorld).cluster.crs
      ("default", "b")).map (fun v => (v.obj.name, prefixOf v.obj))
      = some ("b", "/x") := by
    decide +kernel
  obtain ⟨u, hu, hup⟩ := Option.map_eq_some_iff.mp ha
  obtain ⟨v, hv, hvp⟩ := Option.map_eq_some_iff.mp hb
  obtain ⟨hname, hvp⟩ := Prod.mk.inj hvp
  have htarget : (targetKey u.obj, prefixOf u.obj)
      ≠ (targetKey v.obj, prefixOf v.obj) := by
    intro e
    have he := (Prod.mk.inj e).2
    rw [hup, hvp] at he
    exact absurd he (by decide)
  have hsame := (h _ _ _ _ u v start_emptyWorld hrun hu hv (by decide) rfl
    htarget).routes ("default", "vhost-a-com")
  rw [hname] at hsame
  exact absurd hsame (by decide +kernel)

/-- `a` and `b` share the proxy of a host and are recorded there; the user of
    `a` moves it from `/x` to `/y`. -/
def movedBeside : List Move :=
  [.create (newCR "a" "a.com" "x"), .create (newCR "b" "a.com" "z"),
    .reconcile ("default", "a"), .reconcile ("default", "b"),
    .reconcile ("default", "a"), .edit ("default", "a") (specFor "a.com" "y")]

/-- A CR takes no route of one that is routed, in the two proxies, under a
    prefix that is neither the old one nor the new one. -/
theorem not_takesRoute {u v : Multiplicador} {P : Key → Option Fields}
    {p : String}
    (hold : ∀ r ∈ routesAt P (oldKey u),
      pointsTo (svcNameOf v.name) r = true → firstPrefix r = some p)
    (htarget : ∀ r ∈ routesAt P (targetKey u),
      pointsTo (svcNameOf v.name) r = true → firstPrefix r = some p)
    (hleft : p ≠ prevRoute u) (hasked : p ≠ prefixOf u) :
    ¬ TakesRoute u v P := by
  rintro (⟨-, -, r, hr, hfirst, hp⟩ | ⟨-, r, hr, hfirst, hp⟩)
  · exact hleft (Option.some.inj ((hold r hr hp).symm.trans hfirst))
  · exact hasked (Option.some.inj ((htarget r hr hp).symm.trans hfirst))

/-- The reconcile of `a` takes its old prefix out beside the route of `b`, and
    leaves that alone. -/
theorem untouched_movedBeside :
    ∃ u v, (movedBeside.foldl step emptyWorld).cluster.crs ("default", "a")
        = some u
      ∧ (movedBeside.foldl step emptyWorld).cluster.crs ("default", "b")
        = some v
      ∧ dropsOld u.obj = true
      ∧ HoldsRoute u.obj
        (content (movedBeside.foldl step emptyWorld).cluster.proxies)
        (oldKey u.obj) (prevRoute u.obj)
      ∧ HoldsRoute v.obj
        (content (movedBeside.foldl step emptyWorld).cluster.proxies)
        (oldKey u.obj) "/z"
      ∧ Untouched v.obj
        (content (movedBeside.foldl step emptyWorld).cluster.proxies)
        (content (reconcileNow (movedBeside.foldl step emptyWorld).cluster
          ("default", "a")).proxies) := by
  have hrun : Runs (fun _ _ => True) emptyWorld
      (movedBeside.foldl step emptyWorld) := runs_of_legal (by decide +kernel)
  have ha : ((movedBeside.foldl step emptyWorld).cluster.crs
      ("default", "a")).map (fun u => (u.obj.name, dropsOld u.obj,
        (oldKey u.obj, prevRoute u.obj), targetKey u.obj, prefixOf u.obj))
      = some ("a", true, (("default", "vhost-a-com"), "/x"),
        ("default", "vhost-a-com"), "/y") := by
    decide +kernel
  have hb : ((movedBeside.foldl step emptyWorld).cluster.crs
      ("default", "b")).map (fun v => v.obj.name) = some "b" := by
    decide +kernel
  obtain ⟨u, hu, hfields⟩ := Option.map_eq_some_iff.mp ha
  obtain ⟨v, hv, hname⟩ := Option.map_eq_some_iff.mp hb
  simp only [Prod.mk.injEq] at hfields
  obtain ⟨hnameu, hdrops, ⟨hold, hroute⟩, htarget, hmoved⟩ := hfields
  -- the only route of `b` in the proxy is the one for `/z`
  have hroutes : ∀ r ∈ routesAt
      (content (movedBeside.foldl step emptyWorld).cluster.proxies)
      ("default", "vhost-a-com"), pointsTo (svcNameOf "b") r = true →
      firstPrefix r = some "/z" := by
    decide +kernel
  have hmine : ∃ r ∈ routesAt
      (content (movedBeside.foldl step emptyWorld).cluster.proxies)
      ("default", "vhost-a-com"),
      firstPrefix r = some "/x" ∧ pointsTo (svcNameOf "a") r = true := by
    decide +kernel
  have htheirs : ∃ r ∈ routesAt
      (content (movedBeside.foldl step emptyWorld).cluster.proxies)
      ("default", "vhost-a-com"),
      firstPrefix r = some "/z" ∧ pointsTo (svcNameOf "b") r = true := by
    decide +kernel
  refine ⟨u, v, hu, hv, hdrops, ?_, ?_, (untouched_iff_takes_no_route
    start_emptyWorld hrun hu hv (by decide) rfl).mpr ?_⟩
  · rw [HoldsRoute, hold, hroute, hnameu]
    exact hmine
  · rw [HoldsRoute, hold, hname]
    exact htheirs
  · rw [← hname] at hroutes
    refine not_takesRoute (p := "/z") ?_ ?_ ?_ ?_
    · rw [hold]
      exact hroutes
    · rw [htarget]
      exact hroutes
    · rw [hroute]
      decide
    · rw [hmoved]
      decide

end Interference
