import KubernetesUpRunning.ClusterRuns
import KubernetesUpRunning.Idempotence

/-! # Hosts and virtual hosts

    A proxy is found by a name computed from the host: the dots become dashes,
    and dashes are legal in a host.  So two hosts may ask for one proxy, whose
    fqdn is then the host of whoever was reconciled last; and the same host
    asked for in two namespaces gives two proxies with one fqdn.  This file
    follows any number of CRs through edits and complete reconciles, and says
    exactly which reconciles keep hosts and virtual hosts in correspondence. -/

namespace VirtualHosts

open ApiServer ClusterRuns GoJson Idempotence KubeObjects ProxyShape ProxyView
open Reconcile ReconcileEffect ReconcileRun ServerSteps VersionedStore

/-! ## Hosts -/

/-- The parts between the dots. -/
def labels : List Char → List (List Char)
  | [] => [[]]
  | ch :: rest =>
      if ch = '.' then [] :: labels rest
      else (ch :: (labels rest).headD []) :: (labels rest).tail

/-- A label: lower-case letters, digits and dashes, no dash at either end. -/
def isLabel (l : List Char) : Bool :=
  l.all (fun ch => ch.isLower || ch.isDigit || decide (ch = '-'))
    && decide (l ≠ [] ∧ l.head? ≠ some '-' ∧ l.getLast? ≠ some '-')

/-- A lower-case DNS name. -/
def isDNSName (host : String) : Bool := (labels host.toList).all isLabel

theorem ne_empty_of_isDNSName {host : String} (h : isDNSName host = true) :
    host ≠ "" := by
  rintro rfl
  exact absurd h (by decide)

/-! ## Runs of edits and reconciles -/

/-- A live and valid CR that asks to be served at a host and a ruta. -/
structure Asks (u : Multiplicador) : Prop where
  live : u.deletionTimestamp = none
  positive : 0 < u.multiplicador
  host : isDNSName u.host = true
  ruta : u.ruta ≠ ""

/-- The cluster, and the CRs reconciled since their last edit. -/
structure Course where
  cluster : Cluster
  settled : List Key

/-- A user writes the spec of a CR, or a CR is reconciled. -/
inductive Turn where
  | edit (k : Key) (spec : Option Json)
  | reconcile (k : Key)

/-- What a turn does. -/
def advance (s : Course) : Turn → Course
  | .edit k spec =>
      ⟨editSpec s.cluster k spec, s.settled.filter fun k' => decide (k' ≠ k)⟩
  | .reconcile k => ⟨reconcileNow s.cluster k, k :: s.settled⟩

/-- Users write specs that ask to be served. -/
def Asked (s : Course) : Turn → Prop
  | .edit k spec => ∀ v, s.cluster.crs k = some v →
      Asks { v.obj with spec := spec }
  | .reconcile _ => True

/-- Runs of turns that satisfy `ok` where they are made. -/
abbrev Turns (ok : Course → Turn → Prop) : Course → Course → Prop :=
  Relation.ReflTransGen fun s s' =>
    ∃ t, Asked s t ∧ ok s t ∧ s' = advance s t

/-- A start: CRs that ask to be served, none reconciled, no HTTPProxies. -/
structure Start (s : Course) : Prop where
  wellFormed : WellFormed s.cluster
  asks : ∀ k v, s.cluster.crs k = some v → Asks v.obj
  noProxies : ∀ q, s.cluster.proxies q = none
  settled : s.settled = []

/-- The route of the CR, its prefix to its service, lies in an HTTPProxy of
    its namespace whose fqdn is its host. -/
def Served (u : Multiplicador) (P : Key → Option Fields) : Prop :=
  ∃ q, q.1 = nsOf u ∧ fqdnAt P q = some u.host ∧ ∃ r ∈ routesAt P q,
    firstPrefix r = some (prefixOf u) ∧ pointsTo (svcNameOf u.name) r = true

/-- No two HTTPProxies of the cluster have the same fqdn. -/
def UniqueHosts (P : Key → Option Fields) : Prop :=
  ∀ q q' h, fqdnAt P q = some h → fqdnAt P q' = some h → q = q'

/-- Hosts and virtual hosts correspond, for the CRs that were reconciled since
    their last edit. -/
structure Corresponds (s : Course) : Prop where
  served : ∀ k ∈ s.settled, ∀ v, s.cluster.crs k = some v →
    Served v.obj (content s.cluster.proxies)
  unique : UniqueHosts (content s.cluster.proxies)

/-- The reconcile of `u` takes from `x` its route or its virtual host: it takes
    the prefix of `x` out of the proxy that serves `x`, or it writes into that
    proxy another host or the same prefix. -/
def Disturbs (u x : Multiplicador) : Prop :=
  (dropsOld u = true ∧ oldKey u = targetKey x ∧ prevRoute u = prefixOf x)
    ∨ (targetKey u = targetKey x
      ∧ (u.host ≠ x.host ∨ prefixOf u = prefixOf x))

/-- The CR at `k` keeps apart from the others: its reconcile disturbs no CR
    that was reconciled since its last edit, and no other namespace has a
    proxy for its host. -/
def Apart (s : Course) (k : Key) : Prop :=
  ∀ u, s.cluster.crs k = some u →
    (∀ k' ∈ s.settled, k' ≠ k → ∀ x, s.cluster.crs k' = some x →
      ¬ Disturbs u.obj x.obj)
    ∧ ∀ q, q.1 ≠ k.1 →
      fqdnAt (content s.cluster.proxies) q ≠ some u.obj.host

/-- Every reconcile of the run is of a CR that keeps apart. -/
def KeepsApart (s : Course) : Turn → Prop
  | .edit _ _ => True
  | .reconcile k => Apart s k

/-! ## One reconcile -/

section Reconcile

variable {u x : Multiplicador} {P : Key → Option Fields}

theorem Asks.joins (h : Asks u) : joins u = true := by
  simp [ReconcileEffect.joins, h.live, h.positive, h.ruta]

theorem Asks.proxyName (h : Asks u) : proxyNameOf u = vhostName u.host := by
  rw [proxyNameOf, if_neg (ne_empty_of_isDNSName h.host)]

/-- Among shaped proxies the one with the CR's host is its target. -/
theorem eq_targetKey (hP : Shaped P) (hx : Asks x) {q : Key}
    (hns : q.1 = nsOf x) (hf : fqdnAt P q = some x.host) : q = targetKey x := by
  obtain ⟨o, ho, hfo⟩ := Option.bind_eq_some_iff.mp hf
  have hname := (hP q o ho).fqdn x.host hfo
  rw [targetKey, hx.proxyName, ← hname, ← hns]

/-- Being served, said of the target. -/
theorem served_iff (hP : Shaped P) (hx : Asks x) :
    Served x P ↔ fqdnAt P (targetKey x) = some x.host
      ∧ ∃ r ∈ routesAt P (targetKey x), firstPrefix r = some (prefixOf x)
        ∧ pointsTo (svcNameOf x.name) r = true := by
  constructor
  · rintro ⟨q, hns, hf, hroute⟩
    have hq := eq_targetKey hP hx hns hf
    rw [hq] at hf hroute
    exact ⟨hf, hroute⟩
  · rintro ⟨hf, hroute⟩
    exact ⟨targetKey x, rfl, hf, hroute⟩

/-- A proxy that is left keeps its fqdn or goes. -/
theorem fqdnAt_departProxies_some {q : Key} {f : String}
    (h : fqdnAt (departProxies u P) q = some f) : fqdnAt P q = some f := by
  rw [departProxies] at h
  split at h
  · by_cases hq : q = oldKey u
    · subst hq
      rw [fqdnAt, Function.update_self] at h
      exact fqdn_leaveContent h
    · rw [fqdnAt, Function.update_of_ne hq] at h
      exact h
  · exact h

/-- One that still has routes keeps it. -/
theorem fqdnAt_departProxies {q : Key} {r : Json}
    (hr : r ∈ routesAt (departProxies u P) q) :
    fqdnAt (departProxies u P) q = fqdnAt P q := by
  rw [departProxies] at hr ⊢
  split
  · rename_i hd
    rw [if_pos hd] at hr
    by_cases hq : q = oldKey u
    · subst hq
      rw [routesAt, Function.update_self] at hr
      rw [fqdnAt, fqdnAt, Function.update_self]
      cases ho : P (oldKey u) with
      | none => rfl
      | some o =>
          rw [ho] at hr
          rw [leaveContent] at hr ⊢
          dsimp only [Option.bind_some] at hr ⊢
          split at hr
          · exact absurd hr List.not_mem_nil
          · rename_i hdel
            rw [if_neg hdel]
            exact fqdnOf_stripProxy _ _ o
    · rw [fqdnAt, Function.update_of_ne hq]
      rfl
  · rfl

/-- The fqdn of every proxy after the reconcile. -/
theorem fqdnAt_proxiesAfter (hP : Shaped P) (hu : Asks u) (q : Key) :
    fqdnAt (proxiesAfter u P) q = if q = targetKey u then some u.host
      else fqdnAt (departProxies u P) q := by
  obtain ⟨m, hm⟩ := hP.exists_merge u
  rw [proxiesAfter_eq, joinProxies, if_pos hu.joins, fqdnAt_installProxies q hm]
  split
  · rw [mergedFqdn, if_neg (ne_empty_of_isDNSName hu.host)]
  · rfl

/-- After its own reconcile a CR is served. -/
theorem served_self (hP : Shaped P) (hu : Asks u) :
    Served u (proxiesAfter u P) := by
  refine ⟨targetKey u, rfl, ?_, routeFor u, ?_, rfl, ?_⟩
  · rw [fqdnAt_proxiesAfter hP hu, if_pos rfl]
  · exact (mem_routesAt_proxiesAfter hP).mpr (Or.inl ⟨hu.joins, rfl, rfl⟩)
  · simp

theorem prefixOf_ne_empty (u : Multiplicador) : prefixOf u ≠ "" := by
  intro h
  have hlen := congrArg String.length h
  rw [prefixOf, String.length_append] at hlen
  have hslash : ("/" : String).length = 1 := rfl
  rw [hslash] at hlen
  have hzero : ("" : String).length = 0 := rfl
  omega

/-- Another CR that was served still is, unless it is disturbed. -/
theorem served_after_iff (hP : Shaped P) (hu : Asks u) (hx : Asks x)
    (hne : nsOf x = nsOf u → x.name ≠ u.name) (hs : Served x P) :
    Served x (proxiesAfter u P) ↔ ¬ Disturbs u x := by
  rw [served_iff (hP.after u) hx]
  -- in one namespace the route of `u` is no route of `x`
  have hmine : targetKey x = targetKey u →
      pointsTo (svcNameOf x.name) (routeFor u) = false := by
    intro e
    rw [pointsTo_routeFor, decide_eq_false_iff_not, svcNameOf_inj]
    exact hne (congrArg Prod.fst e)
  constructor
  · rintro ⟨hf, r, hr, hp, hsvc⟩ hd
    rcases (mem_routesAt_proxiesAfter hP).mp hr with
      ⟨-, hq, rfl⟩ | ⟨-, hkept, hnew⟩
    · exact absurd ((hmine hq).symm.trans hsvc) (by simp)
    · rcases hd with ⟨hdrop, hq, hroute⟩ | ⟨hq, hhost | hunder⟩
      · refine hkept ⟨hdrop, hq.symm, ?_, ?_⟩
        · rw [hroute]
          exact prefixOf_ne_empty x
        · rw [hroute]
          exact hp
      · rw [fqdnAt_proxiesAfter hP hu, if_pos hq.symm] at hf
        exact hhost (Option.some.inj hf)
      · refine hnew ⟨hu.joins, hq.symm, ?_⟩
        rw [hunder]
        exact hp
  · intro hd
    obtain ⟨hf, r, hr, hp, hsvc⟩ := (served_iff hP hx).mp hs
    have hkept : r ∈ routesAt (proxiesAfter u P) (targetKey x) := by
      refine (mem_routesAt_proxiesAfter hP).mpr (Or.inr ⟨hr, ?_, ?_⟩)
      · rintro ⟨hdrop, hq, -, hroute⟩
        rw [hp] at hroute
        exact hd (Or.inl ⟨hdrop, hq.symm, (Option.some.inj hroute).symm⟩)
      · rintro ⟨-, hq, hunder⟩
        rw [hp] at hunder
        exact hd (Or.inr ⟨hq.symm, Or.inr (Option.some.inj hunder).symm⟩)
    refine ⟨?_, r, hkept, hp, hsvc⟩
    rw [fqdnAt_proxiesAfter hP hu]
    split
    · rename_i hq
      by_cases hhost : u.host = x.host
      · rw [hhost]
      · exact absurd (Or.inr ⟨hq.symm, Or.inl hhost⟩) hd
    · rename_i hq
      -- the proxy has not been joined, so the route was there after leaving
      obtain ⟨m, hm⟩ := hP.exists_merge u
      rw [proxiesAfter_eq, joinProxies, if_pos hu.joins,
        routesAt_installProxies _ hm, if_neg hq] at hkept
      rw [fqdnAt_departProxies hkept]
      exact hf

/-- The hosts stay unique unless another namespace has a proxy for this one. -/
theorem unique_after_iff (hP : Shaped P) (hu : Asks u)
    (h : UniqueHosts P) : UniqueHosts (proxiesAfter u P)
      ↔ ∀ q, q.1 ≠ nsOf u → fqdnAt P q ≠ some u.host := by
  have hafter := fqdnAt_proxiesAfter hP hu
  constructor
  · intro h' q hq hf
    have hold : q ≠ oldKey u := fun e => hq (congrArg Prod.fst e)
    have htarget : q ≠ targetKey u := fun e => hq (congrArg Prod.fst e)
    have hf' : fqdnAt (proxiesAfter u P) q = some u.host := by
      rw [hafter, if_neg htarget, departProxies]
      split
      · rw [fqdnAt, Function.update_of_ne hold]
        exact hf
      · exact hf
    refine htarget (h' q (targetKey u) u.host hf' ?_)
    rw [hafter, if_pos rfl]
  · intro hother
    -- the target is the only proxy with its host
    have honly : ∀ q, fqdnAt (proxiesAfter u P) q = some u.host →
        q = targetKey u := by
      intro q hf
      by_cases hq : q = targetKey u
      · exact hq
      · rw [hafter, if_neg hq] at hf
        have hf' := fqdnAt_departProxies_some hf
        by_cases hns : q.1 = nsOf u
        · exact eq_targetKey hP hu hns hf'
        · exact absurd hf' (hother q hns)
    intro q q' f hf hf'
    by_cases hq : q = targetKey u
    · have hhost : some f = some u.host := by
        rw [← hf, hq, hafter, if_pos rfl]
      rw [hq, honly q' (hf'.trans hhost)]
    · by_cases hq' : q' = targetKey u
      · have hhost : some f = some u.host := by
          rw [← hf', hq', hafter, if_pos rfl]
        rw [hq', honly q (hf.trans hhost)]
      · rw [hafter, if_neg hq] at hf
        rw [hafter, if_neg hq'] at hf'
        exact h q q' f (fqdnAt_departProxies_some hf)
          (fqdnAt_departProxies_some hf')

end Reconcile

/-! ## Runs -/

/-- What holds of every state of every run. -/
structure Kept (s : Course) : Prop where
  wellFormed : WellFormed s.cluster
  asks : ∀ k v, s.cluster.crs k = some v → Asks v.obj
  shaped : Shaped (content s.cluster.proxies)

theorem Start.kept {s : Course} (h : Start s) : Kept s := by
  refine ⟨h.wellFormed, h.asks, ?_⟩
  intro q o ho
  rw [content_of_none (h.noProxies q)] at ho
  exact absurd ho (by simp)

theorem Start.corresponds {s : Course} (h : Start s) : Corresponds s := by
  constructor
  · intro k hk
    rw [h.settled] at hk
    exact absurd hk List.not_mem_nil
  · intro q q' f hf
    rw [fqdnAt, content_of_none (h.noProxies q)] at hf
    exact absurd hf (by simp)

theorem Asks.continues {u v : Multiplicador} (h : Asks u)
    (hc : Continues u v) : Asks v := by
  obtain ⟨⟨a, f, s, rfl⟩, -⟩ := hc
  exact ⟨h.live, h.positive, h.host, h.ruta⟩

theorem served_continues {u v : Multiplicador} {P : Key → Option Fields}
    (hc : Continues u v) : Served v P ↔ Served u P := by
  obtain ⟨⟨a, f, s, rfl⟩, -⟩ := hc
  exact Iff.rfl

section Step

variable {s : Course} {k : Key}

/-- The CR that the reconcile stores continues the one it read. -/
theorem continues_reconcileNow (h : Kept s) {u v : Versioned Multiplicador}
    (hk : s.cluster.crs k = some u)
    (hv : (reconcileNow s.cluster k).crs k = some v) :
    Continues u.obj v.obj := by
  have hasks := h.asks k u hk
  have hcr := reconcileNow_cr h.wellFormed hk
  have hlive : ¬ u.obj.deletionTimestamp.isSome = true := by
    simp [hasks.live]
  have hpos : ¬ u.obj.multiplicador ≤ 0 := by
    have hp := hasks.positive
    omega
  rw [content_of_some hv, crNext, if_neg hlive, if_neg hpos] at hcr
  rw [Option.some.inj hcr]
  exact continues_crAfter _ _ _

theorem kept_reconcile (h : Kept s) : Kept (advance s (.reconcile k)) := by
  cases hk : s.cluster.crs k with
  | none =>
      show Kept ⟨reconcileNow s.cluster k, _⟩
      rw [reconcileNow_of_none hk]
      exact ⟨h.wellFormed, h.asks, h.shaped⟩
  | some u =>
      refine ⟨wellFormed_reconcileNow h.wellFormed, ?_, ?_⟩
      · intro k' v hv
        by_cases hk' : k' = k
        · subst hk'
          exact (h.asks k' u hk).continues (continues_reconcileNow h hk hv)
        · have hv' : (reconcileNow s.cluster k).crs k' = some v := hv
          rw [reconcileNow_crs_of_ne h.wellFormed hk'] at hv'
          exact h.asks k' v hv'
      · show Shaped (content (reconcileNow s.cluster k).proxies)
        rw [reconcileNow_proxies hk]
        exact h.shaped.after u.obj

theorem kept_edit {spec : Option Json} (h : Kept s)
    (ha : Asked s (.edit k spec)) : Kept (advance s (.edit k spec)) := by
  have hwf : WellFormed (editSpec s.cluster k spec) :=
    wellFormed_editCR h.wellFormed k _
  refine ⟨hwf, ?_, ?_⟩
  · intro k' v hv
    have hv' : (editSpec s.cluster k spec).crs k' = some v := hv
    by_cases hk' : k' = k
    · subst hk'
      cases hk : s.cluster.crs k' with
      | none =>
          rw [editSpec, editCR, hk] at hv'
          exact absurd (hk.symm.trans hv') (by simp)
      | some u =>
          have hcr : content (editSpec s.cluster k' spec).crs k'
              = some { u.obj with spec := spec } :=
            content_editSpec hk (h.asks k' u hk).live
          rw [content_of_some hv'] at hcr
          rw [Option.some.inj hcr]
          exact ha u hk
    · rw [editSpec_crs_of_ne hk'] at hv'
      exact h.asks k' v hv'
  · show Shaped (content (editSpec s.cluster k spec).proxies)
    rw [editSpec, editCR_proxies]
    exact h.shaped

/-- An edit takes its CR out of the correspondence, and moves nothing else. -/
theorem corresponds_edit {spec : Option Json} (h : Corresponds s) :
    Corresponds (advance s (.edit k spec)) := by
  have hproxies : (editSpec s.cluster k spec).proxies = s.cluster.proxies :=
    editCR_proxies _ _ _
  constructor
  · intro k' hk' v hv
    obtain ⟨hmem, hne⟩ := List.mem_filter.mp hk'
    have hv' : (editSpec s.cluster k spec).crs k' = some v := hv
    rw [editSpec_crs_of_ne (by simpa using hne)] at hv'
    show Served v.obj (content (editSpec s.cluster k spec).proxies)
    rw [hproxies]
    exact h.served k' hmem v hv'
  · show UniqueHosts (content (editSpec s.cluster k spec).proxies)
    rw [hproxies]
    exact h.unique

/-- **ONE RECONCILE** keeps the correspondence exactly when its CR keeps
    apart. -/
theorem corresponds_reconcile_iff (h : Kept s) (hc : Corresponds s) :
    Corresponds (advance s (.reconcile k)) ↔ Apart s k := by
  cases hk : s.cluster.crs k with
  | none =>
      have hsame : reconcileNow s.cluster k = s.cluster :=
        reconcileNow_of_none hk
      constructor
      · intro _ u hu
        exact absurd (hk.symm.trans hu) (by simp)
      · intro _
        constructor
        · intro k' hk' v hv
          have hv' : (reconcileNow s.cluster k).crs k' = some v := hv
          show Served v.obj (content (reconcileNow s.cluster k).proxies)
          rw [hsame] at hv' ⊢
          rcases List.mem_cons.mp hk' with rfl | hmem
          · exact absurd (hk.symm.trans hv') (by simp)
          · exact hc.served k' hmem v hv'
        · show UniqueHosts (content (reconcileNow s.cluster k).proxies)
          rw [hsame]
          exact hc.unique
  | some u =>
      have hu := h.asks k u hk
      have hkey := (h.wellFormed.stored k u hk).key
      have hns : nsOf u.obj = k.1 := congrArg Prod.fst hkey
      have hP' : content (advance s (.reconcile k)).cluster.proxies
          = proxiesAfter u.obj (content s.cluster.proxies) :=
        reconcileNow_proxies hk
      have hunique := unique_after_iff h.shaped hu hc.unique
      -- another settled CR is as it was, and under another key
      have hother : ∀ k' ∈ s.settled, k' ≠ k →
          ∀ x, s.cluster.crs k' = some x →
          (Served x.obj (proxiesAfter u.obj (content s.cluster.proxies))
            ↔ ¬ Disturbs u.obj x.obj) := by
        intro k' hmem hne x hx
        refine served_after_iff h.shaped hu (h.asks k' x hx) ?_
          (hc.served k' hmem x hx)
        intro hsame hname
        have hkey' := (h.wellFormed.stored k' x hx).key
        exact hne (by rw [← hkey', ← hkey, hsame, hname])
      constructor
      · intro hafter v hv
        rw [← Option.some.inj (hk.symm.trans hv)]
        constructor
        · intro k' hmem hne x hx
          have hx' : (advance s (.reconcile k)).cluster.crs k' = some x :=
            (reconcileNow_crs_of_ne h.wellFormed hne).trans hx
          have hserved := hafter.served k' (List.mem_cons_of_mem _ hmem) x hx'
          rw [hP'] at hserved
          exact (hother k' hmem hne x hx).mp hserved
        · rw [← hns]
          have hun := hafter.unique
          rw [hP'] at hun
          exact hunique.mp hun
      · intro hapart
        obtain ⟨hdisturb, hhosts⟩ := hapart u hk
        rw [← hns] at hhosts
        constructor
        · intro k' hk' v hv
          rw [hP']
          have hv' : (reconcileNow s.cluster k).crs k' = some v := hv
          by_cases hne : k' = k
          · subst hne
            rw [served_continues (continues_reconcileNow h hk hv')]
            exact served_self h.shaped hu
          · have hmem : k' ∈ s.settled := (List.mem_cons.mp hk').resolve_left hne
            rw [reconcileNow_crs_of_ne h.wellFormed hne] at hv'
            exact (hother k' hmem hne v hv').mpr (hdisturb k' hmem hne v hv')
        · rw [hP']
          exact hunique.mpr hhosts

end Step

/-- A reconcile gives no host to another namespace. -/
theorem fqdnAt_elsewhere {s : Course} {k q : Key} {f : String} (h : Kept s)
    (hq : q.1 ≠ k.1)
    (hf : fqdnAt (content (advance s (.reconcile k)).cluster.proxies) q
      = some f) : fqdnAt (content s.cluster.proxies) q = some f := by
  have hf' : fqdnAt (content (reconcileNow s.cluster k).proxies) q = some f :=
    hf
  cases hk : s.cluster.crs k with
  | none =>
      rw [reconcileNow_of_none hk] at hf'
      exact hf'
  | some u =>
      have hne : q ≠ targetKey u.obj := by
        rintro rfl
        exact hq (h.wellFormed.stored k u hk).nsOf
      rw [reconcileNow_proxies hk,
        fqdnAt_proxiesAfter h.shaped (h.asks k u hk), if_neg hne] at hf'
      exact fqdnAt_departProxies_some hf'

/-- Along a run whose reconciles all kept apart, the correspondence holds. -/
theorem corresponds_of_turns {s₀ s : Course} (h₀ : Start s₀)
    (h : Turns KeepsApart s₀ s) : Kept s ∧ Corresponds s := by
  induction h with
  | refl => exact ⟨h₀.kept, h₀.corresponds⟩
  | tail _ ht ih =>
      obtain ⟨t, hasked, hok, rfl⟩ := ht
      cases t with
      | edit k spec => exact ⟨kept_edit ih.1 hasked, corresponds_edit ih.2⟩
      | reconcile k =>
          exact ⟨kept_reconcile ih.1,
            (corresponds_reconcile_iff ih.1 ih.2).mpr hok⟩

/-- **VIRTUAL HOSTS**: along a run whose reconciles all kept apart, every CR
    reconciled since its last edit has its route under its own host and no two
    proxies share one; a further reconcile keeps this exactly when its CR keeps
    apart too. -/
theorem corresponds_iff_apart {s₀ s : Course} (h₀ : Start s₀)
    (h : Turns KeepsApart s₀ s) :
    Corresponds s
      ∧ ∀ k, Corresponds (advance s (.reconcile k)) ↔ Apart s k := by
  obtain ⟨hkept, hc⟩ := corresponds_of_turns h₀ h
  exact ⟨hc, fun k => corresponds_reconcile_iff hkept hc⟩

theorem cluster_reconciled (s : Course) (k : Key) :
    (advance s (.reconcile k)).cluster = reconcileNow s.cluster k := rfl

/-! ## A dot and a dash -/

/-- Two CRs of one namespace: one asks for a.com, the other for a-com. -/
def dotAndDash : Course where
  cluster := clusterOf [(("default", "a"), ⟨newCR "a" "a.com" "x", 1⟩),
    (("default", "b"), ⟨newCR "b" "a-com" "y", 2⟩)] [] [] 2
  settled := []

/-- They are all there is. -/
theorem mem_dotAndDash {k : Key} {v : Versioned Multiplicador}
    (h : dotAndDash.cluster.crs k = some v) :
    (k = ("default", "a") ∧ v = ⟨newCR "a" "a.com" "x", 1⟩)
      ∨ (k = ("default", "b") ∧ v = ⟨newCR "b" "a-com" "y", 2⟩) := by
  have hmem := mem_of_storeOf h
  rcases List.mem_cons.mp hmem with e | hmem
  · exact Or.inl (Prod.mk.inj e)
  · exact Or.inr (Prod.mk.inj (List.mem_singleton.mp hmem))

theorem start_dotAndDash : Start dotAndDash := by
  refine ⟨wellFormed_clusterOf (by decide) (by decide) (by decide), ?_,
    fun _ => rfl, rfl⟩
  intro k v hv
  rcases mem_dotAndDash hv with ⟨-, rfl⟩ | ⟨-, rfl⟩
  · exact ⟨rfl, by decide, by decide, by decide⟩
  · exact ⟨rfl, by decide, by decide, by decide⟩

/-- The first of them is served, and the user of the second moves it to the
    host of the first. -/
def sharingHost : Course :=
  advance (advance dotAndDash (.reconcile ("default", "a")))
    (.edit ("default", "b") (specFor "a.com" "y"))

theorem turns_sharingHost : Turns KeepsApart dotAndDash sharingHost := by
  have hfirst : KeepsApart dotAndDash (.reconcile ("default", "a")) := by
    intro u _
    constructor
    · intro k' hk'
      exact absurd hk' List.not_mem_nil
    · intro q _
      have hnone : fqdnAt (content dotAndDash.cluster.proxies) q = none := rfl
      rw [hnone]
      simp
  have hasked : Asked (advance dotAndDash (.reconcile ("default", "a")))
      (.edit ("default", "b") (specFor "a.com" "y")) := by
    intro v hv
    rw [cluster_reconciled, reconcileNow_crs_of_ne start_dotAndDash.wellFormed
      (by decide)] at hv
    rcases mem_dotAndDash hv with ⟨e, -⟩ | ⟨-, rfl⟩
    · exact absurd e (by decide)
    · exact ⟨rfl, by decide, by decide, by decide⟩
  exact .tail (.single ⟨.reconcile ("default", "a"), trivial, hfirst, rfl⟩)
    ⟨.edit ("default", "b") (specFor "a.com" "y"), hasked, trivial, rfl⟩

/-- The two differ in their prefixes only, and nothing is to be taken out. -/
theorem keepsApart_sharingHost :
    KeepsApart sharingHost (.reconcile ("default", "b")) := by
  have ha : (sharingHost.cluster.crs ("default", "a")).map (fun x =>
      (x.obj.host, prefixOf x.obj)) = some ("a.com", "/x") := by
    decide +kernel
  have hb : (sharingHost.cluster.crs ("default", "b")).map (fun u =>
      (u.obj.host, prefixOf u.obj, dropsOld u.obj))
      = some ("a.com", "/y", false) := by
    decide +kernel
  intro u hu
  rw [hu] at hb
  obtain ⟨hhost, hpre, hdrops⟩ : u.obj.host = "a.com"
      ∧ prefixOf u.obj = "/y" ∧ dropsOld u.obj = false := by
    simpa using hb
  constructor
  · intro k' hk' _ x hx
    obtain rfl := List.mem_singleton.mp hk'
    rw [hx] at ha
    obtain ⟨hhost', hpre'⟩ :
        x.obj.host = "a.com" ∧ prefixOf x.obj = "/x" := by
      simpa using ha
    rintro (⟨hd, -⟩ | ⟨-, hh | hp⟩)
    · exact absurd (hdrops.symm.trans hd) (by simp)
    · exact hh (hhost.trans hhost'.symm)
    · rw [hpre, hpre'] at hp
      exact absurd hp (by decide)
  · intro q hq hf
    have hproxies : sharingHost.cluster.proxies
        = (advance dotAndDash (.reconcile ("default", "a"))).cluster.proxies :=
      editCR_proxies _ _ _
    rw [hproxies] at hf
    have hbefore := fqdnAt_elsewhere (k := ("default", "a"))
      start_dotAndDash.kept hq hf
    have hnone : fqdnAt (content dotAndDash.cluster.proxies) q = none := rfl
    exact absurd (hnone.symm.trans hbefore) (by simp)

/-- Then the second is reconciled, too, and both are served by one proxy. -/
theorem corresponds_sharingHost :
    sharingHost.settled = [("default", "a")]
      ∧ Corresponds (advance sharingHost (.reconcile ("default", "b"))) :=
  ⟨rfl, ((corresponds_iff_apart start_dotAndDash turns_sharingHost).2 _).mpr
    keepsApart_sharingHost⟩

/-- The second takes the proxy over: the route of the first is served under
    the host of the second. -/
theorem not_corresponds_dotAndDash :
    ¬ ∀ s₀ s : Course, Start s₀ → Turns (fun _ _ => True) s₀ s →
      (∀ k v, s.cluster.crs k = some v → k ∈ s.settled) → Corresponds s := by
  intro h
  set s₁ := advance dotAndDash (.reconcile ("default", "a")) with hs₁
  set s₂ := advance s₁ (.reconcile ("default", "b")) with hs₂
  have hkept₁ : Kept s₁ := kept_reconcile start_dotAndDash.kept
  have hkept₂ : Kept s₂ := kept_reconcile hkept₁
  have hruns : Turns (fun _ _ => True) dotAndDash s₂ :=
    .tail (.single ⟨.reconcile ("default", "a"), trivial, trivial, hs₁⟩)
      ⟨.reconcile ("default", "b"), trivial, trivial, hs₂⟩
  have hall : ∀ k v, s₂.cluster.crs k = some v → k ∈ s₂.settled := by
    intro k v hv
    by_cases hb : k = ("default", "b")
    · rw [hb]
      exact List.mem_cons_self
    · by_cases ha : k = ("default", "a")
      · rw [ha]
        exact List.mem_cons_of_mem _ List.mem_cons_self
      · rw [hs₂, cluster_reconciled, reconcileNow_crs_of_ne hkept₁.wellFormed hb,
          hs₁, cluster_reconciled,
          reconcileNow_crs_of_ne start_dotAndDash.wellFormed ha] at hv
        rcases mem_dotAndDash hv with ⟨e, -⟩ | ⟨e, -⟩
        · exact absurd e ha
        · exact absurd e hb
  have hc := h dotAndDash s₂ start_dotAndDash hruns hall
  have hfqdn : (s₂.cluster.crs ("default", "a")).map (fun v =>
      decide (fqdnAt (content s₂.cluster.proxies) (targetKey v.obj)
        = some v.obj.host)) = some false := by decide
  obtain ⟨v, hv, hne⟩ := Option.map_eq_some_iff.mp hfqdn
  have hserved := hc.served ("default", "a")
    (List.mem_cons_of_mem _ List.mem_cons_self) v hv
  rw [served_iff hkept₂.shaped (hkept₂.asks _ v hv)] at hserved
  exact absurd hserved.1 (by simpa using hne)

end VirtualHosts
