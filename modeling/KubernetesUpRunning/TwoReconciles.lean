import KubernetesUpRunning.ProxyMoves

/-! # Two reconciles, move by move

    The two moves of each of two CRs, in any order and with leaving repeated,
    come to one reconcile after the other, up to the order of owners and routes
    (`alike_serial`).  Only when each CR moves to the proxy that the other one
    leaves, and both are away at once, does that take a condition
    (`CrossesWell`).  Under the prefix that a reconcile has taken out there is
    then nothing but what the other one has put in (`takenOut_of_word`), and
    what a reconcile has put in stays as long as the other one does not take it
    out (`installed_departProxies`, `installed_joinProxies`). -/

namespace TwoReconciles

open ApiServer GoJson KubeObjects ProxyMoves ProxyShape ProxyView Reconcile
open ReconcileEffect ReconcileRun TwoParties

/-- A CR as a party.  It joins when its merge does not panic, and it has to
    begin again only if the other one may have touched its target. -/
def party (u : Bool → Multiplicador) (i : Bool) :
    Party (Key → Option Fields) where
  leave := departProxies (u i)
  join := joinProxies (u i)
  ready P := joins (u i) = true →
    ∃ m, mergeContent (u i) (P (targetKey (u i))) = some m
  again := Enters (u i) (u !i) ∨ Meets (u i) (u !i)

/-- One CR moving to the proxy that the other leaves may as well have moved
    there first, and the other way round at least once both have left. -/
def CrossesWell (u : Bool → Multiplicador) (P : Key → Option Fields) : Prop :=
  ∃ i, FreeFor (u i) (u !i) ∧ Renewable (u i) (u !i) (P (oldKey (u i)))
    ∧ (FreeFor (u !i) (u i)
      ∨ Renewable (u !i) (u i) (P (oldKey (u !i))))

/-- Both may be away at once, having left and not joined: they cross well if
    each moves to the proxy that the other one leaves. -/
def MayMix (u : Bool → Multiplicador) (P : Key → Option Fields) : Prop :=
  (∀ i, Enters (u i) (u !i)) → CrossesWell u P

/-- What `w` takes out of the proxies is what `u` puts in. -/
def Takes (w u : Multiplicador) : Prop :=
  joins u = true ∧ dropsOld w = true ∧ oldKey w = targetKey u
    ∧ prevRoute w = prefixOf u

/-- The contents that the moves of both lead to. -/
abbrev Trail (u : Bool → Multiplicador) (P₀ : Key → Option Fields) :
    (Bool → Progress) → (Key → Option Fields) → Prop :=
  Word (party u) (MayMix u P₀) P₀

section Pair

variable {u : Bool → Multiplicador} {P₀ P : Key → Option Fields}
  {g : Bool → Progress} {i : Bool}

theorem tidy_party (u : Bool → Multiplicador) : Tidy (party u) where
  idem i P := departProxies_idem (u i) P
  comm i P := departProxies_comm (u i) (u !i) P

/-- One that has nothing to leave does not cross with the other. -/
theorem mayMix_of_stays (h : departs (u i) = false) : MayMix u P := by
  intro hx
  have hd := (hx !i).2.1
  rw [Bool.not_not] at hd
  exact absurd (h.symm.trans hd) (by simp)

theorem joinsFreely_of_not_enters (h : ¬ Enters (u i) (u !i)) :
    JoinsFreely (party u) i := fun P => joinProxies_departProxies h P

/-- Whoever leaves the proxy that the other one joins does not join it. -/
theorem not_meets_of_enters {v w : Multiplicador} (h : Enters v w) :
    ¬ Meets w v := by
  rintro ⟨hj, -, hk⟩
  exact oldKey_ne_targetKey hj h.2.1 (h.2.2.symm.trans hk.symm)

theorem Alike.refl (P : Key → Option Fields) : Alike P P :=
  fun _ => AlikeAt.refl _

/-! ## Each moves to the proxy that the other leaves -/

/-- The contents with `o` in the proxy that `i` leaves and `o'` in the one that
    the other leaves. -/
def crossed (u : Bool → Multiplicador) (i : Bool) (P : Key → Option Fields)
    (o o' : Option Fields) : Key → Option Fields :=
  Function.update (Function.update P (oldKey (u !i)) o') (oldKey (u i)) o

theorem alike_crossed {o o' p p' : Option Fields} (h : AlikeAt o p)
    (h' : AlikeAt o' p') : Alike (crossed u i P o o') (crossed u i P p p') := by
  intro q
  unfold crossed
  by_cases hq : q = oldKey (u i)
  · rw [hq, Function.update_self, Function.update_self]
    exact h
  · rw [Function.update_of_ne hq, Function.update_of_ne hq]
    by_cases hq' : q = oldKey (u !i)
    · rw [hq', Function.update_self, Function.update_self]
      exact h'
    · rw [Function.update_of_ne hq', Function.update_of_ne hq']
      exact AlikeAt.refl _

section Crossing

variable (hx : ∀ i, Enters (u i) (u !i))
include hx

theorem leave_crossing (i : Bool) (P : Key → Option Fields) :
    (party u i).leave P = moveAt (oldKey (u i)) (leaveAt (u i)) P := by
  have hd := (hx (!i)).2.1
  rw [Bool.not_not] at hd
  exact departProxies_of_departs hd

theorem join_crossing (i : Bool) (P : Key → Option Fields) :
    (party u i).join P = moveAt (oldKey (u !i)) (joinAt (u i)) P := by
  rw [← (hx i).2.2]
  exact joinProxies_of_joins (hx i).1

theorem oldKey_ne_crossing (i : Bool) : oldKey (u i) ≠ oldKey (u !i) := by
  have hd := (hx (!i)).2.1
  rw [Bool.not_not] at hd
  rw [← (hx i).2.2]
  exact oldKey_ne_targetKey (hx i).1 hd

/-- It does not matter which of the two is named first. -/
theorem crossed_not (i : Bool) (P : Key → Option Fields)
    (o o' : Option Fields) : crossed u (!i) P o' o = crossed u i P o o' := by
  rw [crossed]
  rw [Bool.not_not]
  exact Function.update_comm (oldKey_ne_crossing hx i) _ _ _

theorem eq_crossed {p : Key → Option Fields} {o o' : Option Fields}
    (hi : p (oldKey (u i)) = o) (hj : p (oldKey (u !i)) = o')
    (hp : ∀ q, q ≠ oldKey (u i) → q ≠ oldKey (u !i) → p q = P q) :
    p = crossed u i P o o' := by
  have hne := oldKey_ne_crossing hx i
  funext q
  by_cases h : q = oldKey (u i)
  · rw [h, hi, crossed, Function.update_self]
  · rw [crossed, Function.update_of_ne h]
    by_cases h' : q = oldKey (u !i)
    · rw [h', hj, Function.update_self]
    · rw [hp q h h', Function.update_of_ne h']

/-- One after the other. -/
theorem serial_crossing (i : Bool) (P : Key → Option Fields) :
    serial (party u) P i = crossed u i P
      (joinAt (u !i) (leaveAt (u i) (P (oldKey (u i)))))
      (leaveAt (u !i) (joinAt (u i) (P (oldKey (u !i))))) := by
  have hne := oldKey_ne_crossing hx i
  rw [serial]
  simp only [leave_crossing hx, join_crossing hx, Bool.not_not]
  refine eq_crossed hx ?_ ?_ ?_
  · simp [moveAt_self, moveAt_of_ne hne]
  · simp [moveAt_self, moveAt_of_ne hne.symm]
  · intro q hq hq'
    simp [moveAt_of_ne hq, moveAt_of_ne hq']

/-- Both have left before either joins. -/
theorem mixed_crossing (i : Bool) (P : Key → Option Fields) :
    (party u !i).join ((party u i).join (bothLeft (party u) P i))
      = crossed u i P (joinAt (u !i) (leaveAt (u i) (P (oldKey (u i)))))
        (joinAt (u i) (leaveAt (u !i) (P (oldKey (u !i))))) := by
  have hne := oldKey_ne_crossing hx i
  rw [bothLeft]
  simp only [leave_crossing hx, join_crossing hx, Bool.not_not]
  refine eq_crossed hx ?_ ?_ ?_
  · simp [moveAt_self, moveAt_of_ne hne]
  · simp [moveAt_self, moveAt_of_ne hne.symm]
  · intro q hq hq'
    simp [moveAt_of_ne hq, moveAt_of_ne hq']

/-- The second one leaves once more before it joins. -/
theorem mixedAgain_crossing (i : Bool) (P : Key → Option Fields) :
    (party u !i).join ((party u !i).leave
        ((party u i).join (bothLeft (party u) P i)))
      = crossed u i P (joinAt (u !i) (leaveAt (u i) (P (oldKey (u i)))))
        (leaveAt (u !i) (joinAt (u i)
          (leaveAt (u !i) (P (oldKey (u !i)))))) := by
  have hne := oldKey_ne_crossing hx i
  rw [bothLeft]
  simp only [leave_crossing hx, join_crossing hx, Bool.not_not]
  refine eq_crossed hx ?_ ?_ ?_
  · simp [moveAt_self, moveAt_of_ne hne]
  · simp [moveAt_self, moveAt_of_ne hne.symm]
  · intro q hq hq'
    simp [moveAt_of_ne hq, moveAt_of_ne hq']

theorem moves_crossing (i : Bool) :
    prevProxy (u i) ≠ proxyNameOf (u i) := by
  have hd := (hx (!i)).2.1
  rw [Bool.not_not] at hd
  intro h
  refine oldKey_ne_targetKey (hx i).1 hd ?_
  rw [oldKey, targetKey, h]

/-- **CROSSING**: both end where one after the other would have. -/
theorem alike_crossing (huid : (u true).uid ≠ (u false).uid)
    (h : Trail u P₀ (fun _ => .joined) P) :
    ∃ i, Alike P (serial (party u) P₀ i) := by
  have huid' : ∀ i, (u i).uid ≠ (u !i).uid := by
    intro i
    cases i with
    | true => exact huid
    | false => exact huid.symm
  -- after `!k` has joined the proxy that `k` left, `k` leaving is no news
  have hwell : MayMix u P₀ → ∃ k,
      AlikeAt (joinAt (u !k) (leaveAt (u k) (P₀ (oldKey (u k)))))
        (leaveAt (u k) (joinAt (u !k) (P₀ (oldKey (u k)))))
      ∧ Renewable (u k) (u !k) (P₀ (oldKey (u k)))
      ∧ (FreeFor (u !k) (u k)
        ∨ Renewable (u !k) (u k) (P₀ (oldKey (u !k)))) := by
    intro hmix
    obtain ⟨k, hfree, hre, hback⟩ := hmix hx
    exact ⟨k, joinAt_leaveAt (huid' k) (moves_crossing hx !k) hfree hre, hre,
      hback⟩
  obtain ⟨i, rfl | ⟨hmix, rfl⟩ | ⟨hmix, -, rfl⟩⟩ :=
    forms_of_joined (tidy_party u) h
  · exact ⟨i, Alike.refl _⟩
  · obtain ⟨k, hk, -, -⟩ := hwell hmix
    refine ⟨!k, ?_⟩
    have hmix : (party u !i).join ((party u i).join (bothLeft (party u) P₀ i))
        = crossed u k P₀ (joinAt (u !k) (leaveAt (u k) (P₀ (oldKey (u k)))))
          (joinAt (u k) (leaveAt (u !k) (P₀ (oldKey (u !k))))) := by
      rw [mixed_crossing hx]
      by_cases hi : i = k
      · rw [hi]
      · rw [eq_not_of_ne hi, crossed_not hx, Bool.not_not]
    rw [hmix, serial_crossing hx, crossed_not hx, Bool.not_not]
    exact alike_crossed hk (AlikeAt.refl _)
  · obtain ⟨k, hk, hre, hback⟩ := hwell hmix
    by_cases hi : i = k
    · subst hi
      rw [mixedAgain_crossing hx]
      rcases hback with hfree' | hre'
      · refine ⟨!i, ?_⟩
        rw [serial_crossing hx, crossed_not hx, Bool.not_not]
        refine alike_crossed hk ?_
        have hj := leaveAt_joinAt_of_free (huid' !i)
          (w := u !!i) (moves_crossing hx !!i) (by rwa [Bool.not_not])
          (P₀ (oldKey (u !i)))
        rwa [Bool.not_not] at hj
      · refine ⟨i, ?_⟩
        rw [serial_crossing hx]
        refine alike_crossed (AlikeAt.refl _) ?_
        have hj := leaveAt_joinAt_leaveAt (huid' !i)
          (w := u !!i) (moves_crossing hx !!i) (by rwa [Bool.not_not])
        rwa [Bool.not_not] at hj
    · obtain rfl := eq_not_of_ne hi
      refine ⟨!k, ?_⟩
      rw [mixedAgain_crossing hx, serial_crossing hx, Bool.not_not]
      exact alike_crossed (AlikeAt.refl _)
        (leaveAt_joinAt_leaveAt (huid' k) (moves_crossing hx !k) hre)

end Crossing

/-- **ONE AFTER THE OTHER**: the moves of both come to the one reconcile, then
    the other, up to the order of owners and routes. -/
theorem alike_serial (huid : (u true).uid ≠ (u false).uid)
    (h : Trail u P₀ (fun _ => .joined) P) :
    ∃ i, Alike P (serial (party u) P₀ i) := by
  by_cases hx : ∀ i, Enters (u i) (u !i)
  · exact alike_crossing hx huid h
  · have hserial : ∃ i, P = serial (party u) P₀ i := by
      obtain ⟨k, hk⟩ := not_forall.mp hx
      have hfree := joinsFreely_of_not_enters hk
      by_cases hk' : Enters (u !k) (u k)
      · -- `k` leaves the proxy that the other one joins
        have hmeet := not_meets_of_enters hk'
        refine serial_of_oneWay (tidy_party u) hfree ?_ ?_ h
        · rintro (he | hm)
          · exact hk he
          · exact hmeet hm
        · intro x
          exact joinProxies_comm hmeet x
      · have hfree' : JoinsFreely (party u) !k :=
          joinsFreely_of_not_enters (by rwa [Bool.not_not])
        exact serial_of_free (tidy_party u) (forall_of_pair hfree hfree') h
    obtain ⟨i, rfl⟩ := hserial
    exact ⟨i, Alike.refl _⟩

/-! ## The routes -/

/-- Under the prefix that `i` has taken out there is nothing but what the other
    one has put in. -/
def TakenOut (u : Bool → Multiplicador) (i : Bool) (P : Key → Option Fields) :
    Prop :=
  dropsOld (u i) = true → prevRoute (u i) ≠ "" →
    ∀ r ∈ routesAt P (oldKey (u i)), firstPrefix r = some (prevRoute (u i)) →
      joins (u !i) = true ∧ r = routeFor (u !i)

/-- The other one leaves. -/
theorem takenOut_other_leaves (h : TakenOut u i P) :
    TakenOut u i ((party u !i).leave P) := by
  intro hd hne r hr
  refine h hd hne r ?_
  have hr' : r ∈ routesAt (departProxies (u !i) P) (oldKey (u i)) := hr
  rw [routesAt_departProxies] at hr'
  split at hr'
  · exact (mem_keptRoutes.mp hr').1
  · exact hr'

/-- The other one joins. -/
theorem takenOut_other_joins (hr : (party u !i).ready P) (h : TakenOut u i P) :
    TakenOut u i ((party u !i).join P) := by
  show TakenOut u i (joinProxies (u !i) P)
  cases hj : joins (u !i) with
  | false =>
      rw [joinProxies_of_not hj]
      exact h
  | true =>
      obtain ⟨m, hm⟩ := hr hj
      have hjoin : joinProxies (u !i) P = installProxies (u !i) P := if_pos hj
      rw [hjoin]
      intro hd hne r hr₁ hp
      rw [routesAt_installProxies _ hm] at hr₁
      split at hr₁
      · rcases mem_upsertRoute hr₁ with rfl | hr₁
        · exact ⟨hj, rfl⟩
        · exact h hd hne r (mem_mergeBase.mp hr₁).1 hp
      · exact h hd hne r hr₁ hp

/-- `i` itself leaves. -/
theorem takenOut_leaves (hd : departs (u i) = true) (P : Key → Option Fields) :
    TakenOut u i ((party u i).leave P) := by
  rintro - hne r hr hp
  have hr' : r ∈ routesAt (departProxies (u i) P) (oldKey (u i)) := hr
  rw [routesAt_departProxies, if_pos ⟨hd, rfl⟩] at hr'
  exact absurd ⟨hne, hp⟩ (mem_keptRoutes.mp hr').2

/-- `i` itself joins; if it stays in its proxy, this takes the old prefix
    out. -/
theorem takenOut_joins (hr : (party u i).ready P)
    (h : departs (u i) = true → TakenOut u i P) :
    TakenOut u i ((party u i).join P) := by
  show TakenOut u i (joinProxies (u i) P)
  cases hj : joins (u i) with
  | false =>
      rw [joinProxies_of_not hj]
      intro hd
      -- without joining only leaving takes a prefix out
      exact h (by simpa [dropsOld, hj] using hd) hd
  | true =>
      obtain ⟨m, hm⟩ := hr hj
      have hjoin : joinProxies (u i) P = installProxies (u i) P := if_pos hj
      rw [hjoin]
      intro hd hne r hr₁ hp
      rw [routesAt_installProxies _ hm] at hr₁
      split at hr₁
      · rename_i hq
        have hdep : departs (u i) = false := by
          by_contra hdep
          exact oldKey_ne_targetKey hj (by simpa using hdep) hq
        have hstay : prevProxy (u i) = proxyNameOf (u i)
            ∧ prevRoute (u i) ≠ prefixOf (u i) := by
          simpa [dropsOld, hdep, hj] using hd
        rcases mem_upsertRoute hr₁ with rfl | hr₁
        · exact absurd (Option.some.inj hp).symm hstay.2
        · exact absurd ⟨hstay, hne, hp⟩ (mem_mergeBase.mp hr₁).2
      · rename_i hq
        have hdep : departs (u i) = true := by
          by_contra hdep
          have hstay : prevProxy (u i) = proxyNameOf (u i)
              ∧ prevRoute (u i) ≠ prefixOf (u i) := by
            simpa [dropsOld, hdep, hj] using hd
          exact hq (by rw [oldKey, targetKey, hstay.1])
        exact h hdep hd hne r hr₁ hp

/-- **TAKEN OUT**: whatever the order of the moves, what `i` takes out stays
    out. -/
theorem takenOut_of_word {mix : Prop} (h : Word (party u) mix P₀ g P) :
    ∀ i, g i = .joined ∨ (g i = .left ∧ departs (u i) = true) →
      TakenOut u i P := by
  induction h with
  | start =>
      rintro i (h | ⟨h, -⟩)
      · exact absurd h (by simp)
      · exact absurd h (by simp)
  | @leave g P j h hj hm ih =>
      refine forall_of_pair (i := j) ?_ ?_
      · rw [Function.update_self]
        rintro (hg | ⟨-, hd⟩)
        · exact absurd hg (by simp)
        · exact takenOut_leaves hd P
      · rw [update_other]
        intro hg
        have hother := takenOut_other_leaves (ih (!j) hg)
        rwa [Bool.not_not] at hother
  | @again g P j h hj ha ih =>
      refine forall_of_pair (i := j) ?_ ?_
      · rw [hj]
        rintro (hg | ⟨-, hd⟩)
        · exact absurd hg (by simp)
        · exact takenOut_leaves hd P
      · intro hg
        have hother := takenOut_other_leaves (ih (!j) hg)
        rwa [Bool.not_not] at hother
  | @join g P j h hj hr ih =>
      refine forall_of_pair (i := j) ?_ ?_
      · intro _
        exact takenOut_joins hr fun hd => ih j (Or.inr ⟨hj, hd⟩)
      · rw [update_other]
        intro hg
        have hother := takenOut_other_joins (i := !j)
          (by rwa [Bool.not_not]) (ih (!j) hg)
        rwa [Bool.not_not] at hother

section Installed

variable {v w : Multiplicador}

/-- What a CR has put in stays when one leaves that does not take it out. -/
theorem installed_departProxies (ht : ¬ Takes w v) (hj : joins v = true)
    (h : routeFor v ∈ routesAt P (targetKey v)) :
    routeFor v ∈ routesAt (departProxies w P) (targetKey v) := by
  rw [routesAt_departProxies]
  split
  · rename_i hd
    refine mem_keptRoutes.mpr ⟨h, ?_⟩
    rintro ⟨-, hp⟩
    have hp' : prefixOf v = prevRoute w := Option.some.inj hp
    exact ht ⟨hj, by simp [dropsOld, hd.1], hd.2.symm, hp'.symm⟩
  · exact h

/-- And when one joins that does not take it out and has another target. -/
theorem installed_joinProxies (ht : ¬ Takes w v) (hj : joins v = true)
    (hne : (targetKey v, prefixOf v) ≠ (targetKey w, prefixOf w))
    {m : Fields} (hm : mergeContent w (P (targetKey w)) = some m)
    (h : routeFor v ∈ routesAt P (targetKey v)) :
    routeFor v ∈ routesAt (joinProxies w P) (targetKey v) := by
  rw [joinProxies]
  split
  · rename_i hjw
    rw [routesAt_installProxies _ hm]
    split
    · rename_i hq
      refine mem_upsertRoute_of_ne (mem_mergeBase.mpr ⟨h, ?_⟩) ?_
      · rintro ⟨⟨hp, hpre⟩, -, hold⟩
        have hold' : prefixOf v = prevRoute w := Option.some.inj hold
        refine ht ⟨hj, by simp [dropsOld, hjw, hp, hpre], ?_, hold'.symm⟩
        rw [hq, oldKey, hp, targetKey]
      · have hpre : prefixOf v ≠ prefixOf w := fun e => hne (Prod.ext hq e)
        simpa [hasPrefix] using hpre
    · exact h
  · exact h

/-- A CR that joins puts its route in. -/
theorem installed_self {m : Fields} (hj : joins w = true)
    (hm : mergeContent w (P (targetKey w)) = some m) :
    routeFor w ∈ routesAt (joinProxies w P) (targetKey w) := by
  rw [joinProxies, if_pos hj, routesAt_installProxies _ hm, if_pos rfl]
  exact route_mem_upsertRoute _ _ _

end Installed

end Pair

end TwoReconciles
