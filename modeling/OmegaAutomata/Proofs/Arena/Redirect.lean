/-
# Redirecting keeps the languages

Sending the transitions on to their destinations changes no step
(`Valid.redirectOnce`), because the destination of a destination is itself.  A state
that lost all transitions on the way leads nowhere and can be retired.  Each round
but the last one retires a live state, so `redirect` gets to a round after which no
live state leads to a retired one (`Valid.redirect`).  Only then may the retired
states be freed.
-/

import OmegaAutomata.Arena.Redirect
import OmegaAutomata.Proofs.Arena.Rewiring
import Mathlib.Data.List.Basic

namespace OmegaAutomata

namespace Arena

variable {a b c : Arena} {k : Nat} {id x y : StateId} {s t : State} {spared : Option StateId}

/-- A transition with its destination as target. -/
def forwarded (a : Arena) (t : Transition) : Option Transition :=
  (a.destination? t.target).map fun y => { t with target := y }

theorem filterMap_forwarded_eq_nil {ts : List Transition} :
    ts.filterMap a.forwarded = [] ↔ ∀ t ∈ ts, a.destination? t.target = none := by
  simp only [List.filterMap_eq_nil_iff, forwarded, Option.map_eq_none_iff]

theorem Redirectable.follow_eq (h : a.Redirectable) {t : Transition}
    (ht : (a.slot? t.target).isSome = true) : a.follow t = .ok (a.forwarded t) := by
  obtain ⟨⟨stage, s⟩, hs⟩ := Option.isSome_iff_exists.1 ht
  rw [follow, slot_eq_ok.2 hs, forwarded]
  cases stage with
  | pending => exact absurd hs (h.not_pending _ _)
  | live =>
    rw [LiveAt.destination?_eq hs]
    rfl
  | retired f =>
    rw [destination?_of_retired hs]
    cases f with
    | none => rfl
    | some y =>
      obtain ⟨u, hu⟩ := h.forward_live _ _ _ hs
      simp [slot_eq_ok.2 hu, Stage.isRetired]

theorem Redirectable.followAll_eq (h : a.Redirectable) (hs : a.LiveAt id s) :
    a.followAll id = .ok (s.transitions.filterMap a.forwarded) := by
  rw [followAll, hs.state_eq_ok]
  exact filterMapM_eq_ok fun t ht => h.follow_eq (h.target_some id s hs t ht)

/-- Transitions lead on to where they led before. -/
theorem Valid.exists_forwarded_iff (h : a.Valid) {ts : List Transition} {v : IndexSet} :
    (∃ t ∈ ts.filterMap a.forwarded,
        a.destination? t.target = some y ∧ t.label.holds v = true) ↔
      ∃ t ∈ ts, a.destination? t.target = some y ∧ t.label.holds v = true := by
  constructor
  · rintro ⟨u, hu, hy, hholds⟩
    obtain ⟨t, ht, htu⟩ := List.mem_filterMap.1 hu
    obtain ⟨z, hz, rfl⟩ := Option.map_eq_some_iff.1 htu
    obtain ⟨s, hs⟩ := h.destination_live hz
    rw [hs.destination?_eq] at hy
    cases hy
    exact ⟨t, ht, hz, hholds⟩
  · rintro ⟨t, ht, hy, hholds⟩
    obtain ⟨s, hs⟩ := h.destination_live hy
    exact ⟨{ t with target := y }, List.mem_filterMap.2 ⟨t, ht, by rw [forwarded, hy]; rfl⟩,
      hs.destination?_eq, hholds⟩

/-- Whether `x` dies with the states of `D`: it has transitions, each of them leads nowhere or into
`D`, and it is not spared. -/
def Starves (a : Arena) (spared : Option StateId) (D : Set StateId) (x : StateId) : Prop :=
  spared ≠ some x ∧ ∃ s, a.LiveAt x s ∧ s.transitions ≠ [] ∧
    ∀ t ∈ s.transitions, ∀ y, a.destination? t.target = some y → y ∈ D

theorem starves_empty_iff : a.Starves spared ∅ x ↔
    spared ≠ some x ∧ ∃ s, a.LiveAt x s ∧ s.transitions ≠ [] ∧
      s.transitions.filterMap a.forwarded = [] := by
  simp only [Starves, filterMap_forwarded_eq_nil, Option.eq_none_iff_forall_ne_some]
  rfl

/-- **One round** never fails.  It sends all transitions on, and reports the states that have none
left. -/
theorem Redirectable.exists_redirectOnce (h : a.Redirectable) (spared : Option StateId) :
    ∃ dead b, a.redirectOnce spared = .ok (dead, b) ∧ Rewires (List.filterMap a.forwarded) a b ∧
      dead.Sublist a.live ∧ ∀ x, x ∈ dead ↔ a.Starves spared ∅ x := by
  -- the new transitions of a state, as a function of its id
  let ts : StateId → List Transition := fun id => (a.transitionsOf id).filterMap a.forwarded
  have hts {id : StateId} {s : State} (hs : a.LiveAt id s) :
      ts id = s.transitions.filterMap a.forwarded := by
    simp only [ts, transitionsOf_eq hs]
  have hkept : (a.live.mapM fun id => do pure (id, ← a.followAll id) : Except Fault _) =
      .ok (a.live.map fun id => (id, ts id)) := by
    refine mapM_eq_ok fun id hid => ?_
    obtain ⟨s, hs⟩ := (h.mem_live id).1 hid
    rw [h.followAll_eq hs, hts hs]
    rfl
  have hids : ((a.live.map fun id => (id, ts id)).map Prod.fst) = a.live := by
    rw [List.map_map]
    exact List.map_id' a.live
  obtain ⟨hmem, hother⟩ := slot?_foldl_modify Prod.fst
    (fun (p : StateId × List Transition) s => { s with transitions := p.2 })
    (hids.symm ▸ h.live_nodup) a
  rw [redirectOnce, hkept]
  refine ⟨_, _, rfl, rewires_of_slot? h.mem_live (fun x hx => ?_)
    (fun x hx => hother x (hids.symm ▸ hx)) (foldl_modify_lists Prod.fst _ _ a), ?_, fun x => ?_⟩
  · obtain ⟨s, hs⟩ := (h.mem_live x).1 hx
    refine (hmem (x, ts x) (List.mem_map_of_mem hx)).trans ?_
    rw [hs, hts hs]
    rfl
  · exact (List.filter_sublist.map Prod.fst).trans (by rw [hids])
  · have hreported : x ∈ (((a.live.map fun id => (id, ts id)).filter fun p => p.2.isEmpty &&
        spared ≠ some p.1 && (a.slot? p.1).any fun s => !s.state.transitions.isEmpty).map Prod.fst) ↔
        x ∈ a.live ∧ (ts x).isEmpty = true ∧ spared ≠ some x ∧
          (a.slot? x).any (fun s => !s.state.transitions.isEmpty) = true := by
      simp [List.mem_filter, and_assoc]
    rw [starves_empty_iff]
    refine hreported.trans ⟨fun ⟨hx, hempty, hspared, hany⟩ => ?_, ?_⟩
    · obtain ⟨s, hs⟩ := (h.mem_live x).1 hx
      rw [hs, Option.any_some, Bool.not_eq_true', List.isEmpty_eq_false_iff] at hany
      exact ⟨hspared, s, hs, hany, hts hs ▸ List.isEmpty_iff.1 hempty⟩
    · rintro ⟨hspared, s, hs, hne, hnil⟩
      refine ⟨(h.mem_live x).2 ⟨s, hs⟩, List.isEmpty_iff.2 (hts hs ▸ hnil), hspared, ?_⟩
      rw [hs, Option.any_some, Bool.not_eq_true', List.isEmpty_eq_false_iff]
      exact hne

/-- What one round did: a state that it reports has no transitions afterwards. -/
theorem Valid.redirectOnce_eq (h : a.Valid) {dead : List StateId}
    (ha : a.redirectOnce spared = .ok (dead, b)) :
    Rewires (List.filterMap a.forwarded) a b ∧ dead.Sublist a.live ∧
      ∀ x ∈ dead, spared ≠ some x ∧ ∃ s, b.LiveAt x s ∧ s.transitions = [] := by
  obtain ⟨dead', b', hb, hrewires, hsublist, hdead⟩ := h.redirectable.exists_redirectOnce spared
  cases ha.symm.trans hb
  refine ⟨hrewires, hsublist, fun x hx => ?_⟩
  obtain ⟨hspared, s, hs, -, hnil⟩ := starves_empty_iff.1 ((hdead x).1 hx)
  exact ⟨hspared, _, hrewires.liveAt_iff.2 ⟨s, hs, rfl⟩, hnil⟩

/-- The transitions lead where they led before, so no step changes. -/
theorem Valid.system_redirectOnce (h : a.Valid) {dead : List StateId}
    (hb : a.redirectOnce spared = .ok (dead, b)) (k : Nat) : b.system k = a.system k :=
  (h.redirectOnce_eq hb).1.system_eq fun _ _ _ _ _ => h.exists_forwarded_iff

/-- What each part of a redirection with a state spared keeps. -/
structure Redirects (spared : Option StateId) (a b : Arena) : Prop where
  valid : b.Valid
  keeps : ∀ k, Keeps k a b
  counters : KeepsCounters a b
  spared_live : ∀ i s, spared = some i → a.LiveAt i s → ∃ t, b.LiveAt i t
  stays : ∀ k x s, a.LiveAt x s → Stays k x a b

theorem Redirects.trans (hab : Redirects spared a b) (hbc : Redirects spared b c) :
    Redirects spared a c where
  valid := hbc.valid
  keeps k := (hab.keeps k).trans (hbc.keeps k)
  counters := hab.counters.trans hbc.counters
  spared_live i s hi hs := by
    obtain ⟨t, ht⟩ := hab.spared_live i s hi hs
    exact hbc.spared_live i t hi ht
  stays k x s hs := (hab.stays k x s hs).trans (hab.keeps k) fun t ht => hbc.stays k x t ht

/-- **One round changes no step.**  After it, live states only lead to live states. -/
theorem Valid.redirectOnce (h : a.Valid) {dead : List StateId}
    (hb : a.redirectOnce spared = .ok (dead, b)) : Redirects spared a b ∧ b.Tidy := by
  obtain ⟨hrewires, -, -⟩ := h.redirectOnce_eq hb
  have hlive {x : StateId} {s : State} (hs : a.LiveAt x s) : ∃ t, b.LiveAt x t :=
    ⟨_, hrewires.liveAt_iff.2 ⟨s, hs, rfl⟩⟩
  have htarget {ts : List Transition} {t : Transition} (ht : t ∈ ts.filterMap a.forwarded) :
      ∃ u, a.LiveAt t.target u := by
    obtain ⟨t', -, ht'⟩ := List.mem_filterMap.1 ht
    obtain ⟨y, hy, rfl⟩ := Option.map_eq_some_iff.1 ht'
    exact h.destination_live hy
  have hsystem := h.system_redirectOnce hb
  refine ⟨⟨hrewires.valid h (hsystem 0) fun x s hs t ht => ?_, fun k => hrewires.keeps (hsystem k),
    hrewires.keepsCounters, fun i s _ hs => hlive hs, fun k x s hs => .inl (hlive hs)⟩,
    fun x s hs t ht => ?_⟩
  · obtain ⟨u, hu⟩ := htarget ht
    rw [hu]
    rfl
  · obtain ⟨s', -, rfl⟩ := hrewires.liveAt_iff.1 hs
    obtain ⟨u, hu⟩ := htarget ht
    exact hlive hu

/-- **States that lost all transitions are retired.**  They accept no word. -/
theorem Valid.retireDead (h : a.Valid) {dead : List StateId} (hnodup : dead.Nodup)
    (hdead : ∀ x ∈ dead, spared ≠ some x ∧ ∃ s, a.LiveAt x s ∧ s.transitions = [])
    (hb : a.retireAll dead = .ok b) : Redirects spared a b := by
  obtain ⟨hvalid, hlive, -, -⟩ := h.retireAll hb
  refine ⟨hvalid, fun k => h.keeps_retireAll hnodup (fun x hx => (hdead x hx).2) hb,
    fun x s hs => ⟨s, ((hlive x s).1 hs).2, rfl⟩, fun i s hi hs => ?_, fun k x s hs => ?_⟩
  · exact ⟨s, (hlive i s).2 ⟨fun hmem => (hdead i hmem).1 hi, hs⟩⟩
  · by_cases hx : x ∈ dead
    · obtain ⟨-, u, hu, hnil⟩ := hdead x hx
      exact .inr (not_acceptsFrom_of_not_leads (not_leads_of_transitions_eq_nil hu hnil))
    · exact .inl ⟨s, (hlive x s).2 ⟨hx, hs⟩⟩

/-- **Rounds come to an end.**  Every one but the last takes a live state away. -/
theorem Valid.redirectRounds (h : a.Valid) {bound n : Nat} (hbound : a.live.length < bound)
    (hb : a.redirectRounds spared bound = .ok (n, b)) : Redirects spared a b ∧ b.Tidy := by
  induction bound generalizing a n with
  | zero => exact absurd hbound (Nat.not_lt_zero _)
  | succ bound ih =>
    rw [Arena.redirectRounds] at hb
    obtain ⟨⟨dead, c⟩, hc, hb⟩ := bind_eq_ok.1 hb
    obtain ⟨hr, htidy⟩ := h.redirectOnce hc
    dsimp only at hb
    split at hb
    · cases hb
      exact ⟨hr, htidy⟩
    · rename_i hne
      obtain ⟨d, hd, hb⟩ := bind_eq_ok.1 hb
      obtain ⟨⟨m, e⟩, he, hb⟩ := bind_eq_ok.1 hb
      cases hb
      obtain ⟨hrewires, hsublist, hdead⟩ := h.redirectOnce_eq hc
      obtain ⟨-, -, hlive, -⟩ := hr.valid.retireAll hd
      have hr' := hr.valid.retireDead (h.live_nodup.sublist hsublist) hdead hd
      -- a state that died is no longer in the list of live states
      have hlength : d.live.length < a.live.length := by
        obtain ⟨x, hx⟩ := List.exists_mem_of_ne_nil dead fun hnil => hne (by rw [hnil]; rfl)
        rw [hlive, hrewires.live_eq]
        exact List.length_filter_lt_length_iff_exists.2 ⟨x, hsublist.subset hx, by simpa using hx⟩
      obtain ⟨hr'', htidy'⟩ := ih hr'.valid (by omega) he
      exact ⟨(hr.trans hr').trans hr'', htidy'⟩

/-! ### Freeing the retired states -/

theorem Redirectable.slot?_sweep_eq_some (h : a.Redirectable) {l : Slot} :
    a.sweepNow.slot? x = some l ↔ l.stage = .live ∧ a.slot? x = some l := by
  rw [slot?_sweepNow]
  constructor
  · intro hl
    split at hl
    · contradiction
    · rename_i hx
      obtain ⟨stage, s⟩ := l
      refine ⟨?_, hl⟩
      cases stage with
      | pending => exact absurd hl (h.not_pending x s)
      | live => rfl
      | retired f => exact absurd ((h.mem_retired x).2 ⟨f, s, hl⟩) hx
  · rintro ⟨hlive, hl⟩
    rw [if_neg, hl]
    intro hx
    obtain ⟨f, s, hs⟩ := (h.mem_retired x).1 hx
    cases hl.symm.trans hs
    contradiction

theorem Redirectable.liveAt_sweepNow (h : a.Redirectable) : a.sweepNow.LiveAt x s ↔ a.LiveAt x s := by
  rw [LiveAt, h.slot?_sweep_eq_some, and_iff_right rfl]

theorem Valid.liveAt_sweepNow (h : a.Valid) : a.sweepNow.LiveAt x s ↔ a.LiveAt x s :=
  h.redirectable.liveAt_sweepNow

theorem Valid.tidy_sweepNow (h : a.Valid) (htidy : a.Tidy) : a.sweepNow.Tidy := by
  intro x s hs t ht
  obtain ⟨u, hu⟩ := htidy x s (h.liveAt_sweepNow.1 hs) t ht
  exact ⟨u, h.liveAt_sweepNow.2 hu⟩

/-- No step goes to a retired state, so none is lost. -/
theorem Valid.system_sweepNow (h : a.Valid) (htidy : a.Tidy) (k : Nat) :
    a.sweepNow.system k = a.system k := by
  have hdestination {x : StateId} {s : State} (hs : a.LiveAt x s) {t : Transition}
      (ht : t ∈ s.transitions) : a.sweepNow.destination? t.target = a.destination? t.target := by
    obtain ⟨u, hu⟩ := htidy x s hs t ht
    rw [hu.destination?_eq, (h.liveAt_sweepNow.2 hu).destination?_eq]
  refine System.ext ?_ ?_
  · funext v x y
    apply propext
    simp only [system, h.liveAt_sweepNow]
    refine exists_congr fun s => and_congr_right fun hs => exists_congr fun t =>
      and_congr_right fun ht => ?_
    rw [hdestination hs ht]
  · funext x
    simp only [system, h.liveAt_sweepNow]

theorem Valid.sweepNow (h : a.Valid) (htidy : a.Tidy) : a.sweepNow.Valid where
  live_nodup := by
    rw [sweepNow_live]
    exact h.live_nodup
  retired_nodup := List.nodup_nil
  mem_live x := by simp only [sweepNow_live, h.mem_live, h.liveAt_sweepNow]
  mem_retired x := by simp [h.redirectable.slot?_sweep_eq_some]
  forward_live x f s hs := by simpa using (h.redirectable.slot?_sweep_eq_some.1 hs).1
  target_some x l hl t ht := by
    obtain ⟨stage, s⟩ := l
    obtain ⟨rfl, hs⟩ := h.redirectable.slot?_sweep_eq_some.1 hl
    obtain ⟨u, hu⟩ := htidy x s hs t ht
    rw [h.liveAt_sweepNow.2 hu]
    rfl
  not_pending x s hs := by simpa using (h.redirectable.slot?_sweep_eq_some.1 hs).1
  transient x s hs hflex := by
    rw [← onCycle_system (k := 0), h.system_sweepNow htidy, onCycle_system]
    exact h.transient x s (h.liveAt_sweepNow.1 hs) hflex

/-- **Retired states that nothing leads to can be freed.** -/
theorem Valid.redirects_sweepNow (h : a.Valid) (htidy : a.Tidy) (spared : Option StateId) :
    Redirects spared a a.sweepNow where
  valid := h.sweepNow htidy
  keeps k := ⟨by rw [sweepNow_live], fun x s hs => ⟨s, h.liveAt_sweepNow.1 hs⟩,
    fun x s _ w => by rw [h.system_sweepNow htidy]⟩
  counters x s hs := ⟨s, h.liveAt_sweepNow.1 hs, rfl⟩
  spared_live i s _ hs := ⟨s, h.liveAt_sweepNow.2 hs⟩
  stays k x s hs := .inl ⟨s, h.liveAt_sweepNow.2 hs⟩

/-- **Redirecting keeps the languages**, and leaves only live states, which lead to each other. -/
theorem Valid.redirect (h : a.Valid) {n : Nat} (hb : a.redirect spared = .ok (n, b)) :
    Redirects spared a b ∧ b.Tidy := by
  rw [Arena.redirect] at hb
  obtain ⟨⟨m, c⟩, hc, hb⟩ := bind_eq_ok.1 hb
  obtain ⟨d, hd, hb⟩ := bind_eq_ok.1 hb
  cases hb
  obtain rfl := eq_sweepNow hd
  obtain ⟨hr, htidy⟩ := h.redirectRounds (Nat.lt_succ_self _) hc
  exact ⟨hr.trans (hr.valid.redirects_sweepNow htidy spared), hr.valid.tidy_sweepNow htidy⟩

end Arena

end OmegaAutomata
