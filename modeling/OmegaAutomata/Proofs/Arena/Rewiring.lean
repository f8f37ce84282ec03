/-
# Rewiring all live states

Subsumed transitions are dropped, and transitions redirected, in all live states
together: the lists of transitions change and nothing else does.  `Rewires` says
this.  If the new transitions lead where the old ones led, on the same letters, the
arena has the same steps as before (`Rewires.system_eq`), and everything that is
said with steps stays true.

Dropping subsumed transitions is of this kind, because a transition can be taken
whenever one that it subsumes can (`exists_mem_prune`).
-/

import OmegaAutomata.Proofs.Arena.Graph
import OmegaAutomata.Proofs.Subsumption

namespace OmegaAutomata

namespace Arena

variable {a b : Arena} {k : Nat} {id x y : StateId} {s t : State}
  {f : List Transition → List Transition}

/-! ### Changing the transitions of all live states -/

/-- What is found after states with different ids were changed one after another. -/
theorem slot?_foldl_modify {α : Type} (i : α → StateId) (g : α → State → State) {l : List α}
    (h : (l.map i).Nodup) (a : Arena) :
    (∀ p ∈ l, (l.foldl (fun a p => a.modify (i p) (g p)) a).slot? (i p) =
      (a.slot? (i p)).map fun s => { s with state := g p s.state }) ∧
    ∀ x ∉ l.map i, (l.foldl (fun a p => a.modify (i p) (g p)) a).slot? x = a.slot? x := by
  induction l generalizing a with
  | nil => simp
  | cons p l ih =>
    rw [List.map_cons, List.nodup_cons] at h
    obtain ⟨hmem, hother⟩ := ih h.2 (a.modify (i p) (g p))
    refine ⟨fun q hq => ?_, fun x hx => ?_⟩
    · rcases List.mem_cons.1 hq with rfl | hq
      · rw [List.foldl_cons, hother _ h.1, slot?_modify_self]
      · have hne : i q ≠ i p := fun he => h.1 (he ▸ List.mem_map_of_mem hq)
        rw [List.foldl_cons, hmem q hq, slot?_modify_of_ne hne]
    · rw [List.map_cons, List.mem_cons, not_or] at hx
      rw [List.foldl_cons, hother x hx.2, slot?_modify_of_ne hx.1]

theorem foldl_modify_lists {α : Type} (i : α → StateId) (g : α → State → State) (l : List α)
    (a : Arena) : (l.foldl (fun a p => a.modify (i p) (g p)) a).live = a.live ∧
      (l.foldl (fun a p => a.modify (i p) (g p)) a).retired = a.retired ∧
        (l.foldl (fun a p => a.modify (i p) (g p)) a).pending = a.pending := by
  induction l generalizing a with
  | nil => exact ⟨rfl, rfl, rfl⟩
  | cons p l ih => exact ih _

/-- `b` is `a` after the transitions of every live state were replaced by what `f` makes of them. -/
structure Rewires (f : List Transition → List Transition) (a b : Arena) : Prop where
  live_eq : b.live = a.live
  retired_eq : b.retired = a.retired
  pending_eq : b.pending = a.pending
  slot?_eq : ∀ x, b.slot? x = (a.slot? x).map fun l =>
    if l.stage = .live then
      { l with state := { l.state with transitions := f l.state.transitions } }
    else l

/-- An arena is rewired when every state of the list of live states has its transitions replaced,
and no other state. -/
theorem rewires_of_slot? (hmem : ∀ x, x ∈ a.live ↔ ∃ s, a.LiveAt x s)
    (hlive : ∀ x ∈ a.live, b.slot? x = (a.slot? x).map fun l =>
      { l with state := { l.state with transitions := f l.state.transitions } })
    (hother : ∀ x ∉ a.live, b.slot? x = a.slot? x)
    (hlists : b.live = a.live ∧ b.retired = a.retired ∧ b.pending = a.pending) :
    Rewires f a b := by
  refine ⟨hlists.1, hlists.2.1, hlists.2.2, fun x => ?_⟩
  by_cases hx : x ∈ a.live
  · obtain ⟨t, ht⟩ := (hmem x).1 hx
    rw [hlive x hx, ht]
    rfl
  · rw [hother x hx]
    cases hxs : a.slot? x with
    | none => rfl
    | some l =>
      have hne : l.stage ≠ .live := fun he => hx ((hmem x).2 ⟨l.state, by rw [LiveAt, hxs, ← he]⟩)
      rw [Option.map_some, if_neg hne]

namespace Rewires

theorem stage_iff (h : Rewires f a b) (x : StateId) (stage : Stage) :
    (∃ s, b.slot? x = some ⟨stage, s⟩) ↔ ∃ s, a.slot? x = some ⟨stage, s⟩ := by
  rw [h.slot?_eq]
  cases a.slot? x with
  | none => simp
  | some l =>
    obtain ⟨stage', t⟩ := l
    by_cases hl : stage' = .live <;> simp [hl]

theorem liveAt_iff (h : Rewires f a b) :
    b.LiveAt x s ↔ ∃ t, a.LiveAt x t ∧ s = { t with transitions := f t.transitions } := by
  rw [LiveAt, h.slot?_eq, Option.map_eq_some_iff]
  constructor
  · rintro ⟨⟨stage, t⟩, ht, heq⟩
    split at heq
    · rename_i hl
      obtain rfl : stage = .live := hl
      cases heq
      exact ⟨t, ht, rfl⟩
    · cases heq
      exact absurd rfl ‹¬_›
  · rintro ⟨t, ht, rfl⟩
    exact ⟨_, ht, rfl⟩

theorem destination?_eq (h : Rewires f a b) (y : StateId) :
    b.destination? y = a.destination? y := by
  rw [destination?, destination?, h.slot?_eq]
  cases a.slot? y with
  | none => rfl
  | some l =>
    obtain ⟨stage, t⟩ := l
    cases stage <;> rfl

/-- **Steps do not change** if the new transitions lead where the old ones led. -/
theorem system_eq (h : Rewires f a b) (hf : ∀ x s, a.LiveAt x s → ∀ v y,
      (∃ t ∈ f s.transitions, a.destination? t.target = some y ∧ t.label.holds v = true) ↔
        ∃ t ∈ s.transitions, a.destination? t.target = some y ∧ t.label.holds v = true) :
    b.system k = a.system k := by
  have hstep : (b.system k).step = (a.system k).step := by
    funext v x y
    apply propext
    simp only [system, h.liveAt_iff, h.destination?_eq]
    constructor
    · rintro ⟨_, ⟨s, hs, rfl⟩, ht⟩
      exact ⟨s, hs, (hf x s hs v y).1 ht⟩
    · rintro ⟨s, hs, ht⟩
      exact ⟨_, ⟨s, hs, rfl⟩, (hf x s hs v y).2 ht⟩
  have haccepting : (b.system k).accepting = (a.system k).accepting := by
    funext x
    apply propext
    simp only [system, h.liveAt_iff]
    constructor
    · rintro ⟨_, ⟨s, hs, rfl⟩, hk⟩
      exact ⟨s, hs, hk⟩
    · rintro ⟨s, hs, hk⟩
      exact ⟨_, ⟨s, hs, rfl⟩, hk⟩
  exact System.ext hstep haccepting

/-- Rewiring changes no list of states and no stage. -/
theorem enrolled (h : Rewires f a b) (ha : a.Enrolled) : b.Enrolled where
  live_nodup := h.live_eq ▸ ha.live_nodup
  retired_nodup := h.retired_eq ▸ ha.retired_nodup
  mem_live x := by
    rw [h.live_eq, ha.mem_live]
    exact (h.stage_iff x .live).symm
  mem_retired x := by
    rw [h.retired_eq, ha.mem_retired]
    exact exists_congr fun g => (h.stage_iff x (.retired g)).symm
  forward_live x y s hs := by
    obtain ⟨t, ht⟩ := (h.stage_iff x _).1 ⟨s, hs⟩
    exact (h.stage_iff y .live).2 (ha.forward_live x y t ht)

/-- **Rewiring keeps an arena valid** if no transition leads to nothing that was not there. -/
theorem valid (h : Rewires f a b) (ha : a.Valid) (hsystem : b.system 0 = a.system 0)
    (htarget : ∀ x s, a.LiveAt x s → ∀ t ∈ f s.transitions, (a.slot? t.target).isSome = true) :
    b.Valid := by
  obtain ⟨hnodup, hnodup', hlive, hretired, hforward⟩ := h.enrolled ha.enrolled
  refine ⟨⟨hnodup, hnodup', hlive, hretired, hforward,
    fun x l hl t ht => ?_⟩, fun x s hs => ?_, fun x s hs hflex => ?_⟩
  · rw [h.slot?_eq, Option.isSome_map]
    rw [h.slot?_eq, Option.map_eq_some_iff] at hl
    obtain ⟨⟨stage, u⟩, hu, rfl⟩ := hl
    split at ht
    · rename_i hlive
      obtain rfl : stage = .live := hlive
      exact htarget x u hu t ht
    · exact ha.target_some x _ hu t ht
  · obtain ⟨t, ht⟩ := (h.stage_iff x .pending).1 ⟨s, hs⟩
    exact ha.not_pending x t ht
  · obtain ⟨u, hu, rfl⟩ := h.liveAt_iff.1 hs
    rw [← onCycle_system (k := 0), hsystem, onCycle_system]
    exact ha.transient x u hu hflex

/-- Rewiring that changes no step keeps everything. -/
theorem keeps (h : Rewires f a b) (hsystem : b.system k = a.system k) : Keeps k a b where
  sublist := h.live_eq ▸ .refl _
  live x s hs := by
    obtain ⟨t, ht, -⟩ := h.liveAt_iff.1 hs
    exact ⟨t, ht⟩
  accepts x s _ w := by rw [hsystem]

theorem keepsCounters (h : Rewires f a b) : KeepsCounters a b := by
  intro x s hs
  obtain ⟨t, ht, rfl⟩ := h.liveAt_iff.1 hs
  exact ⟨t, ht, rfl⟩

end Rewires

/-! ### Dropping subsumed transitions -/

theorem rewires_mapTransitions (hnodup : a.live.Nodup)
    (hlive : ∀ x, x ∈ a.live ↔ ∃ s, a.LiveAt x s) (f : List Transition → List Transition) :
    Rewires f a (a.mapTransitions f) := by
  obtain ⟨hmem, hother⟩ := slot?_foldl_modify (fun x => x)
    (fun _ s => { s with transitions := f s.transitions }) (List.map_id' a.live ▸ hnodup) a
  rw [List.map_id'] at hother
  exact rewires_of_slot? hlive hmem hother (foldl_modify_lists (fun x => x)
    (fun _ s => { s with transitions := f s.transitions }) a.live a)

theorem Valid.rewires_mapTransitions (h : a.Valid) (f : List Transition → List Transition) :
    Rewires f a (a.mapTransitions f) :=
  Arena.rewires_mapTransitions h.live_nodup h.mem_live f

/-- A step that a dropped transition made is made by the one that subsumes it. -/
theorem Valid.system_dropSubsumed (h : a.Valid) (k : Nat) :
    a.dropSubsumed.2.system k = a.system k := by
  refine (h.rewires_mapTransitions Transition.prune).system_eq fun x s _ v y => ?_
  constructor
  · rintro ⟨t, ht, hy, hholds⟩
    exact ⟨t, Transition.prune_subset t ht, hy, hholds⟩
  · rintro ⟨t, ht, hy, hholds⟩
    obtain ⟨u, hu, htu⟩ := Transition.exists_mem_prune ht
    obtain ⟨htarget, himplies⟩ := Transition.subsumedBy_iff.1 htu
    exact ⟨u, hu, htarget ▸ hy, Label.holds_of_implies himplies hholds⟩

/-- **Subsumed transitions can be dropped.** -/
theorem Valid.dropSubsumed (h : a.Valid) (k : Nat) :
    a.dropSubsumed.2.Valid ∧ (a.Tidy → a.dropSubsumed.2.Tidy) ∧ Keeps k a a.dropSubsumed.2 := by
  have hrewires : Rewires Transition.prune a a.dropSubsumed.2 := h.rewires_mapTransitions _
  refine ⟨hrewires.valid h (h.system_dropSubsumed 0) fun x s hs t ht =>
    h.target_some x _ hs t (Transition.prune_subset t ht), fun htidy x s hs t ht => ?_,
    hrewires.keeps (h.system_dropSubsumed k)⟩
  obtain ⟨u, hu, rfl⟩ := hrewires.liveAt_iff.1 hs
  obtain ⟨r, hr⟩ := htidy x u hu t (Transition.prune_subset t ht)
  exact ⟨_, hrewires.liveAt_iff.2 ⟨r, hr, rfl⟩⟩

end Arena

end OmegaAutomata
