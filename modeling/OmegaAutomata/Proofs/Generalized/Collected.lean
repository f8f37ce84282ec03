/-
# What builders give

A builder numbers states as their keys are mentioned.  So whatever was collected, the
initial states are different and every number that is used belongs to a state
(`Builder.Collected.inRange`), and this is so in the automaton that is built.
-/

import OmegaAutomata.Generalized.Builder
import OmegaAutomata.Proofs.Fallible
import Mathlib.Data.List.Nodup

namespace OmegaAutomata

/-- Whether the initial states are different, and all state numbers belong to states. -/
structure Generalized.InRange (g : Generalized) : Prop where
  initial_nodup : g.initial.Nodup
  initial_lt : ∀ q ∈ g.initial, q < g.states.size
  target_lt : ∀ q, ∀ t ∈ g.transitions q, t.target < g.states.size

/-- A transition of a state is one of some state that is there. -/
theorem Generalized.exists_state_of_mem {g : Generalized} {q : Nat} {t : Transition}
    (ht : t ∈ g.transitions q) : ∃ s ∈ g.states, t ∈ s.transitions := by
  obtain ⟨s, hs, ht⟩ := List.mem_flatMap.1 (mem_flatMap_transitions ht)
  exact ⟨s, Array.mem_toList_iff.1 hs, ht⟩

/-- Whether all propositions of a label are among the first `n`. -/
def Label.Below (n : Nat) (l : Label) : Prop :=
  ∀ i, i ∈ l.pos ∨ i ∈ l.neg → i < n

namespace Builder

variable {κ : Type} [BEq κ] {b : Builder κ} {g : Generalized}

/-- The builders that are collected step by step. -/
inductive Collected : Builder κ → Prop
  | empty (sets : Nat) : Collected (.empty sets)
  | addProposition {b : Builder κ} (name : String) (h : Collected b) :
    Collected (b.addProposition name).2
  | addState {b : Builder κ} (key : κ) (h : Collected b) : Collected (b.addState key)
  | setIdentity {b : Builder κ} (key : κ) (identity : Int) (h : Collected b) :
    Collected (b.setIdentity key identity)
  | markInitial {b : Builder κ} (key : κ) (h : Collected b) : Collected (b.markInitial key)
  | addTransition {b : Builder κ} (source : κ) (pos neg acceptance : IndexSet) (target : κ)
    (h : Collected b) : Collected (b.addTransition source pos neg acceptance target)

omit [BEq κ] in
/-- Whether the initial states are different, and all state numbers belong to states. -/
structure InRange (b : Builder κ) : Prop where
  initial_nodup : b.initial.Nodup
  initial_lt : ∀ q ∈ b.initial, q < b.states.size
  target_lt : ∀ s ∈ b.states, ∀ t ∈ s.transitions, t.target < b.states.size

/-! ### Collecting -/

/-- A key that is mentioned has a state, and no number changes. -/
theorem mention_spec (b : Builder κ) (key : κ) : (b.mention key).1 < (b.mention key).2.states.size ∧
    b.states.size ≤ (b.mention key).2.states.size ∧ (b.mention key).2.initial = b.initial ∧
    ∀ s ∈ (b.mention key).2.states, s ∈ b.states ∨ s.transitions = #[] := by
  unfold mention
  split
  · rename_i q hq
    obtain ⟨hlt, -⟩ := Array.findIdx?_eq_some_iff_getElem.1 hq
    exact ⟨hlt, Nat.le_refl _, rfl, fun s hs => .inl hs⟩
  · refine ⟨?_, ?_, rfl, fun s hs => ?_⟩
    · rw [Array.size_push]
      exact Nat.lt_succ_self _
    · rw [Array.size_push]
      exact Nat.le_succ _
    · rcases Array.mem_push.1 hs with hs | rfl
      · exact .inl hs
      · exact .inr rfl

theorem InRange.mention (h : b.InRange) (key : κ) : (b.mention key).2.InRange := by
  obtain ⟨-, hsize, hinitial, hstates⟩ := b.mention_spec key
  refine ⟨hinitial ▸ h.initial_nodup, fun q hq => ?_, fun s hs t ht => ?_⟩
  · rw [hinitial] at hq
    exact Nat.lt_of_lt_of_le (h.initial_lt q hq) hsize
  · rcases hstates s hs with hs | hnil
    · exact Nat.lt_of_lt_of_le (h.target_lt s hs t ht) hsize
    · rw [hnil] at ht
      exact absurd ht (Array.not_mem_empty t)

omit [BEq κ] in
/-- Changing a state keeps numbers in range if its new transitions lead to states. -/
theorem InRange.modifyState (h : b.InRange) {q : Nat} {f : StateDraft κ → StateDraft κ}
    (hf : ∀ s ∈ b.states, ∀ t ∈ (f s).transitions, t.target < b.states.size) :
    ({ b with states := b.states.modify q f } : Builder κ).InRange where
  initial_nodup := h.initial_nodup
  initial_lt r hr := by
    rw [Array.size_modify]
    exact h.initial_lt r hr
  target_lt s hs t ht := by
    rw [Array.size_modify]
    obtain ⟨i, hi, rfl⟩ := Array.mem_iff_getElem.1 hs
    rw [Array.size_modify] at hi
    rw [Array.getElem_modify] at ht
    split at ht
    · exact hf _ (Array.getElem_mem hi) t ht
    · exact h.target_lt _ (Array.getElem_mem hi) t ht

/-- **Numbers are in range** whatever was collected. -/
theorem Collected.inRange (h : Collected b) : b.InRange := by
  induction h with
  | empty sets =>
    exact ⟨List.nodup_nil, fun _ hq => absurd hq List.not_mem_nil,
      fun s hs => absurd hs (Array.not_mem_empty s)⟩
  | addProposition name h ih => exact ⟨ih.initial_nodup, ih.initial_lt, ih.target_lt⟩
  | addState key h ih => exact ih.mention key
  | setIdentity key identity h ih =>
    have hb := ih.mention key
    exact hb.modifyState fun s hs t ht => hb.target_lt s hs t ht
  | @markInitial b key h ih =>
    have hb := ih.mention key
    dsimp only [Builder.markInitial]
    split
    · exact hb
    · rename_i hq
      refine ⟨List.nodup_append.2 ⟨hb.initial_nodup, List.nodup_singleton _, ?_⟩, ?_, hb.target_lt⟩
      · rintro r hr _ hq' rfl
        exact hq (List.mem_singleton.1 hq' ▸ hr)
      · intro r hr
        rcases List.mem_append.1 hr with hr | hr
        · exact hb.initial_lt r hr
        · cases List.mem_singleton.1 hr
          exact (b.mention_spec key).1
  | @addTransition b source pos neg acceptance target h ih =>
    have hb := (ih.mention source).mention target
    refine hb.modifyState fun s hs t ht => ?_
    rcases Array.mem_push.1 ht with ht | rfl
    · exact hb.target_lt s hs t ht
    · exact ((b.mention source).2.mention_spec target).1

/-! ### Building -/

omit [BEq κ]

/-- A set that passes its check has no member that is too large. -/
theorem lt_of_checkRange {s : IndexSet} {count i : Nat} {error : Nat → Nat → BuildError}
    (h : checkRange s count error = .ok ()) (hi : i ∈ s) : i < count := by
  unfold checkRange at h
  split at h
  · rename_i hnone
    rw [IndexSet.max?, List.getLast?_eq_none_iff] at hnone
    rw [← IndexSet.mem_toList, hnone] at hi
    exact absurd hi List.not_mem_nil
  · rename_i x hx
    split at h
    · contradiction
    · have hle := (IndexSet.max?_eq_some_iff.1 hx).2 i hi
      omega

/-- **A transition that passes its checks** has the target of its draft, and declared propositions
only. -/
theorem of_checkTransition {t : TransitionDraft} {u : Generalized.Transition}
    (h : b.checkTransition t = .ok u) :
    u.target = t.target ∧ u.label.Below b.propositions.size := by
  obtain ⟨⟨⟩, hpos, h⟩ := bind_eq_ok.1 h
  obtain ⟨⟨⟩, hneg, h⟩ := bind_eq_ok.1 h
  obtain ⟨label, hlabel, h⟩ := bind_eq_ok.1 h
  obtain ⟨⟨⟩, hacceptance, h⟩ := bind_eq_ok.1 h
  cases h
  refine ⟨rfl, fun i hi => ?_⟩
  unfold checkLabel at hlabel
  split at hlabel
  · cases hlabel
    rcases hi with hi | hi
    · exact lt_of_checkRange hpos hi
    · exact lt_of_checkRange hneg hi
  · contradiction

/-- **What is built** has a state for each draft, and each of its transitions passed its checks. -/
theorem of_build (hg : b.build = .ok g) : g.states.size = b.states.size ∧
    g.initial = b.initial ∧ g.propositions = b.propositions ∧
    ∀ q, ∀ t ∈ g.transitions q, ∃ s ∈ b.states, ∃ u ∈ s.transitions,
      b.checkTransition u = .ok t := by
  obtain ⟨states, hstates, hg⟩ := bind_eq_ok.1 hg
  cases hg
  obtain ⟨hlength, hmem⟩ := of_mapM_eq_ok hstates
  refine ⟨?_, rfl, rfl, fun q t ht => ?_⟩
  · rw [List.size_toArray, hlength, List.length_zipIdx, Array.length_toList]
  · obtain ⟨s, hs, ht⟩ := Generalized.exists_state_of_mem ht
    obtain ⟨⟨draft, r⟩, hdraft, hs⟩ := hmem s (Array.mem_def.1 hs)
    obtain ⟨ts, hts, hs⟩ := bind_eq_ok.1 hs
    cases hs
    obtain ⟨u, hu, htu⟩ := (of_mapM_eq_ok hts).2 t ht
    exact ⟨draft, Array.mem_toList_iff.1 (List.fst_mem_of_mem_zipIdx hdraft), u,
      Array.mem_toList_iff.1 hu, htu⟩

/-- **Numbers are in range** in the automaton that is built. -/
theorem InRange.build (h : b.InRange) (hg : b.build = .ok g) : g.InRange := by
  obtain ⟨hsize, hinitial, -, htransition⟩ := of_build hg
  refine ⟨hinitial ▸ h.initial_nodup, fun q hq => ?_, fun q t ht => ?_⟩
  · rw [hsize]
    exact h.initial_lt q (hinitial ▸ hq)
  · obtain ⟨s, hs, u, hu, htu⟩ := htransition q t ht
    rw [hsize, (of_checkTransition htu).1]
    exact h.target_lt s hs u hu

/-- Labels have declared propositions only. -/
theorem below_of_build (hg : b.build = .ok g) (q : Nat) :
    ∀ t ∈ g.transitions q, t.label.Below g.propositions.size := by
  obtain ⟨-, -, hpropositions, htransition⟩ := of_build hg
  intro t ht
  obtain ⟨s, -, u, -, htu⟩ := htransition q t ht
  rw [hpropositions]
  exact (of_checkTransition htu).2

end Builder

end OmegaAutomata
