/-
# Automata between passes

Passes leave nothing behind: between two of them no state is pending or retired, and all
transitions lead to live states.  The initial state is the oldest one and the only one
without a source.  So it is neither merged into another state nor renamed, and it
has the display id `-1` as long as it is there.

`Rooted` is the part of this that `WellFormed` does not say.  A pass keeps it since it only
removes states (`Rooted.of_reduces`) and gives display ids to others than the oldest one
(`Rooted.separate`).
-/

import OmegaAutomata.Proofs.Arena.Identities
import OmegaAutomata.Proofs.Arena.Removal
import OmegaAutomata.Proofs.Degeneralize.Language

namespace OmegaAutomata

namespace Automaton

variable {b c d : Automaton} {i x : StateId} {s : State} {n : Nat}

/-! ### The states of an automaton -/

/-- **The live states are listed** in order, each once. -/
theorem WellFormed.fst_states (h : b.WellFormed) : b.states.map Prod.fst = b.arena.live := by
  rw [states, Arena.liveStates, List.map_filterMap]
  refine (List.filterMap_congr fun x hx => ?_).trans List.filterMap_some
  obtain ⟨s, hs⟩ := (h.valid.mem_live x).1 hx
  rw [hs]
  rfl

theorem WellFormed.length_states (h : b.WellFormed) :
    b.states.length = b.arena.live.length := by
  rw [← h.fst_states, List.length_map]

theorem WellFormed.nodup_states (h : b.WellFormed) : b.states.Nodup :=
  .of_map Prod.fst (h.fst_states ▸ h.valid.live_nodup)

/-- The states of an automaton are live. -/
theorem WellFormed.liveAt_of_mem_states (h : b.WellFormed) (hs : (x, s) ∈ b.states) :
    b.arena.LiveAt x s := by
  obtain ⟨y, hy, heq⟩ := List.mem_filterMap.1 hs
  obtain ⟨t, ht⟩ := (h.valid.mem_live y).1 hy
  rw [ht] at heq
  cases heq
  exact ht

theorem WellFormed.mem_states (h : b.WellFormed) : (x, s) ∈ b.states ↔ b.arena.LiveAt x s := by
  refine ⟨h.liveAt_of_mem_states, fun hs => ?_⟩
  exact List.mem_filterMap.2 ⟨x, (h.valid.mem_live x).2 ⟨s, hs⟩, by rw [hs]; rfl⟩

/-! ### Passes and what they remove -/

/-- Whether `c` is what is left of `b` after `n` states were removed, before states are told
apart. -/
structure Reduces (n : Nat) (b c : Automaton) : Prop where
  wellFormed : c.WellFormed
  keeps : Keeps b c
  removes : Arena.Removes n b.arena c.arena
  retired_eq : b.arena.retired = [] → c.arena.retired = []
  lastIdentity_eq : c.lastIdentity = b.lastIdentity
  propositions_eq : c.propositions = b.propositions
  initial : ∀ i, c.initial = some i → b.initial = some i

/-- The initial state of an automaton is that of the one before, unless it is gone. -/
theorem initial_of_refresh (h : (refreshInitial b).initial = some i) : b.initial = some i :=
  (Option.filter_eq_some_iff.1 h).1

theorem WellFormed.reduces_dropSubsumed (h : b.WellFormed) : Reduces 0 b b.dropSubsumed.2 where
  wellFormed := h.dropSubsumed.1
  keeps := h.dropSubsumed.2
  removes := h.valid.removes_dropSubsumed
  retired_eq := (h.valid.rewires_mapTransitions Transition.prune).retired_eq.trans
  lastIdentity_eq := rfl
  propositions_eq := rfl
  initial _ hi := hi

/-- **Classification never fails** and removes states only. -/
theorem WellFormed.reduces_classify (h : b.WellFormed) :
    ∃ n c, b.classify = .ok (n, c) ∧ Reduces n b c := by
  obtain ⟨n, a, ha, hremoves⟩ := h.valid.removes_classify h.tidy b.initial
  obtain ⟨hvalid, -⟩ := h.valid.classify h.tidy ha b.accept
  have hc : b.classify = .ok (n, refreshInitial { b with arena := a.sweepNow }) := by
    rw [Automaton.classify, ha, bind_ok]
    dsimp only
    rw [hvalid.sweep_eq]
    rfl
  obtain ⟨hwf, hkeeps⟩ := h.classify hc
  exact ⟨n, _, hc, hwf, hkeeps, hremoves.trans hvalid.removes_sweepNow, fun _ => rfl, rfl, rfl,
    fun i => initial_of_refresh⟩

/-- Clearing an automaton never fails and removes states only. -/
theorem removes_clear (hvalid : b.arena.Valid) (hretired : b.arena.retired = []) :
    ∃ n c, b.clearWithoutInitial = .ok (n, c) ∧ Arena.Removes n b.arena c.arena ∧
      c.arena.retired = [] ∧ c.lastIdentity = b.lastIdentity ∧
        c.propositions = b.propositions ∧ c.initial = b.initial := by
  rw [clearWithoutInitial]
  split
  · exact ⟨0, b, rfl, .refl _, hretired, rfl, rfl, rfl⟩
  · obtain ⟨a, ha, hremoves⟩ :=
      hvalid.removes_retireAll hvalid.live_nodup fun x hx => (hvalid.mem_live x).1 hx
    have hvalid' := (hvalid.retireAll ha).1
    rw [ha, bind_ok, hvalid'.sweep_eq]
    exact ⟨_, _, rfl, hremoves.trans hvalid'.removes_sweepNow, rfl, rfl, rfl, rfl⟩

/-- Merging up to where it tells states apart. -/
def condense (b : Automaton) : Except Fault (Nat × Automaton) := do
  let (merged, arena) ← Arena.mergeEach b.accept b.arena.live.reverse b.arena
  let (dead, arena) ← arena.redirect none
  let (cleared, b) ← clearWithoutInitial (refreshInitial { b with arena })
  pure (merged + dead + cleared, b)

theorem mergeStates_eq_condense (b : Automaton) : b.mergeStates = b.condense >>= fun (n, d) =>
    d.arena.separate d.lastIdentity >>= fun (last, a) =>
      pure (n, { d with arena := a, lastIdentity := last }) := by
  simp only [Automaton.mergeStates, condense, bind_assoc, pure_bind]

/-- **Merging never fails before states are told apart**, and removes states only. -/
theorem WellFormed.reduces_condense (h : b.WellFormed) :
    ∃ n d, b.condense = .ok (n, d) ∧ Reduces n b d := by
  obtain ⟨n₁, a₁, h₁, hremoves₁⟩ := h.valid.removes_mergeEach b.accept
  obtain ⟨hvalid₁, hkeeps₁, hstays₁⟩ := h.valid.mergeEach h₁
  obtain ⟨n₂, a₂, h₂, hremoves₂⟩ := hvalid₁.removes_redirect none
  obtain ⟨hr, htidy⟩ := hvalid₁.redirect h₂
  obtain ⟨n₃, d, h₃, hremoves₃, hretired₃, hlast₃, hpropositions₃, hinitial₃⟩ :=
    removes_clear (b := refreshInitial { b with arena := a₂ }) hr.valid
      (Arena.retired_redirect h₂)
  have hinitial (i : StateId) (hi : b.initial = some i) : Arena.Stays b.accept i b.arena a₂ := by
    rcases h.initial with ⟨hnone, -⟩ | ⟨j, rest, hj, hlive⟩
    · rw [hnone] at hi
      contradiction
    · cases hi.symm.trans hj
      exact (hstays₁ i rest hlive).trans hkeeps₁ fun t ht => hr.stays _ i t ht
  obtain ⟨⟨hwf, hkeeps⟩, -⟩ :=
    h.clear hr.valid htidy (hkeeps₁.trans (hr.keeps b.accept)) hinitial h₃
  refine ⟨n₁ + n₂ + n₃, d, ?_, hwf, hkeeps, (hremoves₁.trans hremoves₂).trans hremoves₃,
    fun _ => hretired₃, hlast₃, hpropositions₃, fun i hi => ?_⟩
  · rw [condense, h₁]
    dsimp only [bind_ok]
    rw [h₂]
    dsimp only [bind_ok]
    rw [h₃]
    rfl
  · rw [hinitial₃] at hi
    exact initial_of_refresh (b := { b with arena := a₂ }) hi

/-- Merging only fails when states are told apart. -/
theorem WellFormed.mergeStates_eq (h : b.WellFormed) : ∃ n d, Reduces n b d ∧
    b.mergeStates = (d.arena.separate d.lastIdentity).map
      fun r => (n, { d with arena := r.2, lastIdentity := r.1 }) := by
  obtain ⟨n, d, hd, hreduces⟩ := h.reduces_condense
  refine ⟨n, d, hreduces, ?_⟩
  rw [mergeStates_eq_condense, hd, bind_ok]
  dsimp only
  cases d.arena.separate d.lastIdentity with
  | error e => rfl
  | ok r => rfl

/-- **What merging did** if it did not fail: it removed states, and then told states apart. -/
theorem WellFormed.reduces_mergeStates (h : b.WellFormed) (hc : b.mergeStates = .ok (n, c)) :
    ∃ d last a, Reduces n b d ∧ d.arena.separate d.lastIdentity = .ok (last, a) ∧
      c = { d with arena := a, lastIdentity := last } := by
  obtain ⟨m, d, hd, heq⟩ := h.mergeStates_eq
  rw [heq] at hc
  obtain ⟨⟨last, a⟩, ha, hc⟩ := map_eq_ok.1 hc
  cases hc
  exact ⟨d, last, a, hd, ha, rfl⟩

/-! ### The initial state -/

/-- What holds of an automaton between two passes besides being well-formed: nothing is pending or
retired, counters and display ids are no larger than they may be, and the initial state is the one
without a source. -/
structure Rooted (b : Automaton) : Prop where
  pending_eq : b.arena.pending = []
  retired_eq : b.arena.retired = []
  counter_le : ∀ x s, b.arena.LiveAt x s → s.counter ≤ b.accept
  le_last : ∀ x s, b.arena.LiveAt x s → s.identity ≤ b.lastIdentity
  initial : ∀ i s, b.initial = some i → b.arena.LiveAt i s →
    s.identity = initialIdentity ∧ s.source = none
  sourceless : ∀ x s, b.arena.LiveAt x s → s.source = none → b.initial = some x

/-- The initial state stays the only one without a source as long as there are states. -/
theorem initial_eq_of_live (h : c.WellFormed) (hs : c.arena.LiveAt x s)
    (hx : b.initial = some x) (hinitial : ∀ i, c.initial = some i → b.initial = some i) :
    c.initial = some x := by
  rcases h.initial with ⟨-, hnil⟩ | ⟨i, rest, hi, -⟩
  · have hmem := (h.valid.mem_live x).2 ⟨s, hs⟩
    rw [hnil] at hmem
    exact absurd hmem List.not_mem_nil
  · rw [hi, ← hinitial i hi, hx]

/-- **What only removes states** keeps an automaton rooted. -/
theorem Rooted.of_reduces (h : b.Rooted) (hc : Reduces n b c) : c.Rooted where
  pending_eq := hc.removes.pending_eq.trans h.pending_eq
  retired_eq := hc.retired_eq h.retired_eq
  counter_le x s hs := by
    obtain ⟨y, t, ht, hcounter⟩ := hc.removes.counter x s hs
    rw [← hcounter, hc.keeps.accept_eq]
    exact h.counter_le y t ht
  le_last x s hs := by
    obtain ⟨t, ht, -, hidentity⟩ := hc.removes.origin x s hs
    rw [← hidentity, hc.lastIdentity_eq]
    exact h.le_last x t ht
  initial i s hi hs := by
    obtain ⟨t, ht, hsource, hidentity⟩ := hc.removes.origin i s hs
    rw [← hsource, ← hidentity]
    exact h.initial i t (hc.initial i hi) ht
  sourceless x s hs hsource := by
    obtain ⟨t, ht, hsource', -⟩ := hc.removes.origin x s hs
    exact initial_eq_of_live hc.wellFormed hs (h.sourceless x t ht (hsource'.trans hsource))
      hc.initial

/-- Fresh display ids can be given to the states of a rooted automaton. -/
theorem Rooted.separable (h : b.Rooted) (hwf : b.WellFormed) :
    Arena.Separable b.arena.live.reverse b.lastIdentity b.arena where
  nodup := List.nodup_reverse.2 hwf.valid.live_nodup
  live x hx := (hwf.valid.mem_live x).1 (List.mem_reverse.1 hx)
  le_last := h.le_last

/-- The initial state is the last one to be visited when the latest comes first. -/
theorem WellFormed.getLast_reverse (h : b.WellFormed) (hi : b.initial = some i) :
    b.arena.live.reverse.getLast? = some i := by
  rcases h.initial with ⟨hnone, -⟩ | ⟨j, rest, hj, hlive⟩
  · rw [hnone] at hi
    contradiction
  · cases hi.symm.trans hj
    rw [hlive, List.getLast?_reverse]
    rfl

/-- **Fresh display ids** are for others than the initial state. -/
theorem Rooted.separate (h : b.Rooted) (hwf : b.WellFormed) {last : Int} {a : Arena}
    (ha : b.arena.separate b.lastIdentity = .ok (last, a)) :
    ({ b with arena := a, lastIdentity := last } : Automaton).Rooted := by
  have hsep := h.separable hwf
  obtain ⟨hend, -, hren⟩ := hsep.renames ha
  refine ⟨hren.pending_eq.trans h.pending_eq, hren.retired_eq.trans h.retired_eq,
    fun x s hs => ?_, hend.le_last, fun i s hi hs => ?_, fun x s hs hsource => ?_⟩
  · obtain ⟨_, ht, -⟩ := hren.liveAt x s hs
    have hle := h.counter_le x _ ht
    exact hle
  · obtain ⟨t, ht⟩ := hwf.live_initial hi
    cases hs.symm.trans (hsep.oldest (hwf.getLast_reverse hi) ht ha)
    exact h.initial i s hi ht
  · obtain ⟨_, ht, -⟩ := hren.liveAt x s hs
    exact h.sourceless x _ ht hsource

/-! ### Passes -/

/-- **Passes keep an automaton rooted**, in every order, and have no other state become the initial
one. -/
theorem Rooted.comesUp (h : b.Rooted) (hwf : b.WellFormed) (hc : ComesUp b c) :
    c.Rooted ∧ ∀ i, c.initial = some i → b.initial = some i := by
  induction hc with
  | start => exact ⟨h, fun _ hi => hi⟩
  | dropSubsumed hc ih =>
    have hreduces := (hwf.comesUp hc).1.reduces_dropSubsumed
    exact ⟨ih.1.of_reduces hreduces, fun i hi => ih.2 i (hreduces.initial i hi)⟩
  | classify hc hd ih =>
    obtain ⟨m, e, he, hreduces⟩ := (hwf.comesUp hc).1.reduces_classify
    cases hd.symm.trans he
    exact ⟨ih.1.of_reduces hreduces, fun i hi => ih.2 i (hreduces.initial i hi)⟩
  | mergeStates hc hd ih =>
    obtain ⟨e, last, a, hreduces, ha, rfl⟩ := (hwf.comesUp hc).1.reduces_mergeStates hd
    exact ⟨(ih.1.of_reduces hreduces).separate hreduces.wellFormed ha,
      fun i hi => ih.2 i (hreduces.initial i hi)⟩

end Automaton

end OmegaAutomata
