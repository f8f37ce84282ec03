/-
# Counts are exact

Every state counts the transitions that lead to it.  The count is kept by hand, when a
transition is added, when it is found to be subsumed, and when a state is merged into another one.
Between two turns of a construction it is exact, and a state that waits for its
transitions is led to (`Arena.Exact`).

So lowering a count never fails, and a state that is taken is never found to be
superfluous.  Nothing is freed unexplored, whatever the options (`counts_exact`).
-/

import OmegaAutomata.Proofs.Degeneralize.Totality
import OmegaAutomata.Proofs.Degeneralize.Turns

namespace OmegaAutomata

/-- Whether counts are exact: a state that was not freed has the number of all transitions that lead
to it, and a pending state is led to. -/
structure Arena.Exact (a : Arena) : Prop where
  incoming_eq : ∀ x l, a.slot? x = some l → l.state.incoming = a.references x
  incoming_pos : ∀ x s, a.slot? x = some ⟨.pending, s⟩ → 1 ≤ s.incoming

namespace Construction

variable {g : Generalized} {p : Progress} {id : StateId} {a : Arena} {onTheFly : Bool}

/-- **Counts are exact between two turns.** -/
theorem Building.exact (h : Building g none none [] a) : a.Exact where
  incoming_eq x l hl := (h.counted.references_eq x l hl).symm
  incoming_pos x s hs := by
    have hmem := (h.pending_mem x s hs).resolve_right (by simp)
    have hpos := h.counted.wanted x hmem (by simp)
    rwa [h.counted.references_eq x _ hs] at hpos

/-- **No turn fails**, and none frees the state that was taken. -/
theorem Building.exists_turn (h : Building g none none [] p.arena) (hg : g.Roomy)
    (hpop : p.arena.popPending = some (id, a)) (onTheFly : Bool) :
    (∃ s, a.state id = .ok s ∧ s.incoming ≠ 0) ∧
      Construction.visit g onTheFly ⟨a, p.stats⟩ id = exploreState g onTheFly ⟨a, p.stats⟩ id ∧
        ∃ q, Construction.visit g onTheFly ⟨a, p.stats⟩ id = .ok q := by
  obtain ⟨ha, ⟨s, hs, hincoming⟩, -⟩ := h.popPending hpop
  exact ⟨⟨s, Arena.state_eq_ok.2 ⟨_, hs⟩, hincoming⟩, visit_eq_exploreState hs hincoming,
    Building.exists_visit (p := ⟨a, p.stats⟩) ha hg hs hincoming onTheFly⟩

theorem begin_unexplored {start : Progress} (hr : begin g onTheFly = .ok (id, start)) :
    start.stats.unexplored = 0 := by
  obtain ⟨b, -, hr⟩ := bind_eq_ok.1 hr
  obtain ⟨s, -, hr⟩ := bind_eq_ok.1 hr
  cases hr
  rfl

end Construction

variable {g : Generalized} {options : Options} {b : Automaton} {stats : BuildStats}

/-- **Nothing is freed unexplored**, in any construction that does not fail. -/
theorem build_unexplored (h : build g options = .ok (b, stats)) : stats.unexplored = 0 := by
  obtain ⟨⟨id, p⟩, hp, h⟩ := bind_eq_ok.1 h
  obtain ⟨q, hq, h⟩ := bind_eq_ok.1 h
  cases h
  obtain ⟨r, -, hq⟩ := bind_eq_ok.1 hq
  cases hq
  obtain ⟨start, hstart, hturns⟩ := Construction.explore_turns hp
  obtain ⟨-, hbuilding, -⟩ := Construction.begin_eq_ok hstart
  exact (hbuilding.turns hturns).2.trans (Construction.begin_unexplored hstart)

/-- **Counts are exact and nothing is freed unexplored.**  For an automaton that was collected by a
builder, of a size for which transitions can be counted, this holds when the initial state has got
its transitions and after every turn.  The next turn never fails, so no count is lowered below
zero, and it explores the state that it takes.  Turns come to an end, and what is built has freed
nothing. -/
theorem counts_exact {κ : Type} [BEq κ] {d : Builder κ} (hd : d.Collected) (hg : d.build = .ok g)
    (hcount : (g.sets + 2) * g.transitionCount < 4294967296) (onTheFly : Bool) :
    ∃ id start, Construction.begin g onTheFly = .ok (id, start) ∧
      (∀ p, Relation.ReflTransGen (Construction.Turn g onTheFly) start p →
        p.arena.Exact ∧ p.stats.unexplored = 0 ∧
          ∀ x a, p.arena.popPending = some (x, a) →
            (∃ s, a.state x = .ok s ∧ s.incoming ≠ 0) ∧
              Construction.visit g onTheFly ⟨a, p.stats⟩ x =
                Construction.exploreState g onTheFly ⟨a, p.stats⟩ x ∧
              ∃ q, Construction.visit g onTheFly ⟨a, p.stats⟩ x = .ok q) ∧
      (∃ p, Relation.ReflTransGen (Construction.Turn g onTheFly) start p ∧
        p.arena.pending = [] ∧ Construction.explore g onTheFly = .ok (id, p)) ∧
      ∀ options, options.onTheFly = onTheFly →
        ∃ b stats, build g options = .ok (b, stats) ∧ stats.unexplored = 0 := by
  have hroomy : g.Roomy := ⟨hd.inRange.build hg, Nat.le_of_lt_succ hcount⟩
  obtain ⟨⟨id, p⟩, hp⟩ := Construction.exists_explore hroomy onTheFly
  obtain ⟨start, hstart, hturns⟩ := Construction.explore_turns hp
  obtain ⟨-, hbuilding, -⟩ := Construction.begin_eq_ok hstart
  refine ⟨id, start, hstart, fun q hq => ?_, ⟨p, hturns, (Construction.explore_eq_ok hp).2.2, hp⟩,
    fun options _ => ?_⟩
  · obtain ⟨hq, hstats⟩ := hbuilding.turns hq
    exact ⟨hq.exact, hstats.trans (Construction.begin_unexplored hstart),
      fun x a hpop => hq.exists_turn hroomy hpop onTheFly⟩
  · obtain ⟨b, stats, hb⟩ := exists_build hroomy options
    exact ⟨b, stats, hb, build_unexplored hb⟩

/-- Counts are exact while the automaton for "infinitely often `p` and infinitely often `q`" is
explored. -/
theorem counts_exact_fair : Builder.fair.Collected ∧ Builder.fair.build = .ok .fair ∧
    (Generalized.fair.sets + 2) * Generalized.fair.transitionCount < 4294967296 ∧
    ∃ id start p, Construction.begin .fair true = .ok (id, start) ∧ start.arena.Exact ∧
      Construction.explore .fair true = .ok (id, p) ∧ p.arena.Exact ∧
        ∃ b stats, build .fair ⟨true, true, true⟩ = .ok (b, stats) ∧ stats.unexplored = 0 := by
  have hcount : (Generalized.fair.sets + 2) * Generalized.fair.transitionCount < 4294967296 := by
    decide
  obtain ⟨id, start, hstart, hturns, ⟨p, hp, -, hexplore⟩, hbuild⟩ :=
    counts_exact Builder.collected_fair Builder.build_fair hcount true
  exact ⟨Builder.collected_fair, Builder.build_fair, hcount, id, start, p, hstart,
    (hturns start .refl).1, hexplore, (hturns p hp).1, hbuild ⟨true, true, true⟩ rfl⟩

end OmegaAutomata
