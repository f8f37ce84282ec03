/-
# Every live state is reachable

A construction leads to every state that is left at its end from an older one
(`Construction.explore_created`), and none of the passes cuts a path to a state that stays
(`WellFormed.reached_comesUp`).  So every live state can be reached from the initial one, after
every sequence of passes and at every time in between when another pass begins
(`reachable_of_build`).

What a classification would remove are the states that cannot be reached.  There are none, so it
only marks states; and a minimization without classification leaves none behind.
-/

import OmegaAutomata.Proofs.Arena.Reachability
import OmegaAutomata.Proofs.Degeneralize.Creation
import OmegaAutomata.Proofs.Idempotence

namespace OmegaAutomata

namespace Automaton

variable {b c : Automaton} {n : Nat}

/-- Whether every live state can be reached from the initial one, on a path of transitions between
live states. -/
def Reachable (b : Automaton) : Prop :=
  ∀ x, b.arena.isLive x = true → ∃ i, b.initial = some i ∧ b.arena.isLive i = true ∧
    Relation.ReflTransGen (fun y z => b.Leads y z ∧ b.arena.isLive z = true) i x

/-- The paths of a well-formed automaton are those of its arena. -/
theorem WellFormed.reachable (h : b.WellFormed) (hreached : b.arena.Reached b.initial) :
    b.Reachable := by
  intro x hx
  obtain ⟨s, hs⟩ := Arena.isLive_iff.1 hx
  obtain ⟨i, r, hi, hr, hix⟩ := hreached x s hs
  refine ⟨i, hi, Arena.isLive_iff.2 ⟨r, hr⟩, Relation.ReflTransGen.mono (fun y z hyz => ?_) _ _ hix⟩
  obtain ⟨t, ht, hz⟩ := h.tidy.leads_iff.1 hyz
  obtain ⟨u, hu, rfl⟩ := List.mem_map.1 hz
  exact ⟨⟨t, liveState?_eq_some.2 ht, hz⟩, Arena.isLive_iff.2 (h.tidy y t ht u hu)⟩

/-- The initial state is live, or no state is. -/
theorem WellFormed.reached (h : b.WellFormed)
    (hgrounded : ∀ i, b.initial = some i → b.arena.Grounded i) : b.arena.Reached b.initial := by
  intro x s hs
  rcases h.initial with ⟨-, hnil⟩ | ⟨i, rest, hi, -⟩
  · have hmem := (h.valid.mem_live x).2 ⟨s, hs⟩
    rw [hnil] at hmem
    exact absurd hmem List.not_mem_nil
  · obtain ⟨r, hr⟩ := h.live_initial hi
    exact ⟨i, r, hi, hr, hgrounded i hi r x s hr hs⟩

/-! ### The passes -/

theorem WellFormed.reached_dropSubsumed (h : b.WellFormed) (hreached : b.arena.Reached b.initial) :
    b.dropSubsumed.2.arena.Reached b.dropSubsumed.2.initial := by
  refine h.dropSubsumed.1.reached fun i hi => h.valid.grounded_dropSubsumed ?_
  have hi : b.initial = some i := hi
  exact (hi ▸ hreached).grounded

/-- **A classification removes no state** if all can be reached. -/
theorem WellFormed.classify_eq_zero (h : b.WellFormed) (hreached : b.arena.Reached b.initial)
    (hc : b.classify = .ok (n, c)) :
    n = 0 ∧ c.arena.live = b.arena.live ∧ c.arena.Reached c.initial := by
  obtain ⟨_, _, hc', hreduces⟩ := h.reduces_classify
  cases hc.symm.trans hc'
  obtain rfl : n = 0 := by
    obtain ⟨a, ha, -⟩ := classify_eq_ok hc
    exact hreached.eq_zero_of_classify h.valid h.tidy ha
  exact ⟨rfl, hreduces.keeps.arena.sublist.eq_of_length hreduces.removes.length_eq,
    (h.classified_of_classify hc).1.reached⟩

/-- **Merging keeps every state reachable**, or removes all of them together with the initial
one. -/
theorem WellFormed.reached_mergeStates (h : b.WellFormed) (hreached : b.arena.Reached b.initial)
    (hc : b.mergeStates = .ok (n, c)) : c.arena.Reached c.initial := by
  obtain ⟨⟨hwf, -⟩, -⟩ := h.mergeStates hc
  refine hwf.reached fun i hi => ?_
  obtain ⟨⟨merged, a₁⟩, ha₁, hc⟩ := bind_eq_ok.1 hc
  obtain ⟨⟨dead, a₂⟩, ha₂, hc⟩ := bind_eq_ok.1 hc
  obtain ⟨⟨cleared, d⟩, hd, hc⟩ := bind_eq_ok.1 hc
  obtain ⟨⟨last, a₃⟩, ha₃, hc⟩ := bind_eq_ok.1 hc
  cases hc
  rcases clearWithoutInitial_eq_ok hd with ⟨-, rfl⟩ | ⟨hnone, _, -, rfl⟩
  · have hb : b.initial = some i := initial_of_refresh (b := { b with arena := a₂ }) hi
    have hgrounded : a₁.Grounded i := (h.valid.merging b.accept).grounded_steps
      (Arena.mergeSteps_of_mergeEach ha₁) (hb ▸ hreached).grounded
    exact ((h.valid.mergeEach ha₁).1.grounded_redirect hgrounded ha₂).separateEach ha₃
  · cases hnone.symm.trans hi

/-- **Every pass keeps every state reachable.** -/
theorem WellFormed.reached_comesUp (h : b.WellFormed) (hreached : b.arena.Reached b.initial)
    (hc : ComesUp b c) : c.arena.Reached c.initial := by
  induction hc with
  | start => exact hreached
  | dropSubsumed hc ih => exact (h.comesUp hc).1.reached_dropSubsumed ih
  | classify hc hd ih => exact ((h.comesUp hc).1.classify_eq_zero ih hd).2.2
  | mergeStates hc hd ih => exact (h.comesUp hc).1.reached_mergeStates ih hd

end Automaton

variable {g : Generalized} {options : Options} {b c : Automaton} {stats : BuildStats}

/-- **What is built** has no state that its initial state does not reach. -/
theorem build_reached (h : build g options = .ok (b, stats)) : b.arena.Reached b.initial := by
  obtain ⟨hwf, -⟩ := build_eq_ok h
  refine hwf.reached fun i hi => ?_
  obtain ⟨⟨x, p⟩, hp, h⟩ := bind_eq_ok.1 h
  obtain ⟨q, hq, h⟩ := bind_eq_ok.1 h
  cases h
  obtain ⟨rfl, hbuilding, hpending⟩ := Construction.explore_eq_ok hp
  obtain ⟨⟨n, a⟩, ha, hq⟩ := bind_eq_ok.1 hq
  cases hq
  obtain rfl : 0 = i := Option.some.inj (Automaton.initial_of_refresh hi)
  have hgrounded : p.arena.Grounded 0 := fun _ _ _ _ hs =>
    (Construction.explore_created hp).reaches hs
  exact (hbuilding.valid hpending).grounded_redirect hgrounded ha

/-- **Every live state is reachable**, when the automaton was built, after every sequence of passes,
and whenever another pass begins in a minimization.  So a classification never fails and never
removes a state, and a minimization without it leaves only reachable states, too. -/
theorem reachable_of_build (h : build g options = .ok (b, stats)) :
    (∀ passes c, b.runPasses passes = .ok c → c.Reachable ∧
      (∃ d, c.classify = .ok (0, d) ∧ d.arena.live = c.arena.live) ∧
        ∀ first d, c.minimize false = .ok (first, d) → d.Reachable) ∧
    ∀ c, Automaton.ComesUp b c → c.Reachable ∧
      ∃ d, c.classify = .ok (0, d) ∧ d.arena.live = c.arena.live := by
  obtain ⟨hwf, -⟩ := build_eq_ok h
  have hcomesUp (c : Automaton) (hc : Automaton.ComesUp b c) : c.Reachable ∧
      ∃ d, c.classify = .ok (0, d) ∧ d.arena.live = c.arena.live := by
    obtain ⟨hcwf, -⟩ := hwf.comesUp hc
    have hreached := hwf.reached_comesUp (build_reached h) hc
    obtain ⟨n, d, hd, -⟩ := hcwf.reduces_classify
    obtain ⟨rfl, hlive, -⟩ := hcwf.classify_eq_zero hreached hd
    exact ⟨hcwf.reachable hreached, d, hd, hlive⟩
  refine ⟨fun passes c hc => ?_, hcomesUp⟩
  have hbc := Automaton.comesUp_of_runPasses hc
  obtain ⟨hreachable, hclassify⟩ := hcomesUp c hbc
  exact ⟨hreachable, hclassify, fun first d hd => (hcomesUp d (hbc.minimizeRounds hd)).1⟩

/-- The states that are built for "infinitely often `p` and infinitely often `q`" are reachable, and
so are those that a merging leaves. -/
theorem build_fair_reachable : ∃ b stats c, build .fair ⟨false, true, true⟩ = .ok (b, stats) ∧
    b.arena.live = [0, 2, 4, 3, 1] ∧ b.Reachable ∧ b.runPasses [.merging] = .ok c ∧
      c.arena.live = [0, 2, 4, 3] ∧ c.Reachable ∧ ∃ d, c.classify = .ok (0, d) := by
  have hrun : (build .fair ⟨false, true, true⟩ >>= fun r =>
      (fun c => (r.1.arena.live, c.arena.live)) <$> r.1.runPasses [.merging]) =
      .ok ([0, 2, 4, 3, 1], [0, 2, 4, 3]) := by cbv
  obtain ⟨⟨b, stats⟩, hb, hrun⟩ := bind_eq_ok.1 hrun
  obtain ⟨c, hc, hrun⟩ := map_eq_ok.1 hrun
  obtain ⟨hlive, hleft⟩ := Prod.mk.inj hrun
  obtain ⟨hpasses, hcomesUp⟩ := reachable_of_build hb
  obtain ⟨hreachable, ⟨d, hd, -⟩, -⟩ := hpasses _ c hc
  exact ⟨b, stats, c, hb, hlive, (hcomesUp _ .start).1, hc, hleft, hreachable, d, hd⟩

end OmegaAutomata
