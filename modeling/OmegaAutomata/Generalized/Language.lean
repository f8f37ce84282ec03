/-
# The language of a generalized automaton

A run over an infinite word takes, at each position, a transition whose label
holds in the letter that is read there.  It accepts if it takes transitions of
every acceptance set infinitely often; with no acceptance sets every run accepts.
-/

import OmegaAutomata.Generalized.Basic
import OmegaAutomata.Word

namespace OmegaAutomata

namespace Generalized

/-- A run over `w`: the state before each position, and the transition taken there. -/
structure Run (g : Generalized) (w : Word) where
  state : Nat → Nat
  taken : Nat → Transition
  start : state 0 ∈ g.initial
  taken_mem : ∀ i, taken i ∈ g.transitions (state i)
  holds : ∀ i, (taken i).label.holds (w i) = true
  next : ∀ i, state (i + 1) = (taken i).target

/-- A run accepts if it takes transitions of each acceptance set infinitely often. -/
def Run.Accepting {g : Generalized} {w : Word} (r : g.Run w) : Prop :=
  ∀ j < g.sets, InfinitelyOften fun i => j ∈ (r.taken i).acceptance

/-- The automaton accepts a word that it has an accepting run over. -/
def Accepts (g : Generalized) (w : Word) : Prop :=
  ∃ r : g.Run w, r.Accepting

end Generalized

end OmegaAutomata
