/-
# Generalized Büchi automata

A generalized automaton has states numbered from `0`, some of which are initial,
and `k` acceptance sets.  Its transitions carry a label and belong to any number
of acceptance sets.  A run accepts if it takes transitions of each set infinitely
often.

Every state has a display id, which names the states that are built from it.  The
id `0` is kept for a state that accepts every word.
-/

import OmegaAutomata.Counter
import OmegaAutomata.Label
import OmegaAutomata.Product

namespace OmegaAutomata

namespace Generalized

/-- A transition to state number `target`, which belongs to the sets of `acceptance`. -/
structure Transition where
  target : Nat
  label : Label
  acceptance : IndexSet
deriving DecidableEq

/-- A state: its display id and its transitions, in the order in which they were added. -/
structure State where
  identity : Int
  transitions : List Transition

end Generalized

/-- A generalized Büchi automaton. -/
structure Generalized where
  states : Array Generalized.State
  /-- The initial states. -/
  initial : List Nat
  /-- The number of acceptance sets. -/
  sets : Nat
  /-- The names of the propositions. -/
  propositions : Array String

namespace Generalized

/-- The transitions of a state; a number without a state has none. -/
def transitions (g : Generalized) (q : Nat) : List Transition :=
  (g.states[q]?.map State.transitions).getD []

/-- The display id of a state. -/
def identity (g : Generalized) (q : Nat) : Int :=
  (g.states[q]?.map State.identity).getD 0

/-- The number of transitions. -/
def transitionCount (g : Generalized) : Nat :=
  (g.states.toList.flatMap State.transitions).length

/-- Transitions of a state are among those of all states. -/
theorem mem_flatMap_transitions {g : Generalized} {q : Nat} {t : Transition}
    (h : t ∈ g.transitions q) : t ∈ g.states.toList.flatMap State.transitions := by
  unfold transitions at h
  cases hs : g.states[q]? with
  | none => rw [hs] at h; exact absurd h List.not_mem_nil
  | some s =>
    rw [hs] at h
    obtain ⟨hlt, rfl⟩ := Array.getElem?_eq_some_iff.1 hs
    exact List.mem_flatMap.2 ⟨_, Array.mem_toList_iff.2 (Array.getElem_mem hlt), h⟩

/-- The largest display id, or zero if all are negative. -/
def maxIdentity (g : Generalized) : Int :=
  g.states.foldl (fun m s => max m s.identity) 0

/-- The moves from state `q` on the letter `v`. -/
def moves (g : Generalized) (q : Nat) (v : IndexSet) : List (Move Nat) :=
  ((g.transitions q).filter fun t => t.label.holds v).map fun t => ⟨t.target, t.acceptance⟩

/-- Whether a lasso is accepted: some cycle of the product sees every acceptance set. -/
def acceptsLasso (g : Generalized) (w : Lasso) : Except Fault Bool := do
  let bound := (g.initial.length + g.transitionCount) * w.size
  let p ← Product.explore w bound g.initial fun q v => .ok (g.moves q v)
  let cycles ← p.cycles
  pure (cycles.any fun c => (List.range g.sets).all c.acceptance.contains)

/-- The name of a state in listings. -/
def stateName (g : Generalized) (q : Nat) : String :=
  "g" ++ toString (g.identity q)

/-- One line for a transition of state `q`: its label with numbered propositions in brackets and
its acceptance sets stand on the arrow. -/
def transitionLine (g : Generalized) (q : Nat) (t : Transition) : String :=
  "  " ++ g.stateName q ++ " --[" ++ t.label.listing #[] ++ "]" ++ t.acceptance.render ++ "--> " ++
    g.stateName t.target ++ "\n"

/-- The listing: the sizes, the initial states, and a line for every transition. -/
def listing (g : Generalized) : String :=
  toString g.states.size ++ " states, " ++ toString g.sets ++ " acceptance sets\n" ++
    "initial states:" ++ String.join (g.initial.map fun q => " " ++ g.stateName q) ++ "\n" ++
    String.join ((List.range g.states.size).flatMap fun q =>
      (g.transitions q).map (g.transitionLine q))

end Generalized

end OmegaAutomata
