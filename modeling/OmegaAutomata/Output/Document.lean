/-
# Documents

A document describes an automaton by two lists: its states with their display ids,
counters, markings and names, and its transitions with the display ids of both ends
and the names of the propositions that must and must not hold.
-/

import OmegaAutomata.Output.StateName

namespace OmegaAutomata

namespace Document

/-- The entry of a state. -/
structure StateEntry where
  /-- The display id. -/
  id : Int
  /-- The progress counter. -/
  counter : Nat
  accepting : Bool
  name : String
deriving DecidableEq, Repr

/-- The entry of a transition: the display ids of its ends, and its literals. -/
structure TransitionEntry where
  source : Int
  target : Int
  /-- The propositions that must hold. -/
  pos : List String
  /-- The propositions that must not hold. -/
  neg : List String
deriving DecidableEq, Repr

end Document

/-- The description of an automaton. -/
structure Document where
  states : List Document.StateEntry
  transitions : List Document.TransitionEntry
deriving DecidableEq, Repr

namespace Document

/-- The entry of a state. -/
def stateEntry (b : Automaton) (s : State) : StateEntry :=
  ⟨s.identity, s.counter, b.isAccepting s, b.stateName s⟩

/-- The entry of a transition of `s`, whose target has to be live. -/
def transitionEntry (b : Automaton) (s : State) (t : Transition) :
    Except Fault TransitionEntry := do
  let target ← b.state t.target
  let names (x : IndexSet) := x.toList.map (propositionName b.propositions)
  pure ⟨s.identity, target.identity, names t.label.pos, names t.label.neg⟩

/-- The document of an automaton: all its states in order, and their transitions. -/
def ofAutomaton (b : Automaton) : Except Fault Document := do
  let states := b.states.map Prod.snd
  let transitions ← states.mapM fun s => s.transitions.mapM (transitionEntry b s)
  pure ⟨states.map (stateEntry b), transitions.flatten⟩

end Document

end OmegaAutomata
