/-
# Büchi automata

A Büchi automaton is an arena with an initial state and the counter of accepting
states, which is the number `k` of acceptance sets of the generalized automaton it
was built from.  A run accepts if it visits states with counter `k` infinitely
often.  Its states are the live states of the arena; without an initial state it
refuses every word.

The display id `-1` marks the initial state, and `0` a state that accepts every
word.
-/

import OmegaAutomata.Arena.Subsumption
import OmegaAutomata.Product

namespace OmegaAutomata

/-- The display id of the initial state. -/
def initialIdentity : Int := -1

/-- The display id of a state that accepts every word. -/
def universalIdentity : Int := 0

/-- A Büchi automaton. -/
structure Automaton where
  arena : Arena
  /-- The initial state, unless it was removed. -/
  initial : Option StateId
  /-- The counter of accepting states. -/
  accept : Nat
  /-- The largest display id in use. -/
  lastIdentity : Int
  /-- The names of the propositions. -/
  propositions : Array String

namespace Automaton

/-- Forgets the initial state if it is not live. -/
def refreshInitial (b : Automaton) : Automaton :=
  { b with initial := b.initial.filter fun id => b.arena.isLive id }

/-- The automaton of an arena that starts in a given state. -/
def ofArena (arena : Arena) (initial : StateId) (accept : Nat) (lastIdentity : Int)
    (propositions : Array String) : Automaton :=
  refreshInitial ⟨arena, some initial, accept, lastIdentity, propositions⟩

/-- Whether there is no state, so that every word is refused. -/
def isEmpty (b : Automaton) : Bool :=
  b.arena.live.isEmpty

/-- The states with their ids, in the order in which they became live. -/
def states (b : Automaton) : List (StateId × State) :=
  b.arena.liveStates

/-- The state of an id, which has to be live. -/
def state (b : Automaton) (id : StateId) : Except Fault State :=
  if b.arena.isLive id then b.arena.state id else .error (.notLive id)

/-- Whether a state is accepting. -/
def isAccepting (b : Automaton) (s : State) : Bool :=
  s.counter == b.accept

/-- The moves from a state on the letter `v`. -/
def moves (b : Automaton) (id : StateId) (v : IndexSet) : Except Fault (List (Move StateId)) := do
  let s ← b.state id
  pure ((s.transitions.filter fun t => t.label.holds v).map fun t => ⟨t.target, ∅⟩)

/-- Whether a node of a product has an accepting state. -/
def acceptingNode (b : Automaton) {w : Lasso} (p : Product StateId w) (v : Nat) :
    Except Fault Bool := do
  let s ← b.state (← p.state v)
  pure (b.isAccepting s)

/-- Whether a lasso is accepted: some cycle of the product has an accepting state. -/
def acceptsLasso (b : Automaton) (w : Lasso) : Except Fault Bool := do
  let bound := b.arena.slots.size * w.size + 1
  let p ← Product.explore w bound b.initial.toList b.moves
  let cycles ← p.cycles
  cycles.anyM fun c => c.nodes.toList.anyM (b.acceptingNode p)

end Automaton

end OmegaAutomata
