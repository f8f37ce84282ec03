/-
# Subsumed transitions

A transition is subsumed by another one of the same state if both have the same
target and its label implies the other's: whenever it can be taken, so can the
other.  There are two ways to keep the most general transitions only.  `prune` goes
through a finished list in order, and of identical transitions it keeps the last.
`insertPruned` keeps a list free of subsumed transitions while it grows at its
front.
-/

import OmegaAutomata.Arena.Basic

namespace OmegaAutomata

namespace Transition

/-- Whether `u` has the same target and can be taken whenever `t` can. -/
def subsumedBy (t u : Transition) : Bool :=
  t.target == u.target && t.label.implies u.label

/-- Goes through `rest` and drops each transition that is subsumed by another one, either kept
before or still to come. -/
def pruneFrom (kept : List Transition) : (rest : List Transition) → List Transition
  | [] => kept
  | t :: rest =>
    if kept.any t.subsumedBy || rest.any t.subsumedBy then pruneFrom kept rest
    else pruneFrom (kept ++ [t]) rest

/-- The transitions of a list that no other one subsumes, in order. -/
def prune (ts : List Transition) : List Transition :=
  pruneFrom [] ts

/-- The transitions of a list that `t` does not subsume. -/
def notSubsumed (t : Transition) (ts : List Transition) : List Transition :=
  ts.filter fun u => !u.subsumedBy t

/-- Adds `t` in front, without the transitions that it subsumes, unless one of the others subsumes
it. -/
def insertPruned (t : Transition) (ts : List Transition) : List Transition :=
  let kept := t.notSubsumed ts
  if kept.any t.subsumedBy then kept else t :: kept

end Transition

namespace Arena

/-- The number of transitions of live states. -/
def transitionCount (a : Arena) : Nat :=
  (a.liveStates.flatMap fun s => s.2.transitions).length

/-- Drops the subsumed transitions of all live states, and returns how many there were. -/
def dropSubsumed (a : Arena) : Nat × Arena :=
  let b := a.mapTransitions Transition.prune
  (a.transitionCount - b.transitionCount, b)

end Arena

end OmegaAutomata
