/-
# States of an arena

A state of a Büchi automaton under construction stems from a state of the
generalized automaton and has a progress counter; only the initial state stems from
none.  It is shown under a display id.  Its transitions are a list, and the order
in the list is kept by all operations.

How a state lies in the graph decides whether its acceptance marking matters: on a
cycle it does, and on no cycle it may be changed, since no run comes back to it.
-/

import OmegaAutomata.Label

namespace OmegaAutomata

/-- States are numbered in the order of their creation, and a number is never used again. -/
abbrev StateId := Nat

/-- The largest display id. -/
def maxDisplayId : Int := 2147483647

/-- The largest number of transitions that are counted as leading to one state. -/
def maxIncoming : Nat := 4294967295

/-- What is known about the cycles through a state. -/
inductive Recurrence where
  /-- Nothing yet. -/
  | unknown
  /-- Some run comes back to the state. -/
  | recurrent
  /-- No run comes back to the state, so its acceptance marking is free. -/
  | transient
deriving DecidableEq, Repr

/-- A transition to the state `target`, taken when `label` holds. -/
structure Transition where
  target : StateId
  label : Label
deriving DecidableEq

/-- A state. -/
structure State where
  /-- The state of the generalized automaton that this one stems from. -/
  source : Option Nat
  /-- The display id. -/
  identity : Int
  /-- The progress counter. -/
  counter : Nat
  /-- How many transitions lead here; kept up to date during the construction only. -/
  incoming : Nat
  recurrence : Recurrence
  transitions : List Transition

namespace State

/-- A state without transitions. -/
def fresh (source : Option Nat) (identity : Int) (counter : Nat) : State :=
  ⟨source, identity, counter, 0, .unknown, []⟩

/-- Whether the acceptance marking of the state may be changed. -/
def isFlexible (s : State) : Bool :=
  s.recurrence == .transient

/-- The states that the transitions lead to. -/
def targets (s : State) : List StateId :=
  s.transitions.map Transition.target

/-- Whether two states can be made one, where states with counter `k` are accepting: they have the
same transitions, and either the same marking or one whose marking may be changed. -/
def matchesIn (k : Nat) (s t : State) : Bool :=
  (decide (s.counter = k) == decide (t.counter = k) || s.isFlexible || t.isFlexible) &&
    s.transitions.all (· ∈ t.transitions) && t.transitions.all (· ∈ s.transitions)

end State

/-- The stage of a state's life. -/
inductive Stage where
  /-- Created, but without its transitions yet. -/
  | pending
  /-- Part of the automaton. -/
  | live
  /-- Removed, although transitions may still lead to it.  They are to go to `forward`, or to be
  dropped if there is none. -/
  | retired (forward : Option StateId)
deriving DecidableEq, Repr

/-- Whether the stage is the last one. -/
def Stage.isRetired : Stage → Bool
  | .retired _ => true
  | _ => false

/-- A state and its stage. -/
structure Slot where
  stage : Stage
  state : State

/-- The slot of a state that is retired: the state loses its transitions. -/
def Slot.retire (forward : Option StateId) (s : Slot) : Slot :=
  ⟨.retired forward, { s.state with transitions := [] }⟩

/-- The slot of a retired state after `id` was retired: what was to be replaced by `id` is now to be
replaced by `forward`. -/
def Slot.reforward (id : StateId) (forward : Option StateId) (s : Slot) : Slot :=
  if s.stage = .retired (some id) then { s with stage := .retired forward } else s

end OmegaAutomata
