/-
# Faults

A fault is the reason why an operation has no answer: a precondition that the
caller broke, a state that is not there any more, or a number that would leave
its range.  Every fallible operation of the library returns `Except Fault`; what
was changed when it broke off is lost with it.

The faults are those of a build with debug assertions and overflow checks: a broken
assertion and a sum that leaves its range are faults like any other.  What a build
without these checks would go on with there is not described.

Faults are kept apart from the errors that a caller may expect and go on from:
those of `Builder.build` and of a writer that runs out of room have types of
their own.
-/

namespace OmegaAutomata

/-- The cause of a broken operation.  Numbers are nodes of a graph or state ids of an arena. -/
inductive Fault where
  /-- A label was to require and to forbid the same proposition. -/
  | overlappingLabel
  /-- A progress counter was to start beyond the number of acceptance sets. -/
  | counterPastAccept
  /-- A lasso was to repeat nothing. -/
  | emptyCycle
  /-- A position that the lasso does not have. -/
  | unknownPosition (position : Nat)
  /-- The number after a position's number would leave its range. -/
  | positionOverflow (position : Nat)
  /-- A graph edge or a root leads outside of the graph. -/
  | unknownNode (node : Nat)
  /-- A component that the graph does not have. -/
  | unknownComponent (component : Nat)
  /-- A component was to be completed, but its first node is not on the stack. -/
  | emptyStack
  /-- No state was ever given this id. -/
  | unallocated (id : Nat)
  /-- The state of this id was freed. -/
  | freed (id : Nat)
  /-- The state is not pending. -/
  | notPending (id : Nat)
  /-- Transitions still lead to the state that was to be discarded. -/
  | stillReferenced (id : Nat)
  /-- A state was to be replaced by itself. -/
  | forwardToSelf (id : Nat)
  /-- The replacement of a state is itself retired. -/
  | forwardToRetired (id : Nat)
  /-- The state is retired already. -/
  | alreadyRetired (id : Nat)
  /-- The id does not name a live state. -/
  | notLive (id : Nat)
  /-- The state stems from no state of the generalized automaton. -/
  | sourceless (id : Nat)
  /-- The number of transitions that lead to the state would leave its range. -/
  | incomingOverflow (id : Nat)
  /-- No display id is left above the largest one in use. -/
  | identityOverflow
deriving DecidableEq, Repr

/-- The sentence that reports a fault. -/
def Fault.message : Fault → String
  | overlappingLabel => "a label requires and forbids the same proposition"
  | counterPastAccept => "a counter starts beyond the number of acceptance sets"
  | emptyCycle => "the cycle of a lasso word cannot be empty"
  | unknownPosition p => "the word has no position " ++ toString p
  | positionOverflow p => "no position number follows " ++ toString p
  | unknownNode v => "the graph has no node " ++ toString v
  | unknownComponent c => "the graph has no component " ++ toString c
  | emptyStack => "Tarjan stack cannot be empty here"
  | unallocated id => "state " ++ toString id ++ " does not exist"
  | freed id => "state " ++ toString id ++ " has been freed"
  | notPending id => "state " ++ toString id ++ " is not pending"
  | stillReferenced id => "state " ++ toString id ++ " is still referenced"
  | forwardToSelf id => "state " ++ toString id ++ " cannot replace itself"
  | forwardToRetired id => "state " ++ toString id ++ " is retired and replaces nothing"
  | alreadyRetired id => "state " ++ toString id ++ " is retired already"
  | notLive id => "state " ++ toString id ++ " is not live"
  | sourceless id => "state " ++ toString id ++ " has no source"
  | incomingOverflow id => "too many transitions lead to state " ++ toString id
  | identityOverflow => "the display ids are used up"

end OmegaAutomata
