/-
# Reachability and recurrence

`classify` decomposes the graph of an arena from a root.  A live state that the
root does not reach is retired.  Every other one is marked: a state alone in its
component and without a transition to itself is transient, and any other state is
recurrent.  A state that was once marked recurrent stays so.
-/

import OmegaAutomata.Arena.Basic
import OmegaAutomata.Components

namespace OmegaAutomata

namespace Arena

/-- The mark of a state in a component with `size` members. -/
def recurrenceIn (size : Nat) (id : StateId) (s : State) : Recurrence :=
  if s.recurrence = .recurrent then .recurrent
  else if size = 1 && !s.targets.contains id then .transient
  else .recurrent

/-- The components of what a root reaches; a root that is not live reaches nothing. -/
def components (a : Arena) (root : Option StateId) : Except Fault Components :=
  let roots := (root.filter fun id => a.isLive id).toList
  strongComponents a.slots.size roots fun id => (a.state id).map State.targets

/-- Retires a state that was not reached, and marks any other. -/
def classifyOne (cs : Components) (a : Arena) (id : StateId) : Except Fault Arena :=
  match (cs.component[id]?).join with
  | none => a.retire id none
  | some c => .ok (a.modify id fun s =>
      { s with recurrence := recurrenceIn (cs.sizes[c]?.getD 0) id s })

/-- Retires the live states that `root` does not reach, and marks the others.  Returns the number
of retired states. -/
def classify (a : Arena) (root : Option StateId) : Except Fault (Nat × Arena) := do
  let cs ← a.components root
  let unreached := a.live.filter fun id => ((cs.component[id]?).join).isNone
  pure (unreached.length, ← a.live.foldlM (classifyOne cs) a)

end Arena

end OmegaAutomata
