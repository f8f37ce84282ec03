/-
# The language of a Büchi automaton

A run goes through live states along transitions whose labels hold in the letters
that are read.  It accepts if it visits accepting states infinitely often.  The
language of a state is that of the runs that start in it; the automaton accepts
what its initial state accepts, and nothing without one.
-/

import OmegaAutomata.Automaton.Basic
import OmegaAutomata.Word

namespace OmegaAutomata

namespace Automaton

/-- The live state of an id. -/
def liveState? (b : Automaton) (id : StateId) : Option State :=
  match b.arena.slot? id with
  | some ⟨.live, s⟩ => some s
  | _ => none

/-- Whether the live state `id` has a transition to `target` that can be taken in `v`. -/
def Step (b : Automaton) (v : IndexSet) (id target : StateId) : Prop :=
  ∃ s, b.liveState? id = some s ∧ ∃ t ∈ s.transitions, t.target = target ∧ t.label.holds v = true

/-- Whether `id` is a live state with an accepting counter. -/
def AcceptingId (b : Automaton) (id : StateId) : Prop :=
  ∃ s, b.liveState? id = some s ∧ b.isAccepting s = true

/-- A run over `w`: the state before each position, beginning with `start`. -/
structure Run (b : Automaton) (start : StateId) (w : Word) where
  state : Nat → StateId
  starts : state 0 = start
  step : ∀ i, b.Step (w i) (state i) (state (i + 1))

/-- A run accepts if it visits accepting states infinitely often. -/
def Run.Accepting {b : Automaton} {start : StateId} {w : Word} (r : b.Run start w) : Prop :=
  InfinitelyOften fun i => b.AcceptingId (r.state i)

/-- Whether some accepting run over `w` starts in a state. -/
def AcceptsFrom (b : Automaton) (start : StateId) (w : Word) : Prop :=
  ∃ r : b.Run start w, r.Accepting

/-- Whether some accepting run over `w` starts in the initial state. -/
def Accepts (b : Automaton) (w : Word) : Prop :=
  ∃ i, b.initial = some i ∧ b.AcceptsFrom i w

end Automaton

end OmegaAutomata
