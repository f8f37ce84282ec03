/-
# Listings

The listing of an automaton names every state and shows each of its transitions in a
line.  Here the initial state is just `init`, and other names have no `S`.
-/

import OmegaAutomata.Output.Chunks
import OmegaAutomata.Output.StateName

namespace OmegaAutomata

namespace Listing

/-- The name of a state in listings. -/
def name (b : Automaton) (s : State) : String :=
  if s.identity = initialIdentity then "init"
  else b.markingName s ++ "_" ++ toString s.identity

/-- The line of a transition. -/
def line (b : Automaton) (t : Transition) : Except Fault String := do
  let target ← b.state t.target
  pure (t.label.listing b.propositions ++ " -> " ++ name b target ++ "\n")

/-- The listing of an automaton. -/
def chunks (b : Automaton) : Chunks :=
  if b.isEmpty then [.ok "empty automaton, refuses all words\n"]
  else b.states.flatMap fun (_, s) =>
    .ok ("state " ++ name b s ++ "\n") :: s.transitions.map (line b)

/-- The text of the listing. -/
def render (b : Automaton) : Except Fault String :=
  (chunks b).text

end Listing

end OmegaAutomata
