/-
# Graphs in the dot language

The graph of an automaton has an edge for each transition, with the transition's
label on it.  The transitions of a state that accepts every word are left out.
-/

import OmegaAutomata.Output.Chunks
import OmegaAutomata.Output.StateName

namespace OmegaAutomata

namespace Graph

/-- The line of a transition of `s`. -/
def edge (b : Automaton) (s : State) (t : Transition) : Except Fault String := do
  let target ← b.targetName t
  pure ("\t" ++ b.stateName s ++ " -> " ++ target ++ " [label=\"" ++
    t.label.guardText b.propositions ++ "\"];\n")

/-- The graph of an automaton. -/
def chunks (b : Automaton) : Chunks :=
  let states := (b.states.map Prod.snd).filter fun s => !b.isUniversal s
  .ok "digraph Buchi \x7b\n" ::
    states.flatMap (fun s => s.transitions.map (edge b s)) ++ [.ok "\x7d\n"]

/-- The text of the graph. -/
def render (b : Automaton) : Except Fault String :=
  (chunks b).text

end Graph

end OmegaAutomata
