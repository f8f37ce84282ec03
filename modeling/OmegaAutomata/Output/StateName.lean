/-
# Names of states

In never claims and graphs a state is named by its marking and its display id:
`accept_S3` is accepting, and `T1_S3` is not and has the counter `1`.  The initial
state is `accept_init` or `T0_init`.  An accepting state with display id `0` accepts
every word and is `accept_all`, whatever its transitions are.
-/

import OmegaAutomata.Automaton.Basic

namespace OmegaAutomata

namespace Automaton

/-- Whether a state stands for accepting every word. -/
def isUniversal (b : Automaton) (s : State) : Bool :=
  s.identity == universalIdentity && b.isAccepting s

/-- The first part of the name: the marking, and the counter of a state that is not accepting. -/
def markingName (b : Automaton) (s : State) : String :=
  if b.isAccepting s then "accept" else "T" ++ toString s.counter

/-- The name of a state. -/
def stateName (b : Automaton) (s : State) : String :=
  if b.isUniversal s then "accept_all"
  else if s.identity = initialIdentity then b.markingName s ++ "_init"
  else b.markingName s ++ "_S" ++ toString s.identity

/-- The name of the state that a transition leads to, which has to be live. -/
def targetName (b : Automaton) (t : Transition) : Except Fault String :=
  (b.state t.target).map b.stateName

end Automaton

end OmegaAutomata
