/-
# Fresh display ids

States that show the same display id and the same counter cannot be told apart in
an output.  `separate` gives the later one of such a pair an id above all ids in
use.  The latest state is compared with all older ones first, and it gets a new id
each time it agrees with one of them.
-/

import OmegaAutomata.Arena.Basic

namespace OmegaAutomata

namespace Arena

/-- The next display id above `last`, as long as there is one. -/
def nextIdentity (last : Int) : Except Fault Int :=
  if last < maxDisplayId then .ok (last + 1) else .error .identityOverflow

/-- The display id for a state with a counter, such that none of the `older` states agrees with it.
`last` is the largest id in use; the result holds the largest id in use and the one for the state. -/
def identityAgainst (counter : Nat) (last identity : Int) :
    (older : List State) → Except Fault (Int × Int)
  | [] => pure (last, identity)
  | t :: older =>
    if t.identity = identity ∧ t.counter = counter then do
      let next ← nextIdentity last
      identityAgainst counter next next older
    else identityAgainst counter last identity older

/-- Gives states fresh display ids, of which the latest comes first. -/
def separateEach : List StateId → Int → Arena → Except Fault (Int × Arena)
  | [], last, a => pure (last, a)
  | id :: older, last, a => do
    let s ← a.state id
    let (last, identity) ← identityAgainst s.counter last s.identity (← older.mapM a.state)
    separateEach older last (a.modify id fun s => { s with identity := identity })

/-- Gives fresh display ids to the live states that agree with an older one in display id and
counter.  Returns the largest id in use. -/
def separate (a : Arena) (last : Int) : Except Fault (Int × Arena) :=
  separateEach a.live.reverse last a

end Arena

end OmegaAutomata
