/-
# Redirecting transitions

After states were retired, transitions may still lead to them.  `redirect` sends
each of them on to the replacement, or drops it if there is none.  A state that
loses its last transition this way is dead: it is retired as well, and the lists
are gone through again, until no more state dies.  Then the retired states are
freed.  A state that had no transitions before is not touched, and one state can be
protected.
-/

import OmegaAutomata.Arena.Basic

namespace OmegaAutomata

namespace Arena

/-- Where a transition goes now, if anywhere. -/
def follow (a : Arena) (t : Transition) : Except Fault (Option Transition) := do
  match (← a.slot t.target).stage with
  | .retired none => pure none
  | .retired (some f) =>
    if (← a.slot f).stage.isRetired then throw (.forwardToRetired f)
    pure (some { t with target := f })
  | _ => pure (some t)

/-- The transitions of a state after each of them was followed. -/
def followAll (a : Arena) (id : StateId) : Except Fault (List Transition) := do
  (← a.state id).transitions.filterMapM a.follow

/-- Goes through the live states once.  Returns those that lost their last transition, except
`spared`, in order. -/
def redirectOnce (spared : Option StateId) (a : Arena) : Except Fault (List StateId × Arena) := do
  let kept ← a.live.mapM fun id => do pure (id, ← a.followAll id)
  let dead := kept.filter fun (id, ts) =>
    ts.isEmpty && spared ≠ some id && (a.slot? id).any fun s => !s.state.transitions.isEmpty
  pure (dead.map Prod.fst, kept.foldl (fun a (id, ts) => a.setTransitions id ts) a)

/-- Goes through the live states until none dies, at most `bound` times.  Returns how many died. -/
def redirectRounds (spared : Option StateId) : (bound : Nat) → Arena → Except Fault (Nat × Arena)
  | 0, a => pure (0, a)
  | bound + 1, a => do
    let (dead, a) ← a.redirectOnce spared
    if dead.isEmpty then pure (0, a)
    else
      let (n, a) ← redirectRounds spared bound (← a.retireAll dead)
      pure (dead.length + n, a)

/-- Redirects all transitions to retired states and frees these.  Returns the number of states that
died on the way; every round but the last one makes a live state die, which bounds the rounds. -/
def redirect (a : Arena) (spared : Option StateId) : Except Fault (Nat × Arena) := do
  let (n, a) ← a.redirectRounds spared (a.live.length + 1)
  pure (n, ← a.sweep)

end Arena

end OmegaAutomata
