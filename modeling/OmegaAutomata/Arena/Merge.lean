/-
# Merging states

Live states are visited from the latest to the oldest.  A state without transitions
is retired.  Any other one is merged into the first older live state that matches
it; if the marking of that state is free, it takes over the counter and the
recurrence of the state that is merged into it.  Transitions are not redirected on
the way, so states are compared by the transitions that they had at first.
-/

import OmegaAutomata.Arena.Basic

namespace OmegaAutomata

/-- The state that is left of `t` when `s` is merged into it. -/
def State.absorb (t s : State) : State :=
  if t.isFlexible then { t with counter := s.counter, recurrence := s.recurrence } else t

namespace Arena

/-- Whether the states of two ids match, where states with counter `k` are accepting. -/
def statesMatch (a : Arena) (k : Nat) (x y : StateId) : Except Fault Bool := do
  let s ← a.state x
  let t ← a.state y
  pure (s.matchesIn k t)

/-- The first of `candidates` that is live and matches the state `id`. -/
def partner? (a : Arena) (k : Nat) (id : StateId) (candidates : List StateId) :
    Except Fault (Option StateId) :=
  candidates.findM? fun x => if a.isLive x then a.statesMatch k id x else pure false

/-- Retires `id` if it has no transitions, or merges it into one of the `older` states.  Returns
whether the state is gone. -/
def mergeOne (k : Nat) (a : Arena) (id : StateId) (older : List StateId) :
    Except Fault (Bool × Arena) := do
  let s ← a.state id
  if s.transitions.isEmpty then
    pure (true, ← a.retire id none)
  else
    match ← a.partner? k id older with
    | none => pure (false, a)
    | some p => pure (true, ← (a.modify p fun t => t.absorb s).retire id (some p))

/-- Merges states, of which the latest comes first.  Returns how many are gone. -/
def mergeEach (k : Nat) : List StateId → Arena → Except Fault (Nat × Arena)
  | [], a => pure (0, a)
  | id :: older, a => do
    let (gone, a) ← a.mergeOne k id older
    let (n, a) ← mergeEach k older a
    pure (n + gone.toNat, a)

end Arena

end OmegaAutomata
