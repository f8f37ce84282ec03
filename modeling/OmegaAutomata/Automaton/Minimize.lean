/-
# Minimizing Büchi automata

A round of the minimization drops subsumed transitions, can go through the strongly
connected components to remove unreachable states and to find those whose marking
is free, and merges states with the same transitions.  Rounds are repeated as long
as they remove states.

Each of the passes keeps the language of the automaton.
-/

import OmegaAutomata.Arena.Classify
import OmegaAutomata.Arena.Identities
import OmegaAutomata.Arena.Merge
import OmegaAutomata.Arena.Redirect
import OmegaAutomata.Automaton.Basic

namespace OmegaAutomata

namespace Automaton

/-- Drops the subsumed transitions.  Returns how many there were. -/
def dropSubsumed (b : Automaton) : Nat × Automaton :=
  let (n, arena) := b.arena.dropSubsumed
  (n, { b with arena })

/-- Removes the states that the initial state does not reach, and marks the others as transient or
recurrent.  Returns how many states were removed. -/
def classify (b : Automaton) : Except Fault (Nat × Automaton) := do
  let (n, arena) ← b.arena.classify b.initial
  pure (n, refreshInitial { b with arena := ← arena.sweep })

/-- Removes all states if there is no initial state.  Returns how many there were. -/
def clearWithoutInitial (b : Automaton) : Except Fault (Nat × Automaton) := do
  if b.initial.isSome then pure (0, b)
  else
    let arena ← b.arena.retireAll b.arena.live
    pure (b.arena.live.length, { b with arena := ← arena.sweep })

/-- Merges states with the same transitions and removes those without any, redirects the remaining
transitions, and tells states apart that now have the same display id and counter.  Returns how
many states are gone. -/
def mergeStates (b : Automaton) : Except Fault (Nat × Automaton) := do
  let (merged, arena) ← Arena.mergeEach b.accept b.arena.live.reverse b.arena
  let (dead, arena) ← arena.redirect none
  let (cleared, b) ← clearWithoutInitial (refreshInitial { b with arena })
  let (lastIdentity, arena) ← b.arena.separate b.lastIdentity
  pure (merged + dead + cleared, { b with arena, lastIdentity })

/-- What a minimization did. -/
structure MinimizeStats where
  rounds : Nat
  transitionsRemoved : Nat
  statesRemoved : Nat
deriving DecidableEq, Repr

/-- One round.  Returns the number of transitions that were dropped and of states that are gone. -/
def minimizeRound (refine : Bool) (b : Automaton) : Except Fault (Nat × Nat × Automaton) := do
  let (dropped, b) := b.dropSubsumed
  let (unreached, b) ← if refine then b.classify else pure (0, b)
  let (merged, b) ← b.mergeStates
  pure (dropped, unreached + merged, b)

/-- Goes on with rounds until one removes no state, at most `bound` times. -/
def minimizeRounds (refine : Bool) :
    (bound : Nat) → MinimizeStats → Automaton → Except Fault (MinimizeStats × Automaton)
  | 0, stats, b => pure (stats, b)
  | bound + 1, stats, b => do
    let (dropped, gone, b) ← b.minimizeRound refine
    let stats := ⟨stats.rounds + 1, stats.transitionsRemoved + dropped, stats.statesRemoved + gone⟩
    if gone = 0 then pure (stats, b) else minimizeRounds refine bound stats b

/-- Minimizes the automaton; with `refine`, by way of the strongly connected components.  Every
round but the last one removes a state, which bounds the rounds. -/
def minimize (refine : Bool) (b : Automaton) : Except Fault (MinimizeStats × Automaton) :=
  minimizeRounds refine (b.arena.live.length + 1) ⟨0, 0, 0⟩ b

/-- A pass over an automaton. -/
inductive Pass where
  /-- Drop subsumed transitions. -/
  | subsumption
  /-- Go through the strongly connected components. -/
  | components
  /-- Merge states. -/
  | merging
  /-- Go on with rounds until no state is removed. -/
  | minimization (refine : Bool)
deriving DecidableEq, Repr

/-- The automaton after a pass. -/
def Pass.run (b : Automaton) : Pass → Except Fault Automaton
  | .subsumption => pure b.dropSubsumed.2
  | .components => do pure (← b.classify).2
  | .merging => do pure (← b.mergeStates).2
  | .minimization refine => do pure (← b.minimize refine).2

/-- The automaton after a sequence of passes. -/
def runPasses (b : Automaton) (passes : List Pass) : Except Fault Automaton :=
  passes.foldlM Pass.run b

end Automaton

end OmegaAutomata
