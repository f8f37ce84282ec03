/-
# Degeneralization

A generalized automaton with `k` acceptance sets becomes a Büchi automaton whose
states are pairs of a state and a progress counter in `0 … k`, and which accepts in
the states with counter `k`.  An initial state of its own has the transitions of all
initial states.  A pair is built when a transition first leads to it; of the pairs
that wait for their transitions the latest is taken first.

On the fly, subsumed transitions are dropped as a list grows, a state without
transitions is retired, and a state with the transitions of a live one is merged into
it.  Transitions to retired states are redirected at the end, all of them together.
-/

import OmegaAutomata.Automaton.Minimize
import OmegaAutomata.Generalized.Basic
import OmegaAutomata.Options

namespace OmegaAutomata

/-- What happened during a construction. -/
structure BuildStats where
  /-- States that became live, with the initial one. -/
  states : Nat
  /-- Their transitions at that time. -/
  transitions : Nat
  /-- States merged into a live one on the fly. -/
  merged : Nat
  /-- States retired on the fly for want of transitions. -/
  dead : Nat
  /-- States freed before they were explored, since no transition led to them. -/
  unexplored : Nat
  /-- States that lost all transitions at the end. -/
  cascaded : Nat
deriving DecidableEq, Repr

namespace Construction

/-! ### Transitions -/

/-- Lowers the count of the transitions that lead to a state. -/
def release (a : Arena) (id : StateId) (n : Nat) : Except Fault Arena := do
  let s ← a.state id
  if s.incoming < n then throw (.incomingOverflow id)
  pure (a.modify id fun s => { s with incoming := s.incoming - n })

/-- Counts one more transition that leads to a state. -/
def retain (a : Arena) (id : StateId) : Except Fault Arena := do
  let s ← a.state id
  if s.incoming < maxIncoming then
    pure (a.modify id fun s => { s with incoming := s.incoming + 1 })
  else throw (.incomingOverflow id)

/-- Adds a transition in front of those of a state; on the fly, without the subsumed ones. -/
def link (onTheFly : Bool) (a : Arena) (source : StateId) (t : Transition) :
    Except Fault Arena := do
  let old := (← a.state source).transitions
  if onTheFly then
    let kept := t.notSubsumed old
    let a ← release a t.target (old.length - kept.length)
    let a ← if kept.any t.subsumedBy then pure a else retain a t.target
    pure (a.setTransitions source (t.insertPruned old))
  else
    let a ← retain a t.target
    pure (a.setTransitions source (t :: old))

/-- Adds what becomes of a transition of the generalized automaton when it is taken with the
counter `start`. -/
def addMove (g : Generalized) (onTheFly : Bool) (source : StateId) (start : Nat) (a : Arena)
    (t : Generalized.Transition) : Except Fault Arena := do
  let counter ← Counter.advance? g.sets t.acceptance start
  let (target, a) ← a.resolve t.target (g.identity t.target) counter
  link onTheFly a source ⟨target, t.label⟩

/-- Adds what becomes of all transitions of a state of the generalized automaton. -/
def addMoves (g : Generalized) (onTheFly : Bool) (source : StateId) (start : Nat) (a : Arena)
    (q : Nat) : Except Fault Arena :=
  (g.transitions q).foldlM (addMove g onTheFly source start) a

/-! ### States -/

/-- A construction under way. -/
structure Progress where
  arena : Arena
  stats : BuildStats

/-- Builds the initial state: its counter starts from zero. -/
def begin (g : Generalized) (onTheFly : Bool) : Except Fault (StateId × Progress) := do
  let (initial, a) := Arena.empty.addInitial initialIdentity 0
  let a ← g.initial.foldlM (addMoves g onTheFly initial 0) a
  let s ← a.state initial
  pure (initial, ⟨a, ⟨1, s.transitions.length, 0, 0, 0, 0⟩⟩)

/-- Makes a pending state with its transitions live. -/
def keep (p : Progress) (id : StateId) (s : State) : Except Fault Progress := do
  let stats := { p.stats with
    states := p.stats.states + 1
    transitions := p.stats.transitions + s.transitions.length }
  pure ⟨← p.arena.promote id, stats⟩

/-- Merges a pending state into a live one: its transitions lead nowhere from now on. -/
def mergeInto (p : Progress) (id partner : StateId) (s : State) : Except Fault Progress := do
  let a ← s.targets.foldlM (fun a target => release a target 1) p.arena
  let stats := { p.stats with merged := p.stats.merged + 1 }
  pure ⟨← a.retire id (some partner), stats⟩

/-- Retires a pending state that has no transitions. -/
def bury (p : Progress) (id : StateId) : Except Fault Progress := do
  let stats := { p.stats with dead := p.stats.dead + 1 }
  pure ⟨← p.arena.retire id none, stats⟩

/-- Decides what becomes of a pending state that has got its transitions. -/
def settle (g : Generalized) (onTheFly : Bool) (p : Progress) (id : StateId) :
    Except Fault Progress := do
  let s ← p.arena.state id
  if onTheFly then
    if s.transitions.isEmpty then bury p id
    else
      match ← p.arena.live.findM? (p.arena.statesMatch g.sets id) with
      | some partner => mergeInto p id partner s
      | none => keep p id s
  else keep p id s

/-- Builds the transitions of a pending state, and decides what becomes of it. -/
def exploreState (g : Generalized) (onTheFly : Bool) (p : Progress) (id : StateId) :
    Except Fault Progress := do
  let s ← p.arena.state id
  match s.source with
  | none => throw (.sourceless id)
  | some q =>
    let a ← addMoves g onTheFly id (Counter.restart g.sets s.counter) p.arena q
    settle g onTheFly ⟨a, p.stats⟩ id

/-- Deals with a state that was taken from the pending ones. -/
def visit (g : Generalized) (onTheFly : Bool) (p : Progress) (id : StateId) :
    Except Fault Progress := do
  if (← p.arena.state id).incoming = 0 then
    let stats := { p.stats with unexplored := p.stats.unexplored + 1 }
    pure ⟨← p.arena.discard id, stats⟩
  else exploreState g onTheFly p id

/-- Deals with pending states until none is left, at most `bound` of them. -/
def drain (g : Generalized) (onTheFly : Bool) : (bound : Nat) → Progress → Except Fault Progress
  | 0, p => pure p
  | bound + 1, p =>
    match p.arena.popPending with
    | none => pure p
    | some (id, a) => do drain g onTheFly bound (← visit g onTheFly ⟨a, p.stats⟩ id)

/-- How many pending states there can be: one for the target of a transition and a counter. -/
def bound (g : Generalized) : Nat :=
  g.transitionCount * (g.sets + 1)

/-- Explores all states. -/
def explore (g : Generalized) (onTheFly : Bool) : Except Fault (StateId × Progress) := do
  let (initial, p) ← begin g onTheFly
  pure (initial, ← drain g onTheFly (bound g) p)

/-- Redirects the transitions to retired states.  The initial state stays even if it loses all of
its transitions. -/
def finish (initial : StateId) (p : Progress) : Except Fault Progress := do
  let (n, a) ← p.arena.redirect (some initial)
  pure ⟨a, { p.stats with cascaded := n }⟩

end Construction

/-- The Büchi automaton for a generalized automaton, before any minimization. -/
def build (g : Generalized) (options : Options) : Except Fault (Automaton × BuildStats) := do
  let (initial, p) ← Construction.explore g options.onTheFly
  let p ← Construction.finish initial p
  pure (.ofArena p.arena initial g.sets g.maxIdentity g.propositions, p.stats)

/-- The Büchi automaton for a generalized automaton, minimized if the options say so. -/
def degeneralize (g : Generalized) (options : Options) :
    Except Fault (Automaton × BuildStats) := do
  let (b, stats) ← build g options
  if options.simplify then pure ((← b.minimize options.refine).2, stats)
  else pure (b, stats)

end OmegaAutomata
