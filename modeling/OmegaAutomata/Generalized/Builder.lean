/-
# Building generalized automata

A builder collects propositions, states and transitions in any order.  States are
known by the caller's keys and numbered when a key is first mentioned; a transition
mentions its source before its target.  Nothing is checked on the way, so a
proposition may be declared after it is used: `build` checks all transitions, and
reports the first violation by state, then by transition.

Display ids are signed and proposition numbers unsigned numbers of 32 bits.  So what
is described is a builder with at most 2147483647 states, where the number after that
of a state is a display id, and with at most 4294967295 propositions, where their
count is a number, too.
-/

import OmegaAutomata.Generalized.Basic

namespace OmegaAutomata

/-- Why the collected data is not an automaton. -/
inductive BuildError where
  /-- A label mentions a proposition that is not declared; the largest such one is named. -/
  | propositionOutOfRange (index count : Nat)
  /-- A transition belongs to an acceptance set that does not exist; the largest is named. -/
  | acceptanceSetOutOfRange (set count : Nat)
  /-- A label requires and forbids a proposition; the smallest such one is named. -/
  | contradictoryLabel (proposition : Nat)
deriving DecidableEq, Repr

/-- The sentence that reports the error. -/
def BuildError.message : BuildError → String
  | propositionOutOfRange i n =>
    "proposition " ++ toString i ++ " is out of range (the automaton has " ++ toString n ++
      " propositions)"
  | acceptanceSetOutOfRange s n =>
    "acceptance set " ++ toString s ++ " is out of range (the automaton has " ++ toString n ++
      " acceptance sets)"
  | contradictoryLabel p =>
    "proposition " ++ toString p ++ " is both required and forbidden by the same label"

namespace Builder

/-- A transition as it was added. -/
structure TransitionDraft where
  target : Nat
  pos : IndexSet
  neg : IndexSet
  acceptance : IndexSet

/-- A state as it was mentioned: its key, its display id if one was set, its transitions in order. -/
structure StateDraft (κ : Type) where
  key : κ
  identity : Option Int
  transitions : Array TransitionDraft

end Builder

/-- The data collected for a generalized automaton whose states are known by keys in `κ`. -/
structure Builder (κ : Type) where
  /-- The number of acceptance sets. -/
  sets : Nat
  propositions : Array String
  states : Array (Builder.StateDraft κ)
  /-- The initial states, in the order in which they were first marked. -/
  initial : List Nat

namespace Builder

variable {κ : Type}

/-- A builder for an automaton with `sets` acceptance sets. -/
def empty (sets : Nat) : Builder κ :=
  ⟨sets, #[], #[], []⟩

/-- Declares a proposition and returns its number. -/
def addProposition (b : Builder κ) (name : String) : Nat × Builder κ :=
  (b.propositions.size, { b with propositions := b.propositions.push name })

/-- The number of the state with a key, which is appended if it is new. -/
def mention [BEq κ] (b : Builder κ) (key : κ) : Nat × Builder κ :=
  match b.states.findIdx? fun s => s.key == key with
  | some q => (q, b)
  | none => (b.states.size, { b with states := b.states.push ⟨key, none, #[]⟩ })

/-- Declares a state. -/
def addState [BEq κ] (b : Builder κ) (key : κ) : Builder κ :=
  (b.mention key).2

/-- Sets the display id of a state. -/
def setIdentity [BEq κ] (b : Builder κ) (key : κ) (identity : Int) : Builder κ :=
  let (q, b) := b.mention key
  { b with states := b.states.modify q fun s => { s with identity := some identity } }

/-- Marks a state as initial. -/
def markInitial [BEq κ] (b : Builder κ) (key : κ) : Builder κ :=
  let (q, b) := b.mention key
  if q ∈ b.initial then b else { b with initial := b.initial ++ [q] }

/-- Adds a transition between two states, with the propositions that must and must not hold. -/
def addTransition [BEq κ] (b : Builder κ) (source : κ) (pos neg acceptance : IndexSet)
    (target : κ) : Builder κ :=
  let (q, b) := b.mention source
  let (r, b) := b.mention target
  { b with
    states := b.states.modify q fun s =>
      { s with transitions := s.transitions.push ⟨r, pos, neg, acceptance⟩ } }

/-- Refuses a set with a member that is `count` or more, naming the largest one.  The count is below
4294967296. -/
def checkRange (s : IndexSet) (count : Nat) (error : Nat → Nat → BuildError) :
    Except BuildError Unit :=
  match s.max? with
  | none => .ok ()
  | some x => if count ≤ x then .error (error x count) else .ok ()

/-- The label of two sets of literals. -/
def checkLabel (pos neg : IndexSet) : Except BuildError Label :=
  if h : pos.isDisjoint neg = true then .ok ⟨pos, neg, h⟩
  else .error (.contradictoryLabel ((pos ∩ neg).min?.getD 0))

/-- The transition of a draft: the required and then the forbidden propositions must be declared
and have none in common, and the acceptance sets must exist. -/
def checkTransition (b : Builder κ) (t : TransitionDraft) :
    Except BuildError Generalized.Transition := do
  checkRange t.pos b.propositions.size .propositionOutOfRange
  checkRange t.neg b.propositions.size .propositionOutOfRange
  let label ← checkLabel t.pos t.neg
  checkRange t.acceptance b.sets .acceptanceSetOutOfRange
  pure ⟨t.target, label, t.acceptance⟩

/-- The state of draft number `q`, whose display id is `q + 1` unless one was set.  The number is
below 2147483647, so that this is a display id. -/
def checkState (b : Builder κ) (s : StateDraft κ) (q : Nat) :
    Except BuildError Generalized.State := do
  let transitions ← s.transitions.toList.mapM b.checkTransition
  pure ⟨s.identity.getD (q + 1), transitions⟩

/-- The automaton, if every transition passes its checks. -/
def build (b : Builder κ) : Except BuildError Generalized := do
  let states ← b.states.toList.zipIdx.mapM fun (s, q) => b.checkState s q
  pure ⟨states.toArray, b.initial, b.sets, b.propositions⟩

end Builder

end OmegaAutomata
