/-
# Arenas of states

An arena holds the states of a Büchi automaton while they are built, merged and
removed.  A state begins pending, or live if it is the initial one; it becomes live
with `promote`, retired with `retire`, and its slot is freed by `discard` while it
is pending and by `sweep` after it was retired.

`keys` finds the state of a source and a counter, so that `resolve` builds each of
them once.  The transitions that lead to a retired state are not rewritten when it
is retired but by `Arena.redirect`, all of them together.

An operation that fails gives no arena, so nobody goes on with one that it left half
changed.
-/

import OmegaAutomata.Arena.State
import Std.Data.HashMap

namespace OmegaAutomata

/-- The states of an automaton and the lists that tell their stages. -/
structure Arena where
  /-- The states by id; a freed one is gone. -/
  slots : Array (Option Slot)
  /-- The state for a source and a counter. -/
  keys : Std.HashMap (Nat × Nat) StateId
  /-- The states that were created pending and not yet taken, the latest first. -/
  pending : List StateId
  /-- The live states in the order in which they became live. -/
  live : List StateId
  /-- The retired states that were not freed yet, the latest last. -/
  retired : List StateId

namespace Arena

/-- The arena without states. -/
def empty : Arena :=
  ⟨#[], ∅, [], [], []⟩

/-! ### Looking up -/

/-- The slot of a state that was not freed. -/
def slot? (a : Arena) (id : StateId) : Option Slot :=
  (a.slots[id]?).join

/-- The slot of a state, or the reason why there is none. -/
def slot (a : Arena) (id : StateId) : Except Fault Slot :=
  match a.slots[id]? with
  | none => .error (.unallocated id)
  | some none => .error (.freed id)
  | some (some s) => .ok s

/-- The state of an id. -/
def state (a : Arena) (id : StateId) : Except Fault State :=
  (a.slot id).map Slot.state

/-- Whether an id names a live state. -/
def isLive (a : Arena) (id : StateId) : Bool :=
  match a.slot? id with
  | some ⟨.live, _⟩ => true
  | _ => false

/-- The live states with their ids, in order. -/
def liveStates (a : Arena) : List (StateId × State) :=
  a.live.filterMap fun id => (a.slot? id).map fun s => (id, s.state)

/-! ### Changing one state -/

/-- Changes the slot of an id. -/
def setSlot (a : Arena) (id : StateId) (s : Slot) : Arena :=
  { a with slots := a.slots.setIfInBounds id (some s) }

/-- Changes the state of an id. -/
def modify (a : Arena) (id : StateId) (f : State → State) : Arena :=
  { a with slots := a.slots.modify id (Option.map fun s => { s with state := f s.state }) }

/-- Replaces the transitions of a state. -/
def setTransitions (a : Arena) (id : StateId) (ts : List Transition) : Arena :=
  a.modify id fun s => { s with transitions := ts }

/-- Changes the transitions of every live state. -/
def mapTransitions (a : Arena) (f : List Transition → List Transition) : Arena :=
  a.live.foldl (fun a id => a.modify id fun s => { s with transitions := f s.transitions }) a

/-! ### Life of a state -/

/-- Creates the initial state, which is live from the start. -/
def addInitial (a : Arena) (identity : Int) (counter : Nat) : StateId × Arena :=
  let id := a.slots.size
  (id, { a with
    slots := a.slots.push (some ⟨.live, .fresh none identity counter⟩)
    live := a.live ++ [id] })

/-- Creates a pending state. -/
def addPending (a : Arena) (source : Nat) (identity : Int) (counter : Nat) : StateId × Arena :=
  let id := a.slots.size
  (id, { a with
    slots := a.slots.push (some ⟨.pending, .fresh (some source) identity counter⟩)
    keys := a.keys.insert (source, counter) id
    pending := id :: a.pending })

/-- The state for a source and a counter: the one that replaces it if it was merged, and a new
pending one if there is none. -/
def resolve (a : Arena) (source : Nat) (identity : Int) (counter : Nat) :
    Except Fault (StateId × Arena) :=
  match a.keys[(source, counter)]? with
  | none => .ok (a.addPending source identity counter)
  | some id =>
    match a.slot id with
    | .error f => .error f
    | .ok ⟨.retired (some forward), _⟩ => .ok (forward, a)
    | .ok _ => .ok (id, a)

/-- Takes the state that was created pending last, whatever became of it since. -/
def popPending (a : Arena) : Option (StateId × Arena) :=
  match a.pending with
  | [] => none
  | id :: rest => some (id, { a with pending := rest })

/-- Makes a pending state live. -/
def promote (a : Arena) (id : StateId) : Except Fault Arena := do
  let s ← a.slot id
  if s.stage = .pending then
    pure { a.setSlot id { s with stage := .live } with live := a.live ++ [id] }
  else throw (.notPending id)

/-- The keys without the one of state `s`, unless it leads to another state than `id`. -/
def keysWithout (a : Arena) (id : StateId) (s : State) : Std.HashMap (Nat × Nat) StateId :=
  match s.source with
  | none => a.keys
  | some q => if a.keys[(q, s.counter)]? = some id then a.keys.erase (q, s.counter) else a.keys

/-- Frees the slot of a state; its key goes with it. -/
def forget (a : Arena) (id : StateId) : Except Fault Arena := do
  let s ← a.state id
  pure { a with keys := a.keysWithout id s, slots := a.slots.setIfInBounds id none }

/-- Frees a pending state that no transition leads to. -/
def discard (a : Arena) (id : StateId) : Except Fault Arena := do
  let s ← a.slot id
  if s.stage ≠ .pending then throw (.notPending id)
  if s.state.incoming ≠ 0 then throw (.stillReferenced id)
  a.forget id

/-- Retires the state of slot `s`, and takes it out of the live states if it is one. -/
def withdraw (a : Arena) (id : StateId) (forward : Option StateId) (s : Slot) : Arena :=
  { a.setSlot id (s.retire forward) with
    live := if s.stage = .live then a.live.filter (· ≠ id) else a.live }

/-- Sends a retired state that was to be replaced by `id` on to `forward`. -/
def reforward (id : StateId) (forward : Option StateId) (a : Arena) (x : StateId) :
    Except Fault Arena := do
  pure (a.setSlot x ((← a.slot x).reforward id forward))

/-- Retires a state, to be replaced by `forward` or by nothing.  It cannot replace itself, and its
replacement cannot be retired.  The retired states that it was to replace are gone through in the
order of their list. -/
def retire (a : Arena) (id : StateId) (forward : Option StateId) : Except Fault Arena := do
  if forward = some id then throw (.forwardToSelf id)
  if let some f := forward then
    if (← a.slot f).stage.isRetired then throw (.forwardToRetired f)
  let s ← a.slot id
  if s.stage.isRetired then throw (.alreadyRetired id)
  let a ← a.retired.foldlM (reforward id forward) (a.withdraw id forward s)
  pure { a with retired := a.retired ++ [id] }

/-- Retires states in order, without replacement. -/
def retireAll (a : Arena) (ids : List StateId) : Except Fault Arena :=
  ids.foldlM (fun a id => a.retire id none) a

/-- Frees the retired states.  No live state may lead to one of them. -/
def sweep (a : Arena) : Except Fault Arena :=
  a.retired.foldlM forget { a with retired := [] }

end Arena

end OmegaAutomata
