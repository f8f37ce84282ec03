/-
# Documents in JSON

A document is a record of two arrays of records, and no field of them may be missing.
The counter of a state is its field `final`.  Display ids are 32-bit integers with a
sign, and counters are such without one.
-/

import OmegaAutomata.Json.Format
import OmegaAutomata.Output.Chunks
import OmegaAutomata.Output.Document

namespace OmegaAutomata

open Json

namespace Document

/-! ### Formats -/

/-- The smallest display id. -/
def leastId : Int := -2147483648

/-- The largest counter. -/
def maxCounter : Nat := 4294967295

/-- State entries. -/
def StateEntry.format : Format StateEntry :=
  .record [
    (Format.integer leastId maxDisplayId).field "id" StateEntry.id,
    (Format.natural maxCounter).field "final" StateEntry.counter,
    Format.bool.field "accepting" StateEntry.accepting,
    Format.text.field "name" StateEntry.name]

/-- Literals, first those that must hold. -/
def conditions : Format (List String × List String) :=
  .record [Format.text.list.field "pos" Prod.fst, Format.text.list.field "neg" Prod.snd]

/-- Transition entries. -/
def TransitionEntry.format : Format TransitionEntry :=
  .record [
    (Format.integer leastId maxDisplayId).field "from" TransitionEntry.source,
    (Format.integer leastId maxDisplayId).field "to" TransitionEntry.target,
    conditions.field "conditions" fun t => (t.pos, t.neg)]

/-- Documents. -/
def format : Format Document :=
  .record [
    StateEntry.format.list.field "states" Document.states,
    TransitionEntry.format.list.field "transitions" Document.transitions]

/-! ### Files -/

/-- Writes a document and a line end to a place with room for a number of bytes.  Running out of
room within the document and after it are different errors. -/
def writeWithin (c : Codec Document) (room : Nat) (d : Document) : Written :=
  let size := (c.write .indented d).utf8ByteSize
  if room < size then ⟨room, some .serialization⟩
  else if room = size then ⟨room, some .output⟩
  else ⟨size + 1, none⟩

/-- The document as a file: laid out with indentation, and with a line end. -/
def fileText (c : Codec Document) (d : Document) : String :=
  c.write .indented d ++ "\n"

/-! ### Reading -/

/-- A display id. -/
def id? : Value → Option Int :=
  Value.integer? leastId maxDisplayId

/-- A counter. -/
def counter? (v : Value) : Option Nat :=
  (v.integer? 0 maxCounter).map Int.toNat

/-- The entry of a state that a value describes. -/
def StateEntry.ofValue? (v : Value) : Option StateEntry := do
  match ← v.fields? ["id", "final", "accepting", "name"] with
  | [some id, some counter, some accepting, some name] =>
    pure ⟨← id? id, ← counter? counter, ← accepting.bool?, ← name.text?⟩
  | _ => none

/-- The literals that a value describes, first those that must hold. -/
def conditions? (v : Value) : Option (List String × List String) := do
  match ← v.fields? ["pos", "neg"] with
  | [some pos, some neg] => pure (← pos.list? Value.text?, ← neg.list? Value.text?)
  | _ => none

/-- The entry of a transition that a value describes. -/
def TransitionEntry.ofValue? (v : Value) : Option TransitionEntry := do
  match ← v.fields? ["from", "to", "conditions"] with
  | [some source, some target, some conditions] =>
    let (pos, neg) ← conditions? conditions
    pure ⟨← id? source, ← id? target, pos, neg⟩
  | _ => none

/-- The document that a value describes. -/
def ofValue? (v : Value) : Option Document := do
  match ← v.fields? ["states", "transitions"] with
  | [some states, some transitions] =>
    pure ⟨← states.list? StateEntry.ofValue?, ← transitions.list? TransitionEntry.ofValue?⟩
  | _ => none

/-- A codec of documents. -/
def codec : Codec Document :=
  .ofReader format ofValue?

end Document

end OmegaAutomata
