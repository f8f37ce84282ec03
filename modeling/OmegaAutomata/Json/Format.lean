/-
# Formats and codecs

A format says how the values of a type stand in JSON: what each of them is written
as, and which JSON values are read as it.  An integer has a range.  A record is
written as an object that has its fields in order.  It is read from an object where
the fields may stand in any order but none of them twice, and where members with
other names mean nothing.  A field may be missing if it has a usual value.

A codec writes the values of a type as texts, and reads them from texts.
-/

import OmegaAutomata.Json.Layout
import OmegaAutomata.Json.Reader

namespace OmegaAutomata

namespace Json

/-- How the values of a type stand in JSON. -/
structure Format (α : Type) where
  /-- Whether a value is in the range of the type that is written. -/
  Fits : α → Prop
  /-- What a value is written as. -/
  value : α → Value
  /-- Whether a JSON value is read as a value. -/
  Describes : Value → α → Prop

/-- How a field of a record stands in JSON. -/
structure Field (α : Type) where
  /-- The name of the member with the field. -/
  name : String
  /-- Whether the field of a record is in its range. -/
  Fits : α → Prop
  /-- What the field of a record is written as. -/
  value : α → Value
  /-- Whether the member with the field, or none, is read as the field of a record. -/
  Describes : Option Value → α → Prop

/-- The values of the members with a name. -/
def valuesOf (k : String) (members : List (String × Value)) : List Value :=
  (members.filter fun m => m.1 = k).map Prod.snd

namespace Format

variable {α β : Type}

/-- Truth values. -/
def bool : Format Bool where
  Fits _ := True
  value := .bool
  Describes v b := v = .bool b

/-- Integers between `least` and `greatest`. -/
def integer (least greatest : Int) : Format Int where
  Fits n := least ≤ n ∧ n ≤ greatest
  value := .integer
  Describes v n := v = .integer n ∧ least ≤ n ∧ n ≤ greatest

/-- Natural numbers up to `greatest`. -/
def natural (greatest : Nat) : Format Nat where
  Fits n := n ≤ greatest
  value n := .integer n
  Describes v n := v = .integer n ∧ n ≤ greatest

/-- Texts. -/
def text : Format String where
  Fits _ := True
  value := .ofString
  Describes v s := v = .ofString s

/-- Lists of what another format is for, as arrays. -/
def list (f : Format α) : Format (List α) where
  Fits xs := ∀ x ∈ xs, f.Fits x
  value xs := .array (xs.map f.value)
  Describes v xs := ∃ items : List (Value × α), v = .array (items.map Prod.fst) ∧
    xs = items.map Prod.snd ∧ ∀ i ∈ items, f.Describes i.1 i.2

/-- A field that must not be missing. -/
def field (f : Format β) (name : String) (get : α → β) : Field α where
  name := name
  Fits x := f.Fits (get x)
  value x := f.value (get x)
  Describes found x := ∃ v, found = some v ∧ f.Describes v (get x)

/-- A field with a usual value, which it has where it is missing. -/
def fieldOr (f : Format β) (usual : β) (name : String) (get : α → β) : Field α where
  name := name
  Fits x := f.Fits (get x)
  value x := f.value (get x)
  Describes found x :=
    match found with
    | none => get x = usual
    | some v => f.Describes v (get x)

/-- Records with the given fields. -/
def record (fields : List (Field α)) : Format α where
  Fits x := ∀ f ∈ fields, f.Fits x
  value x := .ofFields (fields.map fun f => (f.name, f.value x))
  Describes v x := ∃ members, v = .ofFields members ∧
    ∀ f ∈ fields, ∃ found : Option Value,
      valuesOf f.name members = found.toList ∧ f.Describes found x

end Format

/-- What writes the values of a type as texts, and reads them. -/
structure Codec (α : Type) where
  /-- The text of a value. -/
  write : Layout → α → String
  /-- The value that a text describes. -/
  read : String → Option α

/-- The codec that writes a value as its format says, and reads the JSON value of a text. -/
def Codec.ofReader {α : Type} (f : Format α) (ofValue? : Value → Option α) : Codec α where
  write l x := (f.value x).render l
  read text := do ofValue? (← Value.ofText? text)

end Json

end OmegaAutomata
