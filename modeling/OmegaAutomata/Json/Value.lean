/-
# JSON values

The tree of a JSON text.  Two literals of the notation stand for less than a value:
a string literal may spell half of a surrogate pair, which is no character, and then
has no text; and a number literal with a fraction or an exponent, or negative zero,
is not an integer, and is kept as it is written.  The members of an object are kept
in order, repeats included.
-/

namespace OmegaAutomata

namespace Json

/-- A JSON value. -/
inductive Value where
  | null
  | bool (b : Bool)
  | integer (n : Int)
  /-- A number that is not written as an integer. -/
  | decimal (literal : List Char)
  /-- A string, or `none` for a literal that spells no text. -/
  | string (text : Option String)
  | array (items : List Value)
  | object (members : List (Option String × Value))
deriving Inhabited

namespace Value

/-- The string with a given text. -/
def ofString (s : String) : Value :=
  .string (some s)

/-- The object with given names and values. -/
def ofFields (fields : List (String × Value)) : Value :=
  .object (fields.map fun (k, v) => (some k, v))

/-- The truth value. -/
def bool? : Value → Option Bool
  | bool b => some b
  | _ => none

/-- The text of a string. -/
def text? : Value → Option String
  | string s => s
  | _ => none

/-- An integer between `least` and `greatest`. -/
def integer? (least greatest : Int) : Value → Option Int
  | integer n => if least ≤ n ∧ n ≤ greatest then some n else none
  | _ => none

/-- The items of an array, each read by `read`. -/
def list? {α : Type} (read : Value → Option α) : Value → Option (List α)
  | array items => items.mapM read
  | _ => none

/-- The values of a record with the given fields, as far as they are there.  A record is an object,
whose names must all have a text and where none of the fields may be repeated; other members
are passed over.  Or it is an array with the values in order, of which the last ones may be
missing. -/
def fields? (names : List String) : Value → Option (List (Option Value))
  | object members =>
    if members.all (fun m => m.1.isSome) &&
        names.all (fun k => (members.filter fun m => m.1 = some k).length ≤ 1) then
      some (names.map fun k => (members.find? fun m => m.1 = some k).map Prod.snd)
    else none
  | array items =>
    if items.length ≤ names.length then
      some (items.map some ++ List.replicate (names.length - items.length) none)
    else none
  | _ => none

end Value

end Json

end OmegaAutomata
