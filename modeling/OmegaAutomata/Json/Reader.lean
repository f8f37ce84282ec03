/-
# Reading JSON

The value of a JSON text is read token by token.  The containers that are still open
are kept in a list, the innermost first, together with what they hold already, so
values may be nested as deep as they like.  A comma has to be followed by another
item or member.
-/

import OmegaAutomata.Json.Token
import OmegaAutomata.Json.Value

namespace OmegaAutomata

namespace Json

/-- An open container, with what it holds so far (last first): an array, or an object with the name
of the member whose value comes next. -/
inductive Open where
  | items (done : List Value)
  | members (done : List (Option String × Value)) (name : Option String)

/-- What has to come next, inside the open containers. -/
inductive Reader where
  /-- A value. -/
  | value (outer : List Open)
  /-- The first item of an array, or its end. -/
  | firstItem (outer : List Open)
  /-- The first name of an object, or its end. -/
  | firstName (outer : List Open)
  /-- Another name of an object that holds some members. -/
  | name (done : List (Option String × Value)) (outer : List Open)
  /-- The colon after the name of a member. -/
  | colon (done : List (Option String × Value)) (name : Option String) (outer : List Open)
  /-- Whatever may follow a value that is complete. -/
  | after (v : Value) (outer : List Open)

namespace Reader

/-- Goes on with a token where a value is expected. -/
def beginValue (outer : List Open) : Token → Option Reader
  | .leftBracket => some (.firstItem outer)
  | .leftBrace => some (.firstName outer)
  | .null => some (.after .null outer)
  | .bool b => some (.after (.bool b) outer)
  | .integer n => some (.after (.integer n) outer)
  | .decimal l => some (.after (.decimal l) outer)
  | .string s => some (.after (.string s) outer)
  | _ => none

/-- Goes on with a token after the complete value `v`. -/
def afterValue (v : Value) (outer : List Open) (t : Token) : Option Reader :=
  match outer, t with
  | .items done :: outer, .comma => some (.value (.items (v :: done) :: outer))
  | .items done :: outer, .rightBracket => some (.after (.array (v :: done).reverse) outer)
  | .members done k :: outer, .comma => some (.name ((k, v) :: done) outer)
  | .members done k :: outer, .rightBrace =>
    some (.after (.object ((k, v) :: done).reverse) outer)
  | _, _ => none

/-- Goes on with a token. -/
def step (r : Reader) (t : Token) : Option Reader :=
  match r, t with
  | .value outer, t => beginValue outer t
  | .firstItem outer, .rightBracket => some (.after (.array []) outer)
  | .firstItem outer, t => beginValue (.items [] :: outer) t
  | .firstName outer, .rightBrace => some (.after (.object []) outer)
  | .firstName outer, .string k => some (.colon [] k outer)
  | .name done outer, .string k => some (.colon done k outer)
  | .colon done k outer, .colon => some (.value (.members done k :: outer))
  | .after v outer, t => afterValue v outer t
  | _, _ => none

/-- The value that was read, if it is complete and no container is open. -/
def result? : Reader → Option Value
  | .after v [] => some v
  | _ => none

end Reader

/-- The value of a list of tokens. -/
def Value.ofTokens? (ts : List Token) : Option Value := do
  (← ts.foldlM Reader.step (.value [])).result?

/-- The value of a text. -/
def Value.ofText? (text : String) : Option Value := do
  Value.ofTokens? (← lex text.toList)

end Json

end OmegaAutomata
