/-
# Writing JSON

A value is written without any blanks, or with one item or member a line, indented by
two blanks a level, and with a blank after the colon.  Empty containers have nothing
between their brackets in both layouts.

In a string a quote, a backslash and the control characters below the blank are
escaped, with a letter if there is one and with four digits otherwise.  Every other
character stands for itself.
-/

import OmegaAutomata.Json.Value

namespace OmegaAutomata

namespace Json

/-- The two ways to lay out a value. -/
inductive Layout where
  | compact
  | indented
deriving DecidableEq, Repr

namespace Layout

/-- What comes before an item on level `depth`. -/
def lineBreak (l : Layout) (depth : Nat) : List Char :=
  match l with
  | compact => []
  | indented => '\n' :: List.replicate (2 * depth) ' '

/-- What comes between the name and the value of a member. -/
def colon (l : Layout) : List Char :=
  match l with
  | compact => [':']
  | indented => [':', ' ']

end Layout

/-- A character inside of a string literal. -/
def escape (c : Char) : List Char :=
  match c with
  | '"' => ['\\', '"']
  | '\\' => ['\\', '\\']
  | '\x08' => ['\\', 'b']
  | '\x0c' => ['\\', 'f']
  | '\n' => ['\\', 'n']
  | '\r' => ['\\', 'r']
  | '\t' => ['\\', 't']
  | c =>
    if c < ' ' then
      ['\\', 'u', '0', '0', Nat.digitChar (c.toNat / 16), Nat.digitChar (c.toNat % 16)]
    else [c]

/-- The string literal of a text. -/
def quote (s : String) : List Char :=
  '"' :: s.toList.flatMap escape ++ ['"']

/-- The literal of a string; one without a text is written as half of a surrogate pair. -/
def quoteText (s : Option String) : List Char :=
  match s with
  | some s => quote s
  | none => ['"', '\\', 'u', 'd', '8', '0', '0', '"']

/-- The literal of an integer. -/
def integerLiteral (n : Int) : List Char :=
  match n with
  | .ofNat n => Nat.toDigits 10 n
  | .negSucc n => '-' :: Nat.toDigits 10 (n + 1)

namespace Value

mutual

/-- The text of a value on level `depth`. -/
def chars (l : Layout) (depth : Nat) : Value → List Char
  | null => ['n', 'u', 'l', 'l']
  | bool true => ['t', 'r', 'u', 'e']
  | bool false => ['f', 'a', 'l', 's', 'e']
  | integer n => integerLiteral n
  | decimal literal => literal
  | string s => quoteText s
  | array [] => ['[', ']']
  | array (v :: vs) =>
    '[' :: l.lineBreak (depth + 1) ++ chars l (depth + 1) v ++ moreItems l (depth + 1) vs ++
      l.lineBreak depth ++ [']']
  | object [] => ['\x7b', '\x7d']
  | object ((k, v) :: ms) =>
    '\x7b' :: l.lineBreak (depth + 1) ++ quoteText k ++ l.colon ++ chars l (depth + 1) v ++
      moreMembers l (depth + 1) ms ++ l.lineBreak depth ++ ['\x7d']

/-- The items of an array after the first one. -/
def moreItems (l : Layout) (depth : Nat) : List Value → List Char
  | [] => []
  | v :: vs => ',' :: l.lineBreak depth ++ chars l depth v ++ moreItems l depth vs

/-- The members of an object after the first one. -/
def moreMembers (l : Layout) (depth : Nat) : List (Option String × Value) → List Char
  | [] => []
  | (k, v) :: ms =>
    ',' :: l.lineBreak depth ++ quoteText k ++ l.colon ++ chars l depth v ++
      moreMembers l depth ms

end

/-- The text of a value. -/
def render (l : Layout) (v : Value) : String :=
  String.ofList (v.chars l 0)

end Value

end Json

end OmegaAutomata
