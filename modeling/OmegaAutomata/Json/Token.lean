/-
# JSON tokens

The words of the JSON notation.  `lex` cuts a text into them: blanks separate tokens
and mean nothing else, a run of number characters is one literal, and a string
literal may not hold a control character.
-/

namespace OmegaAutomata

namespace Json

/-- A token of the JSON notation. -/
inductive Token where
  | leftBracket
  | rightBracket
  | leftBrace
  | rightBrace
  | comma
  | colon
  | null
  | bool (b : Bool)
  | integer (n : Int)
  /-- A number that is not written as an integer. -/
  | decimal (literal : List Char)
  /-- A string, or `none` for a literal that spells no text. -/
  | string (text : Option String)
deriving DecidableEq

/-! ### Strings -/

/-- A piece of a string literal: a character, or a 16-bit code that is spelled by its digits. -/
inductive Piece where
  | char (c : Char)
  | code (n : Nat)
deriving DecidableEq

/-- The value of a hexadecimal digit. -/
def hexValue? (c : Char) : Option Nat :=
  if c.isDigit then some (c.toNat - '0'.toNat)
  else if 'a' ≤ c ∧ c ≤ 'f' then some (c.toNat - 'a'.toNat + 10)
  else if 'A' ≤ c ∧ c ≤ 'F' then some (c.toNat - 'A'.toNat + 10)
  else none

/-- The code that four hexadecimal digits spell. -/
def hexCode? (a b c d : Char) : Option Nat := do
  pure ((((← hexValue? a) * 16 + (← hexValue? b)) * 16 + (← hexValue? c)) * 16 + (← hexValue? d))

/-- The character that a backslash and a letter stand for. -/
def escaped? : Char → Option Char
  | '"' => some '"'
  | '\\' => some '\\'
  | '/' => some '/'
  | 'b' => some '\x08'
  | 'f' => some '\x0c'
  | 'n' => some '\n'
  | 'r' => some '\r'
  | 't' => some '\t'
  | _ => none

/-- Reads a string literal after its opening quote, up to and including the closing one.  Returns
its pieces, after those of `done` (last first), and what follows. -/
def readPieces (done : List Piece) : List Char → Option (List Piece × List Char)
  | [] => none
  | '"' :: rest => some (done.reverse, rest)
  | '\\' :: 'u' :: a :: b :: c :: d :: rest =>
    match hexCode? a b c d with
    | some n => readPieces (.code n :: done) rest
    | none => none
  | '\\' :: e :: rest =>
    match escaped? e with
    | some c => readPieces (.char c :: done) rest
    | none => none
  | c :: rest => if c < ' ' then none else readPieces (.char c :: done) rest

/-- Whether a code is the first half of a surrogate pair. -/
def isHighSurrogate (n : Nat) : Bool :=
  0xD800 ≤ n && n < 0xDC00

/-- Whether a code is the second half of a surrogate pair. -/
def isLowSurrogate (n : Nat) : Bool :=
  0xDC00 ≤ n && n < 0xE000

/-- The text of a list of pieces, after the characters of `done` (last first): two codes that are a
surrogate pair spell one character, and half a pair spells none. -/
def textFrom? (done : List Char) : List Piece → Option (List Char)
  | [] => some done.reverse
  | .char c :: ps => textFrom? (c :: done) ps
  | .code n :: ps =>
    if isHighSurrogate n then
      match ps with
      | .code m :: ps =>
        if isLowSurrogate m then
          textFrom? (Char.ofNat (0x10000 + (n - 0xD800) * 0x400 + (m - 0xDC00)) :: done) ps
        else none
      | _ => none
    else if isLowSurrogate n then none
    else textFrom? (Char.ofNat n :: done) ps

/-- The text of a string literal. -/
def text? (ps : List Piece) : Option String :=
  (textFrom? [] ps).map String.ofList

/-! ### Numbers -/

/-- The number that a list of decimal digits spells. -/
def decimalValue (ds : List Char) : Nat :=
  ds.foldl (fun n d => 10 * n + (d.toNat - '0'.toNat)) 0

/-- Whether digits may be the whole part of a number: there are some, and no zero leads. -/
def isWhole (ds : List Char) : Bool :=
  match ds with
  | [] => false
  | ['0'] => true
  | d :: _ => d != '0'

/-- Whether a text is an exponent, or nothing. -/
def isExponent : List Char → Bool
  | [] => true
  | e :: rest =>
    let ds := match rest with
      | '+' :: ds => ds
      | '-' :: ds => ds
      | ds => ds
    (e == 'e' || e == 'E') && !ds.isEmpty && ds.all Char.isDigit

/-- Whether a text may follow the whole part of a number. -/
def isRemainder : List Char → Bool
  | '.' :: rest => !(rest.takeWhile Char.isDigit).isEmpty && isExponent (rest.dropWhile Char.isDigit)
  | rest => isExponent rest

/-- The token of a number literal. -/
def number? (literal : List Char) : Option Token :=
  let (negative, body) := match literal with
    | '-' :: body => (true, body)
    | body => (false, body)
  let whole := body.takeWhile Char.isDigit
  let rest := body.dropWhile Char.isDigit
  if isWhole whole && isRemainder rest then
    if !rest.isEmpty || (negative && decimalValue whole == 0) then some (.decimal literal)
    else if negative then some (.integer (-(decimalValue whole : Int)))
    else some (.integer (decimalValue whole))
  else none

/-- Whether a character may occur in a number literal. -/
def isNumberChar (c : Char) : Bool :=
  c.isDigit || c == '-' || c == '+' || c == '.' || c == 'e' || c == 'E'

/-! ### Texts -/

/-- Whether a character is a blank. -/
def isBlank (c : Char) : Bool :=
  c == ' ' || c == '\n' || c == '\t' || c == '\r'

/-- The token at the start of a text, and what follows. -/
def Token.next? : List Char → Option (Token × List Char)
  | '[' :: rest => some (.leftBracket, rest)
  | ']' :: rest => some (.rightBracket, rest)
  | '\x7b' :: rest => some (.leftBrace, rest)
  | '\x7d' :: rest => some (.rightBrace, rest)
  | ',' :: rest => some (.comma, rest)
  | ':' :: rest => some (.colon, rest)
  | 'n' :: 'u' :: 'l' :: 'l' :: rest => some (.null, rest)
  | 't' :: 'r' :: 'u' :: 'e' :: rest => some (.bool true, rest)
  | 'f' :: 'a' :: 'l' :: 's' :: 'e' :: rest => some (.bool false, rest)
  | '"' :: rest => (readPieces [] rest).map fun (ps, rest) => (.string (text? ps), rest)
  | c :: rest =>
    if isNumberChar c then
      (number? (c :: rest.takeWhile isNumberChar)).map fun t => (t, rest.dropWhile isNumberChar)
    else none
  | [] => none

/-- Reading a string literal takes at least its closing quote. -/
theorem length_readPieces {done : List Piece} {s : List Char} {r : List Piece × List Char}
    (h : readPieces done s = some r) : r.2.length < s.length := by
  fun_induction readPieces done s with
  | case2 => cases h; exact Nat.lt_succ_self _
  | case3 _ _ _ _ _ _ _ _ ih => have := ih h; simp only [List.length_cons]; omega
  | case5 _ _ _ _ _ _ ih => have := ih h; simp only [List.length_cons]; omega
  | case8 _ _ _ _ _ _ _ ih => have := ih h; simp only [List.length_cons]; omega
  | _ => cases h

/-- A token takes at least one character. -/
theorem Token.length_next? {s : List Char} {r : Token × List Char}
    (h : Token.next? s = some r) : r.2.length < s.length := by
  unfold Token.next? at h
  split at h <;> try (cases h; simp +arith)
  · obtain ⟨q, hq, rfl⟩ := Option.map_eq_some_iff.1 h
    exact Nat.lt_succ_of_lt (length_readPieces hq)
  · split at h
    · obtain ⟨t, _, rfl⟩ := Option.map_eq_some_iff.1 h
      exact Nat.lt_succ_of_le (List.dropWhile_suffix _).length_le
    · cases h
  · cases h

/-- The tokens of a text, after those of `done` (last first). -/
def lexFrom (done : List Token) (s : List Char) : Option (List Token) :=
  match _ : s.dropWhile isBlank with
  | [] => some done.reverse
  | c :: rest =>
    match _ : Token.next? (c :: rest) with
    | none => none
    | some (t, rest) => lexFrom (t :: done) rest
termination_by s.length
decreasing_by
  have hs := ‹s.dropWhile isBlank = _›
  have hd : (s.dropWhile isBlank).length ≤ s.length := (List.dropWhile_suffix _).length_le
  exact Nat.lt_of_lt_of_le (Token.length_next? ‹_›) (hs ▸ hd)

/-- The tokens of a text. -/
def lex (s : List Char) : Option (List Token) :=
  lexFrom [] s

end Json

end OmegaAutomata
