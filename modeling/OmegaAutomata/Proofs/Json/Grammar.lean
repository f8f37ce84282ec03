/-
# The notation

Which texts spell a JSON value: those of its tokens, with blanks between them where one likes.  In a
string a character stands for itself or is spelled by an escape, an integer is spelled by its
digits, and a number ends where something follows that cannot belong to it, `Stops`.

Only strings that have a text and numbers that are written as integers are spelled; `Legible` says
that a value has no others.  What is written for such a value spells it (`spelled_render`).

What is relied on of a codec is `Codec.Follows`: it writes what its format says, and it reads every
text that spells what its format says.
-/

import OmegaAutomata.Json.Format
import OmegaAutomata.Json.Token

namespace OmegaAutomata

namespace Json

/-! ### Tokens -/

/-- Whether the characters of a string literal spell a character. -/
inductive Spelling : List Char → Char → Prop
  /-- A character that needs no escape stands for itself. -/
  | itself {c : Char} (hquote : c ≠ '"') (hslash : c ≠ '\\') (hcontrol : ¬c < ' ') :
    Spelling [c] c
  /-- A letter after a backslash. -/
  | letter {e c : Char} (h : escaped? e = some c) : Spelling ['\\', e] c
  /-- The digits of a code that is not half of a surrogate pair. -/
  | code {d₃ d₂ d₁ d₀ : Char} {n : Nat} (h : hexCode? d₃ d₂ d₁ d₀ = some n)
    (hhigh : isHighSurrogate n = false) (hlow : isLowSurrogate n = false) :
    Spelling ['\\', 'u', d₃, d₂, d₁, d₀] (Char.ofNat n)
  /-- The digits of both halves of a surrogate pair. -/
  | pair {d₃ d₂ d₁ d₀ e₃ e₂ e₁ e₀ : Char} {n m : Nat} (hn : hexCode? d₃ d₂ d₁ d₀ = some n)
    (hm : hexCode? e₃ e₂ e₁ e₀ = some m) (hhigh : isHighSurrogate n = true)
    (hlow : isLowSurrogate m = true) :
    Spelling ['\\', 'u', d₃, d₂, d₁, d₀, '\\', 'u', e₃, e₂, e₁, e₀]
      (Char.ofNat (0x10000 + (n - 0xD800) * 0x400 + (m - 0xDC00)))

/-- Whether the characters of a string literal spell a text, character by character. -/
inductive SpellsText : List Char → List Char → Prop
  | nil : SpellsText [] []
  | cons {cs s text : List Char} {c : Char} (hc : Spelling cs c) (h : SpellsText s text) :
    SpellsText (cs ++ s) (c :: text)

/-- Whether characters spell a natural number: they are digits, and no zero leads. -/
structure Numeral (ds : List Char) : Prop where
  digits : ∀ d ∈ ds, d.isDigit = true
  whole : isWhole ds = true

/-- Whether characters spell an integer.  Zero has no sign. -/
inductive SpellsInteger : List Char → Int → Prop
  | natural {ds : List Char} (h : Numeral ds) : SpellsInteger ds (decimalValue ds)
  | negative {ds : List Char} (h : Numeral ds) (hvalue : decimalValue ds ≠ 0) :
    SpellsInteger ('-' :: ds) (-(decimalValue ds : Int))

/-- Whether characters spell a token that is not a number. -/
inductive Token.Spelled : Token → List Char → Prop
  | leftBracket : Spelled .leftBracket ['[']
  | rightBracket : Spelled .rightBracket [']']
  | leftBrace : Spelled .leftBrace ['\x7b']
  | rightBrace : Spelled .rightBrace ['\x7d']
  | comma : Spelled .comma [',']
  | colon : Spelled .colon [':']
  | null : Spelled .null ['n', 'u', 'l', 'l']
  | true : Spelled (.bool true) ['t', 'r', 'u', 'e']
  | false : Spelled (.bool false) ['f', 'a', 'l', 's', 'e']
  | string {cs text : List Char} (h : SpellsText cs text) :
    Spelled (.string (some (.ofList text))) ('"' :: cs ++ ['"'])

/-- Whether no number goes on with a text. -/
def Stops (s : List Char) : Prop :=
  ∀ c ∈ s.head?, isNumberChar c = false

/-- Whether a text spells a list of tokens. -/
inductive Spells : List Token → List Char → Prop
  | nil : Spells [] []
  | blank {ts : List Token} {c : Char} {s : List Char} (hc : isBlank c = true)
    (h : Spells ts s) : Spells ts (c :: s)
  | token {t : Token} {ts : List Token} {cs s : List Char} (ht : t.Spelled cs)
    (h : Spells ts s) : Spells (t :: ts) (cs ++ s)
  | number {n : Int} {ts : List Token} {cs s : List Char} (hn : SpellsInteger cs n)
    (hs : Stops s) (h : Spells ts s) : Spells (.integer n :: ts) (cs ++ s)

/-! ### Values -/

namespace Value

mutual

/-- The tokens of a value. -/
def tokens : Value → List Token
  | null => [.null]
  | bool b => [.bool b]
  | integer n => [.integer n]
  | decimal literal => [.decimal literal]
  | string text => [.string text]
  | array [] => [.leftBracket, .rightBracket]
  | array (v :: vs) => .leftBracket :: tokens v ++ moreItemTokens vs ++ [.rightBracket]
  | object [] => [.leftBrace, .rightBrace]
  | object ((k, v) :: ms) =>
    .leftBrace :: .string k :: .colon :: tokens v ++ moreMemberTokens ms ++ [.rightBrace]

/-- The tokens of the items of an array after the first one. -/
def moreItemTokens : List Value → List Token
  | [] => []
  | v :: vs => .comma :: tokens v ++ moreItemTokens vs

/-- The tokens of the members of an object after the first one. -/
def moreMemberTokens : List (Option String × Value) → List Token
  | [] => []
  | (k, v) :: ms => .comma :: .string k :: .colon :: tokens v ++ moreMemberTokens ms

end

/-- Whether a text spells a value. -/
def Spelled (v : Value) (text : String) : Prop :=
  Spells v.tokens text.toList

end Value

/-- What is relied on of a codec for the values that a format is for. -/
structure Codec.Follows {α : Type} (c : Codec α) (f : Format α) : Prop where
  /-- A value is written as its JSON value is laid out: members in the order of the fields, without
  any blanks or indented, strings with their escapes, and integers by their digits. -/
  writes : ∀ (l : Layout) (x : α), f.Fits x → c.write l x = (f.value x).render l
  /-- Every text that spells a JSON value which describes `x` is read as `x`. -/
  reads : ∀ (text : String) (v : Value) (x : α), v.Spelled text → f.Describes v x →
    c.read text = some x

/-! ### What is written -/

variable {ts : List Token} {t : Token} {s : List Char} {c : Char} {l : Layout} {d : Nat}

theorem stops_nil : Stops [] := by
  simp [Stops]

theorem stops_cons (hc : isNumberChar c = false) : Stops (c :: s) := by
  simp [Stops, hc]

/-- A token of one character comes before the rest. -/
theorem Spells.mark (ht : t.Spelled [c]) (h : Spells ts s) : Spells (t :: ts) (c :: s) :=
  .token ht h

theorem spells_lineBreak (l : Layout) (d : Nat) (h : Spells ts s) :
    Spells ts (l.lineBreak d ++ s) := by
  cases l with
  | compact => exact h
  | indented =>
    have hblanks (n : Nat) : Spells ts (List.replicate n ' ' ++ s) := by
      induction n with
      | zero => exact h
      | succ n ih => exact .blank (by decide) ih
    exact .blank (by decide) (hblanks _)

theorem stops_lineBreak (h : Stops s) : Stops (l.lineBreak d ++ s) := by
  cases l with
  | compact => exact h
  | indented => exact stops_cons (by decide)

theorem spells_colon (l : Layout) (h : Spells ts s) : Spells (.colon :: ts) (l.colon ++ s) := by
  cases l with
  | compact => exact .mark .colon h
  | indented => exact .mark .colon (.blank (by decide) h)

theorem hexCode?_control : ∀ n < 32,
    hexCode? '0' '0' (Nat.digitChar (n / 16)) (Nat.digitChar (n % 16)) = some n := by
  decide

/-- **An escaped character spells itself.**  Codes are written for control characters only, and none
of them is half of a surrogate pair. -/
theorem spelling_escape (c : Char) : Spelling (escape c) c := by
  unfold escape
  split
  case h_8 hquote hslash _ _ _ _ _ =>
    split
    · rename_i hcontrol
      have hlt : c.toNat < 32 := hcontrol
      have hspelling := Spelling.code (hexCode?_control c.toNat hlt)
        (by simp only [isHighSurrogate, Bool.and_eq_false_iff, decide_eq_false_iff_not]; omega)
        (by simp only [isLowSurrogate, Bool.and_eq_false_iff, decide_eq_false_iff_not]; omega)
      rwa [Char.ofNat_toNat] at hspelling
    · rename_i hcontrol
      exact .itself hquote hslash hcontrol
  all_goals exact .letter rfl

theorem spellsText_escape (text : List Char) : SpellsText (text.flatMap escape) text := by
  induction text with
  | nil => exact .nil
  | cons c text ih => exact .cons (spelling_escape c) ih

/-- So does the literal of a text. -/
theorem spells_quote (text : String) (h : Spells ts s) :
    Spells (.string (some text) :: ts) (quote text ++ s) := by
  have hspelled := Token.Spelled.string (spellsText_escape text.toList)
  rw [String.ofList_toList] at hspelled
  exact .token hspelled h

/-- No zero leads the digits of a positive number: its first digit is that of a tenth of it. -/
theorem toDigits_eq_cons {n : Nat} (hn : 0 < n) :
    ∃ d ds, Nat.toDigits 10 n = d :: ds ∧ d ≠ '0' := by
  induction n using Nat.strongRecOn with
  | ind n ih =>
    rw [Nat.toDigits_eq_if (by decide)]
    split
    · rename_i hlt
      have hdigit : ∀ n < 10, 0 < n → Nat.digitChar n ≠ '0' := by decide
      exact ⟨_, [], rfl, hdigit n hlt hn⟩
    · obtain ⟨d, ds, hds, hd⟩ := ih (n / 10) (by omega) (by omega)
      exact ⟨d, ds ++ [(n % 10).digitChar], by rw [hds, List.cons_append], hd⟩

theorem numeral_toDigits (n : Nat) : Numeral (Nat.toDigits 10 n) where
  digits _ := Nat.isDigit_of_mem_toDigits (by decide) (by decide)
  whole := by
    cases n with
    | zero => rfl
    | succ n =>
      obtain ⟨d, ds, hds, hd⟩ := toDigits_eq_cons (Nat.succ_pos n)
      rw [hds, isWhole]
      · simpa using hd
      · rintro rfl
        contradiction

/-- **The digits of an integer** spell it. -/
theorem spellsInteger_integerLiteral (n : Int) : SpellsInteger (integerLiteral n) n := by
  have hvalue (m : Nat) : decimalValue (Nat.toDigits 10 m) = m := Nat.ofDigitChars_ten_toDigits
  cases n with
  | ofNat m =>
    have hspells := SpellsInteger.natural (numeral_toDigits m)
    rwa [hvalue] at hspells
  | negSucc m =>
    have hspells := SpellsInteger.negative (numeral_toDigits (m + 1))
    rw [hvalue] at hspells
    exact hspells (Nat.succ_ne_zero m)

namespace Value

mutual

/-- Whether all strings of a value have a text, and all its numbers are written as integers. -/
def Legible : Value → Prop
  | decimal _ => False
  | string text => text.isSome
  | array vs => LegibleItems vs
  | object ms => LegibleMembers ms
  | _ => True

/-- Whether this is so in all items of an array. -/
def LegibleItems : List Value → Prop
  | [] => True
  | v :: vs => Legible v ∧ LegibleItems vs

/-- Whether this is so in all members of an object, their names included. -/
def LegibleMembers : List (Option String × Value) → Prop
  | [] => True
  | (k, v) :: ms => k.isSome ∧ Legible v ∧ LegibleMembers ms

end

theorem legibleItems_iff {vs : List Value} : LegibleItems vs ↔ ∀ v ∈ vs, v.Legible := by
  induction vs with
  | nil => simp [LegibleItems]
  | cons v vs ih => rw [LegibleItems, ih, List.forall_mem_cons]

theorem legibleMembers_iff {ms : List (Option String × Value)} :
    LegibleMembers ms ↔ ∀ m ∈ ms, m.1.isSome ∧ m.2.Legible := by
  induction ms with
  | nil => simp [LegibleMembers]
  | cons m ms ih => rw [LegibleMembers, ih, List.forall_mem_cons, and_assoc]

theorem stops_moreItems (vs : List Value) (hs : Stops s) : Stops (moreItems l d vs ++ s) := by
  cases vs with
  | nil => exact hs
  | cons v vs => exact stops_cons (by decide)

theorem stops_moreMembers (ms : List (Option String × Value)) (hs : Stops s) :
    Stops (moreMembers l d ms ++ s) := by
  cases ms with
  | nil => exact hs
  | cons m ms => exact stops_cons (by decide)

theorem spells_quoteText {k : Option String} (hk : k.isSome) (h : Spells ts s) :
    Spells (.string k :: ts) (quoteText k ++ s) := by
  obtain ⟨text, rfl⟩ := Option.isSome_iff_exists.1 hk
  exact spells_quote text h

mutual

/-- **What is written for a value** spells its tokens, before anything that spells some. -/
theorem spells_chars (l : Layout) (d : Nat) {ts : List Token} {s : List Char} (h : Spells ts s)
    (hs : Stops s) : (v : Value) → v.Legible → Spells (v.tokens ++ ts) (v.chars l d ++ s)
  | null, _ => .token .null h
  | bool true, _ => .token .true h
  | bool false, _ => .token .false h
  | integer n, _ => .number (spellsInteger_integerLiteral n) hs h
  | decimal _, hv => by
    rw [Legible] at hv
    exact hv.elim
  | string text, hv => by
    rw [Legible] at hv
    exact spells_quoteText hv h
  | array [], _ => .mark .leftBracket (.mark .rightBracket h)
  | array (v :: vs), hv => by
    rw [Legible, LegibleItems] at hv
    -- the last item may be a number, which must end before what closes the array
    have hclose : Stops (l.lineBreak d ++ (']' :: s)) := stops_lineBreak (stops_cons (by decide))
    have hitems := spells_moreItems l (d + 1) (spells_lineBreak l d (.mark .rightBracket h))
      hclose vs hv.2
    have hvalue := spells_chars l (d + 1) hitems (stops_moreItems vs hclose) v hv.1
    have harray := Spells.mark .leftBracket (spells_lineBreak l (d + 1) hvalue)
    simpa only [tokens, chars, List.cons_append, List.append_assoc, List.nil_append] using harray
  | object [], _ => .mark .leftBrace (.mark .rightBrace h)
  | object ((k, v) :: ms), hv => by
    rw [Legible, LegibleMembers] at hv
    have hclose : Stops (l.lineBreak d ++ ('\x7d' :: s)) :=
      stops_lineBreak (stops_cons (by decide))
    have hmembers := spells_moreMembers l (d + 1) (spells_lineBreak l d (.mark .rightBrace h))
      hclose ms hv.2.2
    have hvalue := spells_chars l (d + 1) hmembers (stops_moreMembers ms hclose) v hv.2.1
    have hmember := spells_quoteText hv.1 (spells_colon l hvalue)
    have hobject := Spells.mark .leftBrace (spells_lineBreak l (d + 1) hmember)
    simpa only [tokens, chars, List.cons_append, List.append_assoc, List.nil_append] using hobject

theorem spells_moreItems (l : Layout) (d : Nat) {ts : List Token} {s : List Char}
    (h : Spells ts s) (hs : Stops s) : (vs : List Value) → LegibleItems vs →
      Spells (moreItemTokens vs ++ ts) (moreItems l d vs ++ s)
  | [], _ => h
  | v :: vs, hvs => by
    rw [LegibleItems] at hvs
    have hvalue := spells_chars l d (spells_moreItems l d h hs vs hvs.2) (stops_moreItems vs hs)
      v hvs.1
    have hitem := Spells.mark .comma (spells_lineBreak l d hvalue)
    simpa only [moreItemTokens, moreItems, List.cons_append, List.append_assoc] using hitem

theorem spells_moreMembers (l : Layout) (d : Nat) {ts : List Token} {s : List Char}
    (h : Spells ts s) (hs : Stops s) : (ms : List (Option String × Value)) → LegibleMembers ms →
      Spells (moreMemberTokens ms ++ ts) (moreMembers l d ms ++ s)
  | [], _ => h
  | (k, v) :: ms, hms => by
    rw [LegibleMembers] at hms
    have hvalue := spells_chars l d (spells_moreMembers l d h hs ms hms.2.2)
      (stops_moreMembers ms hs) v hms.2.1
    have hmember := spells_quoteText hms.1 (spells_colon l hvalue)
    have hmore := Spells.mark .comma (spells_lineBreak l d hmember)
    simpa only [moreMemberTokens, moreMembers, List.cons_append, List.append_assoc] using hmore

end

/-- **The text of a value spells it**, also with a line end after it. -/
theorem spelled_render (l : Layout) {v : Value} (hv : v.Legible) :
    v.Spelled (v.render l) ∧ v.Spelled (v.render l ++ "\n") := by
  have hline : Spells [] ['\n'] := .blank (by decide) .nil
  have htext := spells_chars l 0 .nil stops_nil v hv
  have hfile := spells_chars l 0 hline (stops_cons (by decide)) v hv
  rw [List.append_nil, List.append_nil] at htext
  rw [List.append_nil] at hfile
  constructor
  · rw [Spelled, render, String.toList_ofList]
    exact htext
  · rw [Spelled, render, String.toList_append, String.toList_ofList]
    exact hfile

end Value

end Json

end OmegaAutomata
