/-
# Tokens of what is spelled

Cutting a text into tokens gives those that it spells (`lexFrom_of_spells`): blanks are passed over,
and the longest run of number characters is the number, since it ends where the text `Stops`.  A
string is read piece by piece first, and its pieces give its text then; `Reads` says both about the
characters of a literal.
-/

import OmegaAutomata.Proofs.Json.Grammar
import Mathlib.Data.List.TakeWhile

namespace OmegaAutomata

namespace Json

/-! ### Tokens one by one -/

variable {done : List Token} {s rest : List Char} {t : Token} {c : Char}

theorem lexFrom_nil : lexFrom done [] = some done.reverse := by
  rw [lexFrom]
  rfl

theorem lexFrom_blank (hc : isBlank c = true) : lexFrom done (c :: s) = lexFrom done s := by
  rw [lexFrom, lexFrom, List.dropWhile_cons_of_pos hc]

/-- **A token that is read** is the next one. -/
theorem lexFrom_next (hc : isBlank c = false) (h : Token.next? (c :: s) = some (t, rest)) :
    lexFrom done (c :: s) = lexFrom (t :: done) rest := by
  rw [lexFrom]
  split
  · rename_i hs
    rw [List.dropWhile_cons_of_neg (by simp [hc])] at hs
    contradiction
  · rename_i c' s' hs
    rw [List.dropWhile_cons_of_neg (by simp [hc])] at hs
    cases hs
    split
    · rename_i hnone
      rw [h] at hnone
      contradiction
    · rename_i t' rest' hsome
      rw [h] at hsome
      cases hsome
      rfl

/-! ### Strings -/

/-- Whether characters are read as pieces, and these as a text, before whatever comes next. -/
structure Reads (cs : List Char) (ps : List Piece) (text : List Char) : Prop where
  pieces : ∀ done s, readPieces done (cs ++ s) = readPieces (ps.reverse ++ done) s
  text : ∀ done qs, textFrom? done (ps ++ qs) = textFrom? (text.reverse ++ done) qs

theorem Reads.append {cs cs' : List Char} {ps ps' : List Piece} {text text' : List Char}
    (h : Reads cs ps text) (h' : Reads cs' ps' text') :
    Reads (cs ++ cs') (ps ++ ps') (text ++ text') where
  pieces done s := by
    rw [List.append_assoc, h.pieces, h'.pieces, List.reverse_append, List.append_assoc]
  text done qs := by
    rw [List.append_assoc, h.text, h'.text, List.reverse_append, List.append_assoc]

/-- What needs no escape stands for itself. -/
theorem readPieces_char (ps : List Piece) (s : List Char) (hquote : c ≠ '"') (hslash : c ≠ '\\')
    (hcontrol : ¬c < ' ') : readPieces ps (c :: s) = readPieces (.char c :: ps) s := by
  rw [readPieces, if_neg hcontrol]
  · exact hquote
  · exact fun _ _ _ _ _ h => absurd h hslash
  · exact fun _ _ h => absurd h hslash

/-- No letter that stands for a character begins a code. -/
theorem readPieces_letter (ps : List Piece) (s : List Char) {e : Char}
    (h : escaped? e = some c) :
    readPieces ps ('\\' :: e :: s) = readPieces (.char c :: ps) s := by
  rw [readPieces, h]
  rintro _ _ _ _ _ rfl -
  contradiction

theorem readPieces_code (ps : List Piece) (s : List Char) {d₃ d₂ d₁ d₀ : Char} {n : Nat}
    (h : hexCode? d₃ d₂ d₁ d₀ = some n) :
    readPieces ps ('\\' :: 'u' :: d₃ :: d₂ :: d₁ :: d₀ :: s) = readPieces (.code n :: ps) s := by
  rw [readPieces, h]

theorem textFrom?_code (ds : List Char) (ps : List Piece) {n : Nat}
    (hhigh : isHighSurrogate n = false) (hlow : isLowSurrogate n = false) :
    textFrom? ds (.code n :: ps) = textFrom? (Char.ofNat n :: ds) ps := by
  rw [textFrom?.eq_def]
  dsimp only
  rw [hhigh, hlow]
  rfl

theorem textFrom?_pair (ds : List Char) (ps : List Piece) {n m : Nat}
    (hhigh : isHighSurrogate n = true) (hlow : isLowSurrogate m = true) :
    textFrom? ds (.code n :: .code m :: ps) =
      textFrom? (Char.ofNat (0x10000 + (n - 0xD800) * 0x400 + (m - 0xDC00)) :: ds) ps := by
  rw [textFrom?.eq_def]
  dsimp only
  rw [if_pos hhigh, if_pos hlow]

/-- **The characters that spell a character** are read as it. -/
theorem exists_reads_of_spelling {cs : List Char} (h : Spelling cs c) : ∃ ps, Reads cs ps [c] := by
  cases h with
  | itself hquote hslash hcontrol =>
    exact ⟨[.char c], fun done s => readPieces_char done s hquote hslash hcontrol,
      fun _ _ => by rw [List.singleton_append, textFrom?]; rfl⟩
  | letter he =>
    exact ⟨[.char c], fun done s => readPieces_letter done s he,
      fun _ _ => by rw [List.singleton_append, textFrom?]; rfl⟩
  | @code _ _ _ _ n hn hhigh hlow =>
    exact ⟨[.code n], fun done s => readPieces_code done s hn,
      fun ds qs => textFrom?_code ds qs hhigh hlow⟩
  | @pair _ _ _ _ _ _ _ _ n m hn hm hhigh hlow =>
    exact ⟨[.code n, .code m],
      fun done s => (readPieces_code done _ hn).trans (readPieces_code (.code n :: done) s hm),
      fun ds qs => textFrom?_pair ds qs hhigh hlow⟩

theorem exists_reads_of_spellsText {cs text : List Char} (h : SpellsText cs text) :
    ∃ ps, Reads cs ps text := by
  induction h with
  | nil => exact ⟨[], fun _ _ => rfl, fun _ _ => rfl⟩
  | cons hc _ ih =>
    obtain ⟨ps, hps⟩ := exists_reads_of_spelling hc
    obtain ⟨qs, hqs⟩ := ih
    exact ⟨ps ++ qs, hps.append hqs⟩

/-- **A string is read from its literal.** -/
theorem next?_string {cs text : List Char} (h : SpellsText cs text) (s : List Char) :
    Token.next? ('"' :: cs ++ ['"'] ++ s) = some (.string (some (.ofList text)), s) := by
  obtain ⟨ps, hps⟩ := exists_reads_of_spellsText h
  have htext : text? ps = some (.ofList text) := by
    have := hps.text [] []
    rw [List.append_nil, List.append_nil, textFrom?, List.reverse_reverse] at this
    rw [text?, this, Option.map_some]
  rw [List.append_assoc, List.cons_append, List.singleton_append, Token.next?, hps.pieces,
    List.append_nil, readPieces, List.reverse_reverse, Option.map_some]
  dsimp only
  rw [htext]

/-- **A token that is not a number** is read from what spells it. -/
theorem lexFrom_token {cs : List Char} (ht : t.Spelled cs) (s : List Char) :
    lexFrom done (cs ++ s) = lexFrom (t :: done) s := by
  cases ht with
  | string h => exact lexFrom_next (by decide) (next?_string h s)
  | _ => exact lexFrom_next (by decide) rfl

/-! ### Numbers -/

theorem takeWhile_of_stops (h : Stops s) : s.takeWhile isNumberChar = [] := by
  cases s with
  | nil => rfl
  | cons c s => rw [List.takeWhile_cons, h c rfl]; rfl

theorem dropWhile_of_stops (h : Stops s) : s.dropWhile isNumberChar = s := by
  cases s with
  | nil => rfl
  | cons c s => rw [List.dropWhile_cons, h c rfl]; rfl

theorem isBlank_eq_false (hc : isNumberChar c = true) : isBlank c = false := by
  refine Bool.eq_false_iff.2 fun h => ?_
  have hcases : c = ' ' ∨ c = '\n' ∨ c = '\t' ∨ c = '\r' := by
    simpa [isBlank, or_assoc] using h
  rcases hcases with rfl | rfl | rfl | rfl <;> contradiction

/-- What begins a number begins nothing else. -/
theorem next?_of_isNumberChar (hc : isNumberChar c = true) : Token.next? (c :: s) =
    (number? (c :: s.takeWhile isNumberChar)).map fun t => (t, s.dropWhile isNumberChar) := by
  have hne {e : Char} (he : isNumberChar e = false) : c ≠ e := by
    rintro rfl
    rw [he] at hc
    contradiction
  unfold Token.next?
  split
  case h_11 =>
    rename_i heq
    cases heq
    exact if_pos hc
  case h_12 =>
    rename_i heq
    contradiction
  all_goals
    rename_i heq
    exact absurd (List.cons.inj heq).1 (hne rfl)

/-- **A number literal is read as a whole** if nothing follows that could belong to it. -/
theorem lexFrom_number {cs : List Char} (hcs : ∀ c ∈ cs, isNumberChar c = true)
    (ht : number? cs = some t) (hs : Stops s) : lexFrom done (cs ++ s) = lexFrom (t :: done) s := by
  cases cs with
  | nil => exact absurd ht (by simp [number?, isWhole])
  | cons c cs =>
    obtain ⟨hc, hcs⟩ := List.forall_mem_cons.1 hcs
    rw [List.cons_append]
    refine lexFrom_next (isBlank_eq_false hc) ?_
    rw [next?_of_isNumberChar hc, List.takeWhile_append_of_pos hcs, takeWhile_of_stops hs,
      List.append_nil, List.dropWhile_append_of_pos hcs, dropWhile_of_stops hs, ht]
    rfl

/-- A numeral is the literal of an integer, with and without a sign. -/
theorem number?_of_numeral {ds : List Char} (h : Numeral ds) :
    number? ds = some (.integer (decimalValue ds)) ∧
      (decimalValue ds ≠ 0 → number? ('-' :: ds) = some (.integer (-(decimalValue ds : Int)))) := by
  have htake : ds.takeWhile Char.isDigit = ds := List.takeWhile_eq_self_iff.2 h.digits
  have hdrop : ds.dropWhile Char.isDigit = [] := List.dropWhile_eq_nil_iff.2 h.digits
  constructor
  · unfold number?
    split
    rename_i negative body hsign
    split at hsign
    · exact absurd (h.digits _ List.mem_cons_self) (by decide)
    · cases hsign
      simp [htake, hdrop, h.whole, isRemainder, isExponent]
  · intro hvalue
    simp [number?, htake, hdrop, h.whole, isRemainder, isExponent, hvalue]

/-- **An integer is read from what spells it**, also at the end of a text. -/
theorem lexFrom_integer {n : Int} {cs : List Char} (hn : SpellsInteger cs n) (hs : Stops s) :
    lexFrom done (cs ++ s) = lexFrom (.integer n :: done) s := by
  have hnumber {ds : List Char} (h : Numeral ds) : ∀ d ∈ ds, isNumberChar d = true := fun d hd => by
    simp [isNumberChar, h.digits d hd]
  cases hn with
  | natural h => exact lexFrom_number (hnumber h) (number?_of_numeral h).1 hs
  | negative h hvalue =>
    exact lexFrom_number (List.forall_mem_cons.2 ⟨by decide, hnumber h⟩)
      ((number?_of_numeral h).2 hvalue) hs

/-! ### Texts -/

/-- **Cutting a text into tokens** gives those that it spells. -/
theorem lexFrom_of_spells {ts : List Token} (h : Spells ts s) (done : List Token) :
    lexFrom done s = some (done.reverse ++ ts) := by
  induction h generalizing done with
  | nil => rw [lexFrom_nil, List.append_nil]
  | blank hc _ ih => rw [lexFrom_blank hc, ih]
  | token ht _ ih => rw [lexFrom_token ht, ih, List.reverse_cons, List.append_assoc]; rfl
  | number hn hs _ ih => rw [lexFrom_integer hn hs, ih, List.reverse_cons, List.append_assoc]; rfl

end Json

end OmegaAutomata
