/-
# Reading guards

A guard is written as the literals of its label with connectives between them, or as `1`
if there are none.  `Label.read?` gets the label back (`Label.read?_guardText`), provided
that the propositions have names that are fit for it: these must be different, have no
characters that stand between names, and none of them may be `1`.  This is so for all
lists of different identifiers.
-/

import OmegaAutomata.Output.NeverClaim
import OmegaAutomata.Proofs.Generalized.Collected
import Mathlib.Data.List.Basic

namespace OmegaAutomata

/-! ### Literals -/

/-- The label with given literals. -/
def Label.ofLiterals? (ls : List Literal) : Option Label :=
  let those (positive : Bool) :=
    IndexSet.ofList ((ls.filter (·.positive == positive)).map (·.proposition))
  (Label.ofSets (those true) (those false)).toOption

/-- **The literals of a label determine it.** -/
theorem Label.ofLiterals?_literals (l : Label) : ofLiterals? l.literals = some l := by
  have hthose (positive : Bool) (x : Nat) :
      x ∈ (l.literals.filter (·.positive == positive)).map (·.proposition) ↔
        (x ∈ l.pos ∨ x ∈ l.neg) ∧ l.pos.contains x = positive := by
    simp [literals, IndexSet.mem_toList, and_comm]
  have hpos : IndexSet.ofList
      ((l.literals.filter (·.positive == true)).map (·.proposition)) = l.pos := by
    refine IndexSet.ext fun x => ?_
    rw [IndexSet.mem_ofList, hthose, IndexSet.contains_iff]
    exact ⟨And.right, fun h => ⟨.inl h, h⟩⟩
  have hneg : IndexSet.ofList
      ((l.literals.filter (·.positive == false)).map (·.proposition)) = l.neg := by
    refine IndexSet.ext fun x => ?_
    rw [IndexSet.mem_ofList, hthose, Bool.eq_false_iff, ne_eq, IndexSet.contains_iff]
    exact ⟨fun h => h.1.resolve_left h.2, fun h =>
      ⟨.inr h, fun hp => IndexSet.isDisjoint_iff.1 l.consistent x hp h⟩⟩
  dsimp only [ofLiterals?]
  rw [hpos, hneg, ofSets, dif_pos l.consistent]
  rfl

namespace NeverClaim

/-! ### Names -/

/-- The characters that stand between names. -/
def punctuation : List Char :=
  [' ', '\t', '\n', ':', '(', ')', '!', '&', '|']

/-- Whether a text has no such character. -/
def Plain (s : String) : Prop :=
  ∀ c ∈ s.toList, c ∉ punctuation

instance (s : String) : Decidable (Plain s) :=
  List.decidableBAll (fun c => c ∉ punctuation) s.toList

/-- Whether a text can be read as a name.  Identifiers can, and names of states. -/
def IsName (s : String) : Prop :=
  s ≠ "" ∧ Plain s

instance (s : String) : Decidable (IsName s) :=
  inferInstanceAs (Decidable (s ≠ "" ∧ Plain s))

/-- Whether propositions can be told apart by their names, and from the guard that always holds. -/
structure Legible (names : Array String) : Prop where
  nodup : names.toList.Nodup
  isName : ∀ name ∈ names, IsName name ∧ name ≠ "1"

theorem Plain.append {s t : String} (hs : Plain s) (ht : Plain t) : Plain (s ++ t) := by
  intro c hc
  rw [String.toList_append] at hc
  exact (List.mem_append.1 hc).elim (hs c) (ht c)

theorem IsName.not_mem {s : String} (h : IsName s) {c : Char} (hc : c ∈ punctuation) :
    c ∉ s.toList := fun hs => h.2 c hs hc

theorem IsName.toList_ne_nil {s : String} (h : IsName s) : s.toList ≠ [] :=
  fun hnil => h.1 (String.toList_eq_nil_iff.1 hnil)

end NeverClaim

open NeverClaim

variable {names : Array String}

/-! ### Guards -/

/-- The proposition of a name. -/
def proposition? (names : Array String) (cs : List Char) : Option Nat :=
  names.toList.idxOf? (.ofList cs)

theorem proposition?_propositionName (h : Legible names) {i : Nat} (hi : i < names.size) :
    proposition? names (propositionName names i).toList = some i := by
  rw [proposition?, String.ofList_toList, propositionName, Array.getElem?_eq_getElem hi,
    Option.getD_some, List.idxOf?_eq_some_iff]
  refine ⟨hi, rfl, fun j hj heq => ?_⟩
  exact Nat.ne_of_lt hj ((List.getElem_inj h.nodup).1 heq)

theorem isName_propositionName (h : Legible names) {i : Nat} (hi : i < names.size) :
    IsName (propositionName names i) ∧ propositionName names i ≠ "1" := by
  rw [propositionName, Array.getElem?_eq_getElem hi, Option.getD_some]
  exact h.isName _ (Array.getElem_mem hi)

/-- Reads a literal. -/
def Literal.read? (names : Array String) : List Char → Option Literal
  | '!' :: cs => (proposition? names cs).map (⟨·, false⟩)
  | cs => (proposition? names cs).map (⟨·, true⟩)

/-- **A literal is read back.** -/
theorem Literal.read?_render (h : Legible names) {l : Literal} (hl : l.proposition < names.size) :
    Literal.read? names (l.render names).toList = some l := by
  obtain ⟨i, positive⟩ := l
  have hread := proposition?_propositionName h hl
  have hname := (isName_propositionName h hl).1
  cases positive with
  | false =>
    rw [Literal.render, if_neg (by simp), String.toList_append]
    show (proposition? names (propositionName names i).toList).map _ = _
    rw [hread]
    rfl
  | true =>
    rw [Literal.render, if_pos rfl, Literal.read?.eq_2, hread]
    · rfl
    · intro cs hcs
      exact hname.not_mem (c := '!') (by decide) (hcs ▸ List.mem_cons_self)

/-- Reads words, which are literals with connectives between them. -/
def literals? (names : Array String) : List (List Char) → Option (List Literal)
  | [] => none
  | [w] => (Literal.read? names w).map ([·])
  | w :: connective :: ws => do
    if connective = ['&', '&'] then some ((← Literal.read? names w) :: (← literals? names ws))
    else none

/-- Reads a guard. -/
def Label.read? (names : Array String) (cs : List Char) : Option Label :=
  if cs = ['1'] then some .always
  else literals? names (cs.splitOn ' ') >>= Label.ofLiterals?

/-- Words with a connective between them, as a text with blanks in it. -/
theorem intercalate_connective (ws : List (List Char)) :
    [' ', '&', '&', ' '].intercalate ws = [' '].intercalate (ws.intersperse ['&', '&']) := by
  induction ws with
  | nil => rfl
  | cons w ws ih =>
    cases ws with
    | nil => rfl
    | cons u ws =>
      have hne : (u :: ws).intersperse ['&', '&'] ≠ [] := by
        cases ws <;> simp
      rw [List.intercalate_cons_cons, List.intersperse_cons_cons, List.intercalate_cons_cons, ih,
        List.intercalate_cons_of_ne_nil hne]
      simp

theorem mem_of_mem_intersperse {sep w : List Char} {ws : List (List Char)}
    (h : w ∈ ws.intersperse sep) : w ∈ ws ∨ w = sep := by
  induction ws with
  | nil => exact .inl h
  | cons u ws ih =>
    cases ws with
    | nil => exact .inl h
    | cons t ws =>
      rw [List.intersperse_cons_cons, List.mem_cons, List.mem_cons] at h
      rcases h with rfl | rfl | h
      · exact .inl List.mem_cons_self
      · exact .inr rfl
      · exact (ih h).imp_left (List.mem_cons_of_mem u)

/-- A character of words with a separator between them is one of a word or of the separator. -/
theorem not_mem_intercalate {c : Char} {sep : List Char} {ws : List (List Char)}
    (hsep : c ∉ sep) (h : ∀ w ∈ ws, c ∉ w) : c ∉ sep.intercalate ws := by
  intro hc
  obtain ⟨w, hw, hc⟩ := List.mem_flatten.1 hc
  rcases mem_of_mem_intersperse hw with hw | heq
  · exact h w hw hc
  · exact hsep (heq ▸ hc)

section

variable {l : Label}

theorem Label.literals_lt (hl : l.Below names.size) {x : Literal} (hx : x ∈ l.literals) :
    x.proposition < names.size := by
  obtain ⟨i, hi, rfl⟩ := List.mem_map.1 hx
  exact hl i (IndexSet.mem_union.1 (IndexSet.mem_toList.1 hi))

theorem Label.literals_ne_nil (hl : l.isAlways = false) : l.literals ≠ [] := by
  intro hnil
  have hnone (i : Nat) (hi : i ∈ l.pos ∨ i ∈ l.neg) : False := by
    have hmem := IndexSet.mem_toList.2 (IndexSet.mem_union.2 hi)
    rw [List.map_eq_nil_iff.1 hnil] at hmem
    exact List.not_mem_nil hmem
  rw [isAlways_iff.2 ⟨fun i hi => hnone i (.inl hi), fun i hi => hnone i (.inr hi)⟩] at hl
  contradiction

theorem Label.eq_always (hl : l.isAlways = true) : l = always := by
  obtain ⟨hpos, hneg⟩ := isAlways_iff.1 hl
  obtain ⟨pos, neg, hdisjoint⟩ := l
  obtain rfl : pos = ∅ := IndexSet.ext fun x => iff_of_false (hpos x) (IndexSet.not_mem_empty x)
  obtain rfl : neg = ∅ := IndexSet.ext fun x => iff_of_false (hneg x) (IndexSet.not_mem_empty x)
  rfl

/-- A literal has no punctuation but the exclamation mark, and is not the guard that always
holds. -/
theorem Literal.render_spec (h : Legible names) {x : Literal} (hx : x.proposition < names.size) :
    (∀ c ∈ punctuation, c ≠ '!' → c ∉ (x.render names).toList) ∧
      (x.render names).toList ≠ ['1'] := by
  obtain ⟨hname, hone⟩ := isName_propositionName h hx
  rw [Literal.render]
  split
  · exact ⟨fun c hc _ => hname.not_mem hc, fun heq => hone (String.toList_injective heq)⟩
  · rw [String.toList_append]
    refine ⟨fun c hc hne hmem => ?_, by simp⟩
    rcases List.mem_append.1 hmem with hmem | hmem
    · exact hne (List.mem_singleton.1 hmem)
    · exact hname.not_mem hc hmem

/-- The words of literals with connectives between them are read back. -/
theorem literals?_intersperse (h : Legible names) {xs : List Literal} (hne : xs ≠ [])
    (hxs : ∀ x ∈ xs, x.proposition < names.size) :
    literals? names ((xs.map fun x => (x.render names).toList).intersperse ['&', '&']) =
      some xs := by
  induction xs with
  | nil => contradiction
  | cons x xs ih =>
    have hx := Literal.read?_render h (hxs x List.mem_cons_self)
    cases xs with
    | nil =>
      show (Literal.read? names (x.render names).toList).map ([·]) = _
      rw [hx]
      rfl
    | cons y xs =>
      rw [List.map_cons, List.map_cons, List.intersperse_cons_cons, literals?, if_pos rfl, hx,
        ← List.map_cons (f := fun x : Literal => (x.render names).toList),
        ih (List.cons_ne_nil y xs) fun z hz => hxs z (List.mem_cons_of_mem x hz)]
      rfl

/-- A guard that does not always hold, by the words that it is written with. -/
theorem guardText_eq (hl : l.isAlways = false) : (l.guardText names).toList =
    [' ', '&', '&', ' '].intercalate (l.literals.map fun x => (x.render names).toList) := by
  rw [Label.guardText, Label.render, hl, if_neg Bool.false_ne_true, String.toList_intercalate,
    List.map_map]
  rfl

/-- A guard has no punctuation but blanks, connectives and exclamation marks. -/
theorem not_mem_guardText (h : Legible names) (hl : l.Below names.size) {c : Char}
    (hc : c ∈ punctuation) (hconnective : c ∉ [' ', '&', '!']) :
    c ∉ (l.guardText names).toList := by
  cases halways : l.isAlways with
  | true =>
    rw [Label.guardText, Label.render, if_pos halways]
    intro hone
    rw [List.mem_singleton.1 hone] at hc
    exact absurd hc (by decide)
  | false =>
    rw [guardText_eq halways]
    refine not_mem_intercalate (fun hmem => hconnective ?_) fun w hw => ?_
    · simp only [List.mem_cons, List.not_mem_nil, or_false] at hmem ⊢
      tauto
    · obtain ⟨x, hx, rfl⟩ := List.mem_map.1 hw
      exact (Literal.render_spec h (Label.literals_lt hl hx)).1 c hc
        fun heq => hconnective (by simp [heq])

/-- The words of a guard are its literals with connectives between them. -/
theorem splitOn_guardText (h : Legible names) (hl : l.Below names.size)
    (halways : l.isAlways = false) : (l.guardText names).toList.splitOn ' ' =
      (l.literals.map fun x => (x.render names).toList).intersperse ['&', '&'] := by
  rw [guardText_eq halways, intercalate_connective, List.splitOn_intercalate]
  · intro w hw
    rcases mem_of_mem_intersperse hw with hw | rfl
    · obtain ⟨x, hx, rfl⟩ := List.mem_map.1 hw
      exact (Literal.render_spec h (Label.literals_lt hl hx)).1 ' ' (by decide) (by decide)
    · decide
  · obtain ⟨x, xs, hxs⟩ := List.exists_cons_of_ne_nil (Label.literals_ne_nil halways)
    rw [hxs]
    cases xs <;> simp

/-- **A guard is read back.** -/
theorem Label.read?_guardText (h : Legible names) (hl : l.Below names.size) :
    Label.read? names (l.guardText names).toList = some l := by
  cases halways : l.isAlways with
  | true =>
    rw [guardText, render, if_pos halways, eq_always halways]
    rfl
  | false =>
    have hne := literals_ne_nil halways
    have hlt (x : Literal) (hx : x ∈ l.literals) := literals_lt hl hx
    have hsplit := splitOn_guardText h hl halways
    rw [read?, if_neg, hsplit, literals?_intersperse h hne hlt]
    · exact ofLiterals?_literals l
    · -- no literal is written like the guard that always holds
      intro heq
      obtain ⟨x, xs, hxs⟩ := List.exists_cons_of_ne_nil hne
      refine (Literal.render_spec h (hlt x (hxs ▸ List.mem_cons_self))).2 ?_
      rw [heq, hxs] at hsplit
      cases xs with
      | nil => exact (List.cons.inj hsplit).1.symm
      | cons y xs => exact (List.cons.inj hsplit).1.symm

end

end OmegaAutomata
