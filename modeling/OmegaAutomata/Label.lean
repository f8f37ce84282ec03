/-
# Labels

A label is a conjunction of literals: the propositions of `pos` must be true and
those of `neg` must be false.  The two sets have no proposition in common, so a
label always holds in some valuation, and one label implies another exactly when
it has all of the other's literals.
-/

import OmegaAutomata.Fault
import OmegaAutomata.IndexSet.Lemmas

namespace OmegaAutomata

/-- A conjunction of literals: `pos` must hold, `neg` must not. -/
structure Label where
  pos : IndexSet
  neg : IndexSet
  consistent : pos.isDisjoint neg = true
deriving DecidableEq

/-- A proposition that must be true, or one that must be false. -/
structure Literal where
  proposition : Nat
  positive : Bool
deriving DecidableEq, Repr

namespace Label

/-- The label of the given literals; no proposition may be in both sets. -/
def ofSets (pos neg : IndexSet) : Except Fault Label :=
  if h : pos.isDisjoint neg = true then .ok ⟨pos, neg, h⟩ else .error .overlappingLabel

/-- The label without literals. -/
def always : Label :=
  ⟨∅, ∅, rfl⟩

instance : Inhabited Label where
  default := always

/-- Whether the label has no literal. -/
def isAlways (l : Label) : Bool :=
  l.pos.isEmpty && l.neg.isEmpty

/-- Whether `l` has every literal of `m`, that is, is at least as restrictive. -/
def implies (l m : Label) : Bool :=
  m.pos.isSubset l.pos && m.neg.isSubset l.neg

/-- Whether the label holds when exactly the propositions of `v` are true. -/
def holds (l : Label) (v : IndexSet) : Bool :=
  l.pos.isSubset v && l.neg.isDisjoint v

theorem isAlways_iff {l : Label} : l.isAlways = true ↔ (∀ x, x ∉ l.pos) ∧ ∀ x, x ∉ l.neg := by
  rw [isAlways, Bool.and_eq_true, IndexSet.isEmpty_iff, IndexSet.isEmpty_iff]

theorem implies_iff {l m : Label} :
    l.implies m = true ↔ (∀ x, x ∈ m.pos → x ∈ l.pos) ∧ ∀ x, x ∈ m.neg → x ∈ l.neg := by
  rw [implies, Bool.and_eq_true, IndexSet.isSubset_iff, IndexSet.isSubset_iff]

theorem holds_iff {l : Label} {v : IndexSet} :
    l.holds v = true ↔ (∀ x, x ∈ l.pos → x ∈ v) ∧ ∀ x, x ∈ l.neg → x ∉ v := by
  rw [holds, Bool.and_eq_true, IndexSet.isSubset_iff, IndexSet.isDisjoint_iff]

/-- Where exactly its positive propositions are true, a label holds. -/
theorem holds_pos (l : Label) : l.holds l.pos = true :=
  holds_iff.2 ⟨fun _ => id, fun x hn hp => IndexSet.isDisjoint_iff.1 l.consistent x hp hn⟩

/-- The literals by increasing proposition. -/
def literals (l : Label) : List Literal :=
  (l.pos ∪ l.neg).toList.map fun x => ⟨x, l.pos.contains x⟩

end Label

/-- The name of proposition `i`: its entry in the table, or `p` and the number beyond it. -/
def propositionName (names : Array String) (i : Nat) : String :=
  names[i]?.getD ("p" ++ toString i)

/-- A negative literal is its proposition after an exclamation mark. -/
def Literal.render (names : Array String) (l : Literal) : String :=
  if l.positive then propositionName names l.proposition
  else "!" ++ propositionName names l.proposition

namespace Label

/-- The literals with `separator` between them; `1` when there are none. -/
def render (separator : String) (names : Array String) (l : Label) : String :=
  if l.isAlways then "1"
  else separator.intercalate (l.literals.map (Literal.render names))

/-- The text of a label in listings. -/
def listing (names : Array String) (l : Label) : String :=
  l.render " & " names

/-- The text of a label in guards and on the edges of graphs. -/
def guardText (names : Array String) (l : Label) : String :=
  l.render " && " names

end Label

end OmegaAutomata
