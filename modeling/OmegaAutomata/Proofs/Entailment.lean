/-
# Implication is entailment

One label implies another if it has all of its literals, which is a matter of four sets of
propositions.  What is meant is that the one holds in no valuation in which the other does not.
Both say the same, since no label requires and forbids one proposition: for each literal that is
missing there is a valuation that separates the labels (`Label.exists_separating`).  It has no
propositions but those of the two labels, so it does not matter which others there are.

Hence labels are ordered by their valuations, and a label is determined by them
(`implies_iff_entails`).  All of this is so for labels and valuations over word sets as well
(`WordLabel.implies_iff_forall_holds`), since these answer the questions of inclusion and
disjointness alike.
-/

import OmegaAutomata.Proofs.Subsumption
import OmegaAutomata.Proofs.WordSet.Refinement

namespace OmegaAutomata

namespace Label

variable {l m : Label} {x : Nat}

/-- Every label is built from its two sets. -/
theorem ofSets_pos_neg (l : Label) : ofSets l.pos l.neg = .ok l :=
  dif_pos l.consistent

/-! ### Separating valuations -/

/-- Where exactly its positive propositions are true, a label holds, and no other positive literal
does. -/
theorem holds_pos_of_mem_pos (hm : x ∈ m.pos) (hl : x ∉ l.pos) : m.holds l.pos = false := by
  rw [Bool.eq_false_iff]
  intro hholds
  exact hl ((holds_iff.1 hholds).1 x hm)

/-- A proposition that a label does not forbid may be true besides its positive ones. -/
theorem holds_insert_pos (hl : x ∉ l.neg) : l.holds (l.pos.insert x) = true := by
  refine holds_iff.2 ⟨fun y hy => IndexSet.mem_insert.2 (.inl hy), fun y hneg hmem => ?_⟩
  rcases IndexSet.mem_insert.1 hmem with hpos | rfl
  · exact IndexSet.isDisjoint_iff.1 l.consistent y hpos hneg
  · exact hl hneg

theorem holds_insert_of_mem_neg {v : IndexSet} (hm : x ∈ m.neg) :
    m.holds (v.insert x) = false := by
  rw [Bool.eq_false_iff]
  intro hholds
  exact (holds_iff.1 hholds).2 x hm (IndexSet.mem_insert.2 (.inr rfl))

/-- **A missing literal is seen** in some valuation over the propositions of the two labels. -/
theorem exists_separating (h : l.implies m = false) :
    ∃ v : IndexSet, (∀ x, x ∈ v → x ∈ l.pos ∨ x ∈ m.neg) ∧
      l.holds v = true ∧ m.holds v = false := by
  rw [Bool.eq_false_iff, ne_eq, implies_iff, not_and_or] at h
  rcases h with hpos | hneg
  · obtain ⟨x, hx⟩ := not_forall.1 hpos
    obtain ⟨hm, hl⟩ := Classical.not_imp.1 hx
    exact ⟨l.pos, fun y hy => .inl hy, l.holds_pos, holds_pos_of_mem_pos hm hl⟩
  · obtain ⟨x, hx⟩ := not_forall.1 hneg
    obtain ⟨hm, hl⟩ := Classical.not_imp.1 hx
    refine ⟨l.pos.insert x, fun y hy => ?_, holds_insert_pos hl, holds_insert_of_mem_neg hm⟩
    rcases IndexSet.mem_insert.1 hy with hy | rfl
    · exact .inl hy
    · exact .inr hm

/-- **Implication is entailment.** -/
theorem implies_iff_forall_holds :
    l.implies m = true ↔ ∀ v, l.holds v = true → m.holds v = true := by
  refine ⟨fun h v => holds_of_implies h, fun h => ?_⟩
  by_contra hnot
  obtain ⟨v, -, hl, hm⟩ := exists_separating (Bool.not_eq_true _ ▸ hnot)
  rw [h v hl] at hm
  contradiction

theorem holds_always (v : IndexSet) : always.holds v = true :=
  holds_iff.2 ⟨fun x hx => absurd hx (IndexSet.not_mem_empty x),
    fun x hx => absurd hx (IndexSet.not_mem_empty x)⟩

/-- A label has no literal if it is implied by the one without any. -/
theorem isAlways_iff_implies : l.isAlways = true ↔ always.implies l = true := by
  rw [isAlways_iff, implies_iff]
  simp [always]

/-! ### Literals -/

theorem pairwise_literals (l : Label) :
    l.literals.Pairwise fun x y => x.proposition < y.proposition :=
  List.pairwise_map.2 (l.pos ∪ l.neg).increasing

theorem mem_literals {p : Nat} {positive : Bool} : ⟨p, positive⟩ ∈ l.literals ↔
    (p ∈ l.pos ∨ p ∈ l.neg) ∧ l.pos.contains p = positive := by
  simp [literals, IndexSet.mem_toList]

/-- A negative literal is a proposition that must not hold, since it is none that must. -/
theorem mem_literals_iff {p : Nat} : (⟨p, true⟩ ∈ l.literals ↔ p ∈ l.pos) ∧
    (⟨p, false⟩ ∈ l.literals ↔ p ∈ l.neg) := by
  rw [mem_literals, mem_literals, ← Bool.not_eq_true, IndexSet.contains_iff]
  refine ⟨⟨And.right, fun hp => ⟨.inl hp, hp⟩⟩, ⟨fun hp => hp.1.resolve_left hp.2, fun hp => ?_⟩⟩
  exact ⟨.inr hp, fun hpos => IndexSet.isDisjoint_iff.1 l.consistent p hpos hp⟩

end Label

/-- **A label implies another exactly if it entails it**: it then holds in no valuation in which the
other does not, and otherwise some valuation over the propositions of the two labels tells them
apart.  So implication is a partial order, the labels without literals are those that always hold,
and labels that hold in the same valuations are equal.  The literals of a label are its positive
and its negative propositions, each once and in increasing order. -/
theorem implies_iff_entails (l m : Label) :
    Label.ofSets l.pos l.neg = .ok l ∧
    (l.implies m = true ↔ ∀ v, l.holds v = true → m.holds v = true) ∧
    (l.implies m = true ∨ ∃ v : IndexSet, (∀ x, x ∈ v → x ∈ l.pos ∨ x ∈ m.neg) ∧
      l.holds v = true ∧ m.holds v = false) ∧
    (l.implies l = true ∧ (l.implies m = true ∧ m.implies l = true ↔ l = m) ∧
      ∀ n, l.implies m = true → m.implies n = true → l.implies n = true) ∧
    (l.isAlways = true ↔ ∀ v, l.holds v = true) ∧
    (l = m ↔ ∀ v, l.holds v = m.holds v) ∧
    (l.literals.Pairwise fun x y => x.proposition < y.proposition) ∧
    ∀ p, (⟨p, true⟩ ∈ l.literals ↔ p ∈ l.pos) ∧ (⟨p, false⟩ ∈ l.literals ↔ p ∈ l.neg) := by
  have hmutual : l.implies m = true ∧ m.implies l = true ↔ l = m := by
    refine ⟨fun h => Label.implies_antisymm h.1 h.2, ?_⟩
    rintro rfl
    exact ⟨l.implies_refl, l.implies_refl⟩
  refine ⟨l.ofSets_pos_neg, Label.implies_iff_forall_holds, ?_,
    ⟨l.implies_refl, hmutual, fun n => Label.implies_trans⟩, ?_, ?_, l.pairwise_literals,
    fun p => Label.mem_literals_iff⟩
  · exact (Bool.eq_false_or_eq_true (l.implies m)).imp_right Label.exists_separating
  · rw [Label.isAlways_iff_implies, Label.implies_iff_forall_holds]
    exact forall_congr' fun v => imp_iff_right (Label.holds_always v)
  · rw [← hmutual, Label.implies_iff_forall_holds, Label.implies_iff_forall_holds,
      ← forall_and]
    exact forall_congr' fun v => iff_iff_implies_and_implies.symm.trans Bool.eq_iff_iff.symm

/-! ### Labels over words -/

/-- A label whose sets are word sets. -/
structure WordLabel where
  pos : Build
  neg : Build
  consistent : pos.wordSet.isDisjoint neg.wordSet = true

namespace WordLabel

variable {l m : WordLabel}

/-- The same label over index sets. -/
def label (l : WordLabel) : Label :=
  ⟨l.pos.indexSet, l.neg.indexSet, (Build.isDisjoint_indexSet l.pos l.neg).trans l.consistent⟩

/-- Whether `l` has every literal of `m`. -/
def implies (l m : WordLabel) : Bool :=
  m.pos.wordSet.isSubset l.pos.wordSet && m.neg.wordSet.isSubset l.neg.wordSet

/-- Whether the label holds when exactly the propositions of `v` are true. -/
def holds (l : WordLabel) (v : Build) : Bool :=
  l.pos.wordSet.isSubset v.wordSet && l.neg.wordSet.isDisjoint v.wordSet

theorem implies_label (l m : WordLabel) : l.label.implies m.label = l.implies m := by
  simp only [Label.implies, label, Build.isSubset_indexSet, implies]

theorem holds_label (l : WordLabel) (v : Build) : l.label.holds v.indexSet = l.holds v := by
  simp only [Label.holds, label, Build.isSubset_indexSet, Build.isDisjoint_indexSet, holds]

/-- An index set of propositions that labels over words mention is built from words. -/
theorem exists_indexSet_eq {v : IndexSet}
    (h : ∀ x, x ∈ v → x ∈ l.label.pos ∨ x ∈ m.label.neg) : ∃ e : Build, e.indexSet = v := by
  have hword (x : Nat) (hx : x ∈ v) : ∃ y : UInt32, y.toNat = x := by
    rcases h x hx with hx | hx
    · obtain ⟨y, -, hy⟩ := l.pos.mem_indexSet_iff.1 hx
      exact ⟨y, hy⟩
    · obtain ⟨y, -, hy⟩ := m.neg.mem_indexSet_iff.1 hx
      exact ⟨y, hy⟩
  refine ⟨.collect (v.toList.map UInt32.ofNat), IndexSet.ext fun x => ?_⟩
  rw [Build.indexSet, IndexSet.mem_ofList, List.map_map, List.mem_map]
  constructor
  · rintro ⟨z, hz, rfl⟩
    obtain ⟨y, rfl⟩ := hword z (IndexSet.mem_toList.1 hz)
    simpa using IndexSet.mem_toList.1 hz
  · intro hx
    obtain ⟨y, rfl⟩ := hword x hx
    exact ⟨y.toNat, IndexSet.mem_toList.2 hx, by simp⟩

/-- **Implication is entailment over words**, too: the valuation that separates two labels has only
propositions of these, so it is a word set. -/
theorem implies_iff_forall_holds :
    l.implies m = true ↔ ∀ v, l.holds v = true → m.holds v = true := by
  simp only [← implies_label, ← holds_label]
  refine ⟨fun h v => Label.holds_of_implies h, fun h => ?_⟩
  by_contra hnot
  obtain ⟨v, hv, hl, hm⟩ := Label.exists_separating (Bool.not_eq_true _ ▸ hnot)
  obtain ⟨e, rfl⟩ := exists_indexSet_eq hv
  rw [h e hl] at hm
  contradiction

/-- **Labels over words that hold in the same valuations** have the same literals. -/
theorem label_eq_iff : l.label = m.label ↔ ∀ v, l.holds v = m.holds v := by
  constructor
  · intro heq v
    rw [← holds_label, ← holds_label, heq]
  · intro h
    refine Label.implies_antisymm ?_ ?_
    · rw [implies_label, implies_iff_forall_holds]
      exact fun v hv => h v ▸ hv
    · rw [implies_label, implies_iff_forall_holds]
      exact fun v hv => (h v).symm ▸ hv

end WordLabel

end OmegaAutomata
