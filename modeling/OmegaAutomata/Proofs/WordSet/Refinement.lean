/-
# Word sets refine finite sets

A set is built by a sequence of operations (`Build`).  The operations can be done on
words, on finite sets and on index sets.  `Build.refines` says that the words answer
every question as the finite set does, and that the index set, which is what the
automata are computed with, is the same set with the same words and the same order.
-/

import OmegaAutomata.IndexSet.Order
import OmegaAutomata.Proofs.WordSet.Iteration

namespace OmegaAutomata

/-- How a set of 32-bit numbers is built. -/
inductive Build where
  | empty
  | singleton (x : UInt32)
  | collect (xs : List UInt32)
  | insert (e : Build) (x : UInt32)
  | remove (e : Build) (x : UInt32)
  | union (e f : Build)
  | inter (e f : Build)

namespace Build

/-- The set as words. -/
def wordSet : Build → WordSet
  | empty => .empty
  | singleton x => .singleton x
  | collect xs => .collect xs
  | insert e x => e.wordSet.insert x
  | remove e x => e.wordSet.remove x
  | union e f => e.wordSet.union f.wordSet
  | inter e f => e.wordSet.inter f.wordSet

/-- The elements of the set. -/
def elements : Build → Finset UInt32
  | empty => ∅
  | singleton x => {x}
  | collect xs => xs.toFinset
  | insert e x => Insert.insert x e.elements
  | remove e x => e.elements.erase x
  | union e f => e.elements ∪ f.elements
  | inter e f => e.elements ∩ f.elements

/-- The set as an index set. -/
def indexSet : Build → IndexSet
  | empty => ∅
  | singleton x => .singleton x.toNat
  | collect xs => .ofList (xs.map UInt32.toNat)
  | insert e x => e.indexSet.insert x.toNat
  | remove e x => e.indexSet.erase x.toNat
  | union e f => e.indexSet ∪ f.indexSet
  | inter e f => e.indexSet ∩ f.indexSet

variable (e f g : Build)

/-- The words stand for the elements. -/
theorem denotes : e.wordSet.Denotes e.elements := by
  induction e with
  | empty => exact WordSet.denotes_empty
  | singleton x => exact WordSet.denotes_empty.insert x
  | collect xs => exact WordSet.denotes_collect xs
  | insert e x ih => exact ih.insert x
  | remove e x ih => exact ih.remove x
  | union e f ihe ihf => exact ihe.union ihf
  | inter e f ihe ihf => exact ihe.inter ihf

/-- The members of the index set are the bits that are set. -/
theorem mem_indexSet {n : Nat} : n ∈ e.indexSet ↔ WordSet.has e.wordSet.words n = true := by
  induction e with
  | empty => simp [indexSet, wordSet, WordSet.empty]
  | singleton x => simp [indexSet, wordSet, WordSet.singleton, WordSet.has_insert, WordSet.empty]
  | collect xs => simp [indexSet, wordSet, (WordSet.denotes_collect xs).has_iff]
  | insert e x ih => rw [indexSet, wordSet, IndexSet.mem_insert, WordSet.has_insert, ih]
  | remove e x ih => rw [indexSet, wordSet, IndexSet.mem_erase, WordSet.has_remove, ih]
  | union e f ihe ihf => rw [indexSet, wordSet, IndexSet.mem_union, WordSet.has_union, ihe, ihf]
  | inter e f ihe ihf => rw [indexSet, wordSet, IndexSet.mem_inter, WordSet.has_inter, ihe, ihf]

/-- The members of the index set are the elements. -/
theorem mem_indexSet_iff {n : Nat} : n ∈ e.indexSet ↔ ∃ x ∈ e.elements, x.toNat = n := by
  rw [mem_indexSet, e.denotes.has_iff]

theorem toNat_mem_indexSet {x : UInt32} : x.toNat ∈ e.indexSet ↔ x ∈ e.elements := by
  rw [mem_indexSet, e.denotes.has_toNat]

/-! ### Questions about index sets -/

theorem contains_indexSet (x : UInt32) :
    e.indexSet.contains x.toNat = e.wordSet.contains x := by
  rw [Bool.eq_iff_iff, IndexSet.contains_iff, toNat_mem_indexSet, e.denotes.contains_iff]

theorem isEmpty_indexSet : e.indexSet.isEmpty = e.wordSet.isEmpty := by
  rw [Bool.eq_iff_iff, IndexSet.isEmpty_iff, e.denotes.isEmpty_iff, Finset.eq_empty_iff_forall_notMem]
  constructor
  · exact fun h x hx => h _ (e.toNat_mem_indexSet.2 hx)
  · intro h n hn
    obtain ⟨x, hx, -⟩ := e.mem_indexSet_iff.1 hn
    exact h x hx

theorem isSubset_indexSet : e.indexSet.isSubset f.indexSet = e.wordSet.isSubset f.wordSet := by
  rw [Bool.eq_iff_iff, IndexSet.isSubset_iff, e.denotes.isSubset_iff f.denotes]
  constructor
  · exact fun h x hx => f.toNat_mem_indexSet.1 (h _ (e.toNat_mem_indexSet.2 hx))
  · intro h n hn
    obtain ⟨x, hx, rfl⟩ := e.mem_indexSet_iff.1 hn
    exact f.toNat_mem_indexSet.2 (h hx)

theorem isDisjoint_indexSet :
    e.indexSet.isDisjoint f.indexSet = e.wordSet.isDisjoint f.wordSet := by
  rw [Bool.eq_iff_iff, IndexSet.isDisjoint_iff, e.denotes.isDisjoint_iff f.denotes,
    Finset.disjoint_left]
  constructor
  · exact fun h x hx hf => h _ (e.toNat_mem_indexSet.2 hx) (f.toNat_mem_indexSet.2 hf)
  · intro h n hn hf
    obtain ⟨x, hx, rfl⟩ := e.mem_indexSet_iff.1 hn
    exact h hx (f.toNat_mem_indexSet.1 hf)

/-- The largest member of the index set is the largest element. -/
theorem max?_indexSet {r : Option UInt32}
    (hr : ∀ x, r = some x ↔ x ∈ e.elements ∧ ∀ y ∈ e.elements, y ≤ x) :
    e.indexSet.max? = r.map UInt32.toNat := by
  refine Option.ext fun n => ?_
  rw [IndexSet.max?_eq_some_iff, mem_indexSet_iff, Option.map_eq_some_iff]
  constructor
  · rintro ⟨⟨x, hx, rfl⟩, hmax⟩
    refine ⟨x, (hr x).2 ⟨hx, fun y hy => ?_⟩, rfl⟩
    exact UInt32.le_iff_toNat_le.2 (hmax _ (e.toNat_mem_indexSet.2 hy))
  · rintro ⟨x, hx, rfl⟩
    obtain ⟨hx, hmax⟩ := (hr x).1 hx
    refine ⟨⟨x, hx, rfl⟩, fun n hn => ?_⟩
    obtain ⟨y, hy, rfl⟩ := e.mem_indexSet_iff.1 hn
    exact UInt32.le_iff_toNat_le.1 (hmax y hy)

/-! ### Words of index sets -/

theorem word_indexSet (i : Nat) : e.indexSet.word i = (e.wordSet.words.getD i 0).toNat := by
  refine Nat.eq_of_testBit_eq fun j => ?_
  change _ = WordSet.bit _ j
  rw [Bool.eq_iff_iff]
  by_cases hj : j < 64
  · rw [IndexSet.testBit_word hj, mem_indexSet, WordSet.has_add hj]
  · rw [IndexSet.testBit_word_of_le (Nat.le_of_not_lt hj)]
    exact iff_of_false Bool.false_ne_true fun h => hj (WordSet.lt_of_bit h)

/-- The words of the index set are those of the word set. -/
theorem words_indexSet : e.indexSet.words = e.wordSet.words.map UInt64.toNat := by
  refine WordSet.eq_of_getD (d := 0) (IndexSet.getLast?_words _) ?_ fun i => ?_
  · rw [List.getLast?_map]
    intro h
    obtain ⟨w, hw, h0⟩ := Option.map_eq_some_iff.1 h
    obtain rfl : w = 0 := UInt64.toNat_inj.1 h0
    exact e.denotes.getLast?_ne hw
  · rw [IndexSet.getD_words, word_indexSet]
    exact (List.getD_map _ _ _).symm

theorem toList_indexSet : e.indexSet.toList = e.wordSet.elements.map UInt32.toNat := by
  rw [e.denotes.toNat_elements]
  refine IndexSet.eq_of_mem_iff e.indexSet.increasing WordSet.pairwise_members fun n => ?_
  rw [IndexSet.mem_toList, mem_indexSet, WordSet.mem_members_zero]

theorem size_indexSet : e.indexSet.size = e.elements.card := by
  rw [IndexSet.size, toList_indexSet, e.denotes.toNat_elements, e.denotes.length_members]

/-- Sequences of words are compared like sequences of numbers. -/
theorem compare_map_toNat (xs ys : List UInt64) :
    compare (xs.map UInt64.toNat) (ys.map UInt64.toNat) = compare xs ys := by
  have hword (x y : UInt64) : compare x.toNat y.toNat = compare x y := by
    simp [compare, compareOfLessAndEq, UInt64.lt_iff_toNat_lt, UInt64.toNat_inj]
  induction xs generalizing ys with
  | nil => cases ys <;> rfl
  | cons x xs ih =>
    cases ys with
    | nil => rfl
    | cons y ys =>
      rw [List.map_cons, List.map_cons, List.compare_cons_cons, List.compare_cons_cons, ih, hword]

theorem compare_indexSet : compare e.indexSet f.indexSet = compare e.wordSet f.wordSet := by
  rw [IndexSet.compare_eq_compare_words, words_indexSet, words_indexSet, compare_map_toNat]
  rfl

/-! ### Refinement -/

/-- **Word sets refine finite sets.**  For sets that are built in any way, the last word is not
zero, the members are the elements of the finite set that is built in the same way, and word sets
are the same when they have the same elements.  Emptiness, inclusion and disjointness are those of
finite sets.  The size and the largest member are computed without an overflow, except for the size
of the set of all numbers.  An iteration yields the elements in strictly increasing order and ends.
The order is total, and equality in it is equality of the elements.

An index set that is built in the same way has the same words, answers every question as the word
set does, lists its members in the order of an iteration, and has the same place in the order. -/
theorem refines :
    e.wordSet.words.getLast? ≠ some 0 ∧
    (∀ x, e.wordSet.contains x = true ↔ x ∈ e.elements) ∧
    ((e.wordSet == f.wordSet) = true ↔ e.elements = f.elements) ∧
    (e.wordSet.isEmpty = true ↔ e.elements = ∅) ∧
    e.wordSet.size? = (if e.elements.card < UInt32.size then some (.ofNat e.elements.card)
      else none) ∧
    (∃ r, e.wordSet.max? = some r ∧ (r = none ↔ e.elements = ∅) ∧
      (∀ x, r = some x ↔ x ∈ e.elements ∧ ∀ y ∈ e.elements, y ≤ x) ∧
      e.indexSet.max? = r.map UInt32.toNat) ∧
    (e.wordSet.isSubset f.wordSet = true ↔ e.elements ⊆ f.elements) ∧
    (e.wordSet.isDisjoint f.wordSet = true ↔ Disjoint e.elements f.elements) ∧
    (∃ xs, WordSet.Yields e.wordSet.iter xs ∧ xs.Pairwise (· < ·) ∧
      (∀ x, x ∈ xs ↔ x ∈ e.elements) ∧ e.indexSet.toList = xs.map UInt32.toNat) ∧
    (compare e.wordSet f.wordSet = .eq ↔ e.elements = f.elements) ∧
    compare f.wordSet e.wordSet = (compare e.wordSet f.wordSet).swap ∧
    ((compare e.wordSet f.wordSet).isLE = true → (compare f.wordSet g.wordSet).isLE = true →
      (compare e.wordSet g.wordSet).isLE = true) ∧
    e.indexSet.words = e.wordSet.words.map UInt64.toNat ∧
    (∀ x : UInt32, e.indexSet.contains x.toNat = e.wordSet.contains x) ∧
    e.indexSet.isEmpty = e.wordSet.isEmpty ∧ e.indexSet.size = e.elements.card ∧
    e.indexSet.isSubset f.indexSet = e.wordSet.isSubset f.wordSet ∧
    e.indexSet.isDisjoint f.indexSet = e.wordSet.isDisjoint f.wordSet ∧
    compare e.indexSet f.indexSet = compare e.wordSet f.wordSet := by
  have he := e.denotes
  have hf := f.denotes
  refine ⟨he.getLast?_ne, fun x => he.contains_iff, ?_, he.isEmpty_iff, he.size?_eq, ?_,
    he.isSubset_iff hf, he.isDisjoint_iff hf, ?_, ?_, ?_, ?_, e.words_indexSet, e.contains_indexSet,
    e.isEmpty_indexSet, e.size_indexSet, isSubset_indexSet e f, isDisjoint_indexSet e f,
    compare_indexSet e f⟩
  · rw [beq_iff_eq, he.eq_iff hf]
  · obtain ⟨r, hr, hnone, hsome⟩ := he.exists_max?
    exact ⟨r, hr, hnone, hsome, e.max?_indexSet hsome⟩
  · exact ⟨_, WordSet.yields_iter he.length_le, he.pairwise_elements, fun x => he.mem_elements,
      e.toList_indexSet⟩
  · rw [WordSet.compare_eq, Std.LawfulEqCmp.compare_eq_iff_eq, he.words_eq_iff hf]
  · exact Std.OrientedCmp.eq_swap (a := f.wordSet.words) (b := e.wordSet.words)
  · exact Std.TransCmp.isLE_trans (a := e.wordSet.words) (b := f.wordSet.words)

end Build

end OmegaAutomata
