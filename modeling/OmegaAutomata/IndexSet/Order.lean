/-
# The order of index sets

Sets are ordered by their 64-bit words, the least significant word first: bit `j` of
word `i` says whether `64 * i + j` is a member.  Only one word of each set matters,
the one with the smallest number that is in just one of them (`firstDifference`), so
the words are never written out.  `compare_eq_compare_words` says that the outcome is
that of the lexicographic order on the sequences of words.
-/

import OmegaAutomata.IndexSet.Lemmas

namespace OmegaAutomata

namespace IndexSet

/-- Word `i` of a set, the members from `64 * i` to `64 * i + 63` as a number. -/
def word (s : IndexSet) (i : Nat) : Nat :=
  (s.toList.filter (· / 64 = i)).foldr (fun x w => w ||| 1 <<< (x % 64)) 0

/-- The words of a set up to the one with the largest member. -/
def words (s : IndexSet) : List Nat :=
  match s.max? with
  | none => []
  | some m => (List.range (m / 64 + 1)).map s.word

/-- The smallest number that is in just one of two increasing lists. -/
def firstDifference : List Nat → List Nat → Option Nat
  | [], ys => ys.head?
  | x :: _, [] => some x
  | x :: xs, y :: ys => if x = y then firstDifference xs ys else some (min x y)

/-- The least significant word that differs decides. -/
instance : Ord IndexSet where
  compare s t :=
    match firstDifference s.toList t.toList with
    | none => .eq
    | some d => compare (s.word (d / 64)) (t.word (d / 64))

/-! ### Words -/

theorem testBit_foldr {xs : List Nat} {j : Nat} :
    (xs.foldr (fun x w => w ||| 1 <<< (x % 64)) 0).testBit j = true ↔ ∃ x ∈ xs, x % 64 = j := by
  induction xs with
  | nil => simp
  | cons x xs ih =>
    rw [List.foldr_cons, Nat.testBit_or, Bool.or_eq_true, ih, Nat.one_shiftLeft,
      Nat.testBit_two_pow, decide_eq_true_iff]
    simp only [List.mem_cons, exists_eq_or_imp]
    exact or_comm

/-- Bit `j` of word `i` says whether `64 * i + j` is a member. -/
theorem testBit_word {s : IndexSet} {i j : Nat} (hj : j < 64) :
    (s.word i).testBit j = true ↔ 64 * i + j ∈ s := by
  rw [word, testBit_foldr]
  constructor
  · rintro ⟨x, hx, hxj⟩
    obtain ⟨hx, hxi⟩ := List.mem_filter.1 hx
    have hxi : x / 64 = i := of_decide_eq_true hxi
    rw [show 64 * i + j = x by omega]
    exact hx
  · intro hx
    refine ⟨64 * i + j, List.mem_filter.2 ⟨hx, decide_eq_true ?_⟩, ?_⟩ <;> omega

theorem testBit_word_of_le {s : IndexSet} {i j : Nat} (hj : 64 ≤ j) :
    (s.word i).testBit j = false := by
  rw [← Bool.not_eq_true, word, testBit_foldr]
  rintro ⟨x, _, hx⟩
  omega

theorem word_eq_zero {s : IndexSet} {i : Nat} (h : ∀ x, x ∈ s → x / 64 ≠ i) : s.word i = 0 := by
  rw [word, List.filter_eq_nil_iff.2 fun x hx he => h x hx (of_decide_eq_true he)]
  rfl

/-- Beyond the words of a set, there are only zeros. -/
theorem getD_words (s : IndexSet) (i : Nat) : s.words.getD i 0 = s.word i := by
  unfold words
  split
  · rename_i h
    have hnil : s.toList = [] := List.getLast?_eq_none_iff.1 h
    refine (word_eq_zero fun x hx => ?_).symm
    exact absurd (hnil ▸ hx : x ∈ ([] : List Nat)) List.not_mem_nil
  · rename_i m h
    rw [List.getD_eq_getElem?_getD, List.getElem?_map]
    by_cases hi : i < m / 64 + 1
    · rw [List.getElem?_range hi]
      rfl
    · rw [List.getElem?_eq_none (by rw [List.length_range]; omega)]
      refine (word_eq_zero fun x hx => ?_).symm
      have := (max?_eq_some_iff.1 h).2 x hx
      omega

/-- The last word of an index set has the bit of its largest member. -/
theorem getLast?_words (s : IndexSet) : s.words.getLast? ≠ some 0 := by
  unfold words
  split
  · simp
  · rename_i m hm
    rw [List.range_succ, List.map_append, List.map_singleton, List.getLast?_concat]
    intro h
    have hbit : (s.word (m / 64)).testBit (m % 64) = true := by
      rw [testBit_word (Nat.mod_lt m (by decide)), Nat.div_add_mod]
      exact (max?_eq_some_iff.1 hm).1
    rw [Option.some.inj h, Nat.zero_testBit] at hbit
    contradiction

/-! ### The first difference -/

theorem firstDifference_eq_none {xs ys : List Nat} (h : firstDifference xs ys = none) :
    xs = ys := by
  induction xs generalizing ys with
  | nil => exact (List.head?_eq_none_iff.1 h).symm
  | cons x xs ih =>
    cases ys with
    | nil => exact absurd h (Option.some_ne_none x)
    | cons y ys =>
      unfold firstDifference at h
      split at h
      · rename_i hxy
        rw [hxy, ih h]
      · exact absurd h (Option.some_ne_none _)

/-- The first difference is in just one of the lists, and smaller numbers are in both or in none. -/
theorem firstDifference_eq_some {xs ys : List Nat} {d : Nat} (hxs : xs.Pairwise (· < ·))
    (hys : ys.Pairwise (· < ·)) (h : firstDifference xs ys = some d) :
    ¬(d ∈ xs ↔ d ∈ ys) ∧ ∀ z, z < d → (z ∈ xs ↔ z ∈ ys) := by
  induction xs generalizing ys with
  | nil =>
    obtain ⟨ys, rfl⟩ := List.head?_eq_some_iff.1 h
    have hy := (List.pairwise_cons.1 hys).1
    refine ⟨fun he => List.not_mem_nil (he.2 List.mem_cons_self), fun z hz => ?_⟩
    refine iff_of_false List.not_mem_nil fun hzy => ?_
    obtain rfl | hzy := List.mem_cons.1 hzy
    · exact Nat.lt_irrefl z hz
    · exact Nat.lt_asymm hz (hy z hzy)
  | cons x xs ih =>
    have hx := (List.pairwise_cons.1 hxs).1
    cases ys with
    | nil =>
      obtain rfl : x = d := Option.some.inj h
      refine ⟨fun he => List.not_mem_nil (he.1 List.mem_cons_self), fun z hz => ?_⟩
      refine iff_of_false (fun hzx => ?_) List.not_mem_nil
      obtain rfl | hzx := List.mem_cons.1 hzx
      · exact Nat.lt_irrefl z hz
      · exact Nat.lt_asymm hz (hx z hzx)
    | cons y ys =>
      have hy := (List.pairwise_cons.1 hys).1
      unfold firstDifference at h
      split at h
      · rename_i hxy
        subst hxy
        obtain ⟨hd, hz⟩ := ih hxs.of_cons hys.of_cons h
        refine ⟨fun he => hd ?_, fun z hlt => ?_⟩
        · have hne : d ≠ x := fun hdx => hd (iff_of_false (fun hm => Nat.lt_irrefl d (hdx ▸ hx d hm))
            fun hm => Nat.lt_irrefl d (hdx ▸ hy d hm))
          rwa [List.mem_cons, List.mem_cons, or_iff_right hne, or_iff_right hne] at he
        · rw [List.mem_cons, List.mem_cons, hz z hlt]
      · rename_i hxy
        obtain rfl : min x y = d := Option.some.inj h
        have hxs' {z : Nat} (hz : z ∈ x :: xs) : x ≤ z :=
          (List.mem_cons.1 hz).elim (fun e => Nat.le_of_eq e.symm) fun hz => Nat.le_of_lt (hx z hz)
        have hys' {z : Nat} (hz : z ∈ y :: ys) : y ≤ z :=
          (List.mem_cons.1 hz).elim (fun e => Nat.le_of_eq e.symm) fun hz => Nat.le_of_lt (hy z hz)
        refine ⟨fun he => ?_, fun z hz => iff_of_false (fun hm => ?_) fun hm => ?_⟩
        · obtain hlt | hgt := Nat.lt_or_gt_of_ne hxy
          · rw [Nat.min_eq_left (Nat.le_of_lt hlt)] at he
            exact Nat.not_le_of_gt hlt (hys' (he.1 List.mem_cons_self))
          · rw [Nat.min_eq_right (Nat.le_of_lt hgt)] at he
            exact Nat.not_le_of_gt hgt (hxs' (he.2 List.mem_cons_self))
        · have := hxs' hm
          omega
        · have := hys' hm
          omega

/-- Sequences that agree before position `i`, with zeros beyond their ends, compare like their
entries at `i` if these differ. -/
theorem compare_eq_compare_getD {xs ys : List Nat} {i : Nat}
    (hlt : ∀ j, j < i → xs.getD j 0 = ys.getD j 0) (hne : xs.getD i 0 ≠ ys.getD i 0) :
    compare xs ys = compare (xs.getD i 0) (ys.getD i 0) := by
  induction i generalizing xs ys with
  | zero =>
    match xs, ys with
    | [], [] => exact absurd rfl hne
    | [], y :: ys =>
      have h : (0 : Nat) < y := Nat.pos_of_ne_zero fun h => hne h.symm
      exact (Nat.compare_eq_lt.2 h).symm
    | x :: xs, [] =>
      have h : 0 < x := Nat.pos_of_ne_zero hne
      exact (Nat.compare_eq_gt.2 h).symm
    | x :: xs, y :: ys =>
      have hxy : compare x y ≠ .eq := fun h => hne (Nat.compare_eq_eq.1 h)
      rw [List.compare_cons_cons]
      show (compare x y).then (compare xs ys) = compare x y
      match h : compare x y with
      | .lt => rfl
      | .gt => rfl
      | .eq => exact absurd h hxy
  | succ i ih =>
    match xs, ys with
    | [], [] => exact absurd rfl hne
    | [], y :: ys =>
      have h : 0 < ys.getD i 0 := Nat.pos_of_ne_zero fun h => hne h.symm
      exact (Nat.compare_eq_lt.2 h).symm
    | x :: xs, [] =>
      have h : 0 < xs.getD i 0 := Nat.pos_of_ne_zero hne
      exact (Nat.compare_eq_gt.2 h).symm
    | x :: xs, y :: ys =>
      obtain rfl : x = y := hlt 0 (Nat.succ_pos i)
      have := ih (fun j hj => hlt (j + 1) (Nat.succ_lt_succ hj)) hne
      rw [List.compare_cons_cons, Nat.compare_eq_eq.2 rfl]
      exact this

/-- The order is the lexicographic one on the sequences of words. -/
theorem compare_eq_compare_words (s t : IndexSet) : compare s t = compare s.words t.words := by
  show (match firstDifference s.toList t.toList with
    | none => Ordering.eq
    | some d => compare (s.word (d / 64)) (t.word (d / 64))) = _
  split
  · rename_i h
    obtain rfl : s = t := ext fun x => by
      rw [← mem_toList, firstDifference_eq_none h, mem_toList]
    exact Std.ReflCmp.compare_self.symm
  · rename_i d h
    obtain ⟨hd, hlt⟩ := firstDifference_eq_some s.increasing t.increasing h
    have hbit {i j : Nat} (hj : j < 64) (he : s.word i = t.word i) :
        64 * i + j ∈ s ↔ 64 * i + j ∈ t := by
      rw [← testBit_word hj, ← testBit_word hj, he]
    rw [compare_eq_compare_getD (i := d / 64) (fun j hj => ?_) fun he => hd ?_, getD_words,
      getD_words]
    · rw [getD_words, getD_words]
      refine Nat.eq_of_testBit_eq fun k => ?_
      by_cases hk : k < 64
      · rw [Bool.eq_iff_iff, testBit_word hk, testBit_word hk]
        exact hlt _ (by omega)
      · rw [testBit_word_of_le (Nat.le_of_not_lt hk), testBit_word_of_le (Nat.le_of_not_lt hk)]
    · rw [getD_words, getD_words] at he
      have := hbit (j := d % 64) (Nat.mod_lt d (by decide)) he
      rwa [Nat.div_add_mod] at this

end IndexSet

end OmegaAutomata
