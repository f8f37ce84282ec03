/-
# Questions about word sets

What a word set answers is what holds of the finite set that it denotes.  No number on
the way to an answer is too large, apart from the size of the set of all numbers:
there are at most 2 ^ 26 words of 64 bits.
-/

import OmegaAutomata.Proofs.WordSet.Operations

namespace OmegaAutomata

namespace WordSet

variable {s t : WordSet} {m k : Finset UInt32} {v w : UInt64} {x a b : UInt32}

/-! ### Numbers that fit -/

theorem exists_add? (h : a.toNat + b.toNat < UInt32.size) :
    ∃ c, add? a b = some c ∧ c.toNat = a.toNat + b.toNat := by
  refine ⟨a + b, if_pos h, ?_⟩
  rw [UInt32.toNat_add]
  exact Nat.mod_eq_of_lt h

theorem exists_sub? (h : b.toNat ≤ a.toNat) :
    ∃ c, sub? a b = some c ∧ c.toNat = a.toNat - b.toNat :=
  ⟨a - b, if_pos h, UInt32.toNat_sub_of_le a b h⟩

theorem exists_mul? (h : a.toNat * b.toNat < UInt32.size) :
    ∃ c, mul? a b = some c ∧ c.toNat = a.toNat * b.toNat := by
  refine ⟨a * b, if_pos h, ?_⟩
  rw [UInt32.toNat_mul]
  exact Nat.mod_eq_of_lt h

/-- The number of a bit is computed without an overflow. -/
theorem exists_number (ha : a.toNat < 67108864) (hb : b.toNat < 64) :
    ∃ base x, mul? a 64 = some base ∧ add? base b = some x ∧ x.toNat = 64 * a.toNat + b.toNat := by
  have h64 : (64 : UInt32).toNat = 64 := rfl
  obtain ⟨base, hmul, hbase⟩ := exists_mul? (a := a) (b := 64) <| by
    rw [h64, UInt32.size]
    omega
  rw [h64] at hbase
  obtain ⟨x, hadd, hx⟩ := exists_add? (a := base) (b := b) <| by
    rw [hbase, UInt32.size]
    omega
  exact ⟨base, x, hmul, hadd, by omega⟩

/-! ### Membership and equality -/

theorem and_mask_ne_zero : (w &&& mask x != 0) = bit w (x.toNat % 64) := by
  rw [Bool.eq_iff_iff, bne_iff_ne, ne_eq, eq_zero_iff]
  simp

theorem contains_eq (s : WordSet) (x : UInt32) : s.contains x = has s.words x.toNat := by
  obtain ⟨hposition, hbit⟩ := eq_toNat_iff.1 (rfl : x.toNat = x.toNat)
  rw [contains, has, hposition, List.getD_eq_getElem?_getD]
  cases s.words[position x]? with
  | none => simp
  | some w => exact and_mask_ne_zero

/-- The members are those of the denoted set. -/
theorem Denotes.contains_iff (h : s.Denotes m) : s.contains x = true ↔ x ∈ m := by
  rw [contains_eq, h.has_toNat]

/-- Inclusion of the denoted sets, by bits. -/
theorem Denotes.subset_iff (hs : s.Denotes m) (ht : t.Denotes k) :
    m ⊆ k ↔ ∀ n, has s.words n = true → has t.words n = true := by
  constructor
  · intro h n hn
    obtain ⟨x, hx, rfl⟩ := (hs.has_iff n).1 hn
    exact ht.has_toNat.2 (h hx)
  · exact fun h x hx => ht.has_toNat.1 (h _ (hs.has_toNat.2 hx))

/-- The words tell the denoted set. -/
theorem Denotes.words_eq_iff (hs : s.Denotes m) (ht : t.Denotes k) :
    s.words = t.words ↔ m = k := by
  constructor
  · intro h
    ext x
    rw [← hs.has_toNat, ← ht.has_toNat, h]
  · rintro rfl
    refine eq_of_has hs.getLast?_ne ht.getLast?_ne fun n => ?_
    rw [Bool.eq_iff_iff, hs.has_iff, ht.has_iff]

/-- Word sets are equal when they denote the same set. -/
theorem Denotes.eq_iff (hs : s.Denotes m) (ht : t.Denotes k) : s = t ↔ m = k := by
  rw [← hs.words_eq_iff ht]
  cases s
  cases t
  rw [mk.injEq]

theorem compare_eq (s t : WordSet) : compare s t = compare s.words t.words :=
  rfl

theorem Denotes.isEmpty_iff (h : s.Denotes m) : s.isEmpty = true ↔ m = ∅ := by
  rw [← h.words_eq_iff denotes_empty, isEmpty, List.isEmpty_iff]
  rfl

/-! ### Comparing words in pairs -/

/-- What holds of the bits of all words in pairs holds of all bits. -/
theorem forall_bit_iff {xs ys : List UInt64} {P : Bool → Bool → Prop} (hP : P false false) :
    (∀ i j, P (bit (xs.getD i 0) j) (bit (ys.getD i 0) j)) ↔ ∀ n, P (has xs n) (has ys n) := by
  refine ⟨fun h n => h (n / 64) (n % 64), fun h i j => ?_⟩
  by_cases hj : j < 64
  · rw [← has_add hj, ← has_add hj]
    exact h _
  · have hbit (w : UInt64) : bit w j = false := Bool.eq_false_iff.2 fun hw => hj (lt_of_bit hw)
    rw [hbit, hbit]
    exact hP

/-- A test of all words in pairs, where it is passed beyond the end of the shorter sequence. -/
theorem all_zip_iff {xs ys : List UInt64} {p : UInt64 × UInt64 → Bool}
    (hp : ∀ i, min xs.length ys.length ≤ i → p (xs.getD i 0, ys.getD i 0) = true) :
    (xs.zip ys).all p = true ↔ ∀ i, p (xs.getD i 0, ys.getD i 0) = true := by
  have hzip {i : Nat} (hi : i < (xs.zip ys).length) :
      (xs.zip ys)[i] = (xs.getD i 0, ys.getD i 0) := by
    have hlt : i < xs.length ∧ i < ys.length := by simpa using hi
    rw [List.getElem_zip, List.getD_eq_getElem _ _ hlt.1, List.getD_eq_getElem _ _ hlt.2]
  rw [List.all_eq_true]
  constructor
  · intro h i
    by_cases hi : i < (xs.zip ys).length
    · rw [← hzip hi]
      exact h _ (List.getElem_mem hi)
    · rw [List.length_zip, Nat.not_lt] at hi
      exact hp i hi
  · intro h q hq
    obtain ⟨i, hi, rfl⟩ := List.getElem_of_mem hq
    rw [hzip hi]
    exact h i

theorem Denotes.isSubset_iff (hs : s.Denotes m) (ht : t.Denotes k) :
    s.isSubset t = true ↔ m ⊆ k := by
  rw [hs.subset_iff ht, isSubset, Bool.and_eq_true, decide_eq_true_iff]
  -- no bit of a word in one set is missing in the other
  have hword {v w : UInt64} :
      (v &&& ~~~w == 0) = true ↔ ∀ j, bit v j = true → bit w j = true := by
    rw [beq_iff_eq, eq_zero_iff]
    refine forall_congr' fun j => ?_
    by_cases hj : j < 64
    · simp [bit_not hj]
    · have hbit : bit v j = false := Bool.eq_false_iff.2 fun hv => hj (lt_of_bit hv)
      simp [hbit]
  have hall (hle : s.words.length ≤ t.words.length) :
      ((s.words.zip t.words).all fun p => p.1 &&& ~~~p.2 == 0) = true ↔
        ∀ n, has s.words n = true → has t.words n = true := by
    rw [all_zip_iff fun i hi => by
      rw [List.getD_eq_default s.words _ (by omega)]
      simp]
    rw [← forall_bit_iff (P := fun a b => a = true → b = true) (by simp)]
    exact forall_congr' fun i => hword
  constructor
  · exact fun h => (hall h.1).1 h.2
  · intro h
    have hle := length_le_of_has hs.getLast?_ne h
    exact ⟨hle, (hall hle).2 h⟩

theorem Denotes.isDisjoint_iff (hs : s.Denotes m) (ht : t.Denotes k) :
    s.isDisjoint t = true ↔ Disjoint m k := by
  have hword {v w : UInt64} :
      (v &&& w == 0) = true ↔ ∀ j, ¬(bit v j = true ∧ bit w j = true) := by
    rw [beq_iff_eq, eq_zero_iff]
    refine forall_congr' fun j => ?_
    simp
  have hall : s.isDisjoint t = true ↔ ∀ n, ¬(has s.words n = true ∧ has t.words n = true) := by
    rw [isDisjoint, all_zip_iff fun i hi => by
      rcases min_le_iff.1 hi with hi | hi
      · rw [List.getD_eq_default s.words _ hi]
        simp
      · rw [List.getD_eq_default t.words _ hi]
        simp]
    rw [← forall_bit_iff (P := fun a b => ¬(a = true ∧ b = true)) (by simp)]
    exact forall_congr' fun i => hword
  rw [hall, Finset.disjoint_left]
  constructor
  · exact fun h x hx hk => h _ ⟨hs.has_toNat.2 hx, ht.has_toNat.2 hk⟩
  · rintro h n ⟨hn, hk⟩
    obtain ⟨x, hx, rfl⟩ := (hs.has_iff n).1 hn
    exact h hx (ht.has_toNat.1 hk)

/-! ### The largest member -/

/-- The number of the highest bit of the last word is computed without an overflow. -/
theorem exists_max?_of_getLast? {i : Nat} (hlast : s.words.getLast? = some w)
    (hlength : s.words.length = i + 1) (hi : i < 67108864) (hw : w ≠ 0) :
    ∃ x, s.max? = some (some x) ∧ x.toNat = 64 * i + (63 - (leadingZeros w).toNat) := by
  obtain ⟨hzeros, hlt⟩ := toNat_leadingZeros hw
  rw [← hzeros] at hlt
  have hcount : (UInt32.ofNat (i + 1)).toNat = i + 1 :=
    UInt32.toNat_ofNat_of_lt' (by rw [UInt32.size]; omega)
  obtain ⟨last, hsub, hlast'⟩ := exists_sub? (a := .ofNat (i + 1)) (b := 1) <| by
    rw [hcount]
    exact Nat.le_add_left 1 i
  rw [hcount] at hlast'
  have hlast' : last.toNat = i := hlast'
  obtain ⟨offset, hoffset, hrest⟩ := exists_sub? (a := 63) (b := leadingZeros w)
    (Nat.le_of_lt_succ hlt)
  have hrest : offset.toNat = 63 - (leadingZeros w).toNat := hrest
  obtain ⟨base, x, hmul, hadd, hx⟩ := exists_number (a := last) (b := offset) (by omega) (by omega)
  rw [hlast', hrest] at hx
  refine ⟨x, ?_, hx⟩
  simp only [max?, hlast, hlength, hsub, hmul, hoffset, hadd, Option.bind_eq_bind, Option.bind_some,
    Option.map_eq_map, Option.map_some]

/-- **The largest member** is the highest bit of the last word. -/
theorem Denotes.exists_max? (h : s.Denotes m) : ∃ r, s.max? = some r ∧ (r = none ↔ m = ∅) ∧
    ∀ x, r = some x ↔ x ∈ m ∧ ∀ y ∈ m, y ≤ x := by
  cases hlast : s.words.getLast? with
  | none =>
    have hempty : m = ∅ := by
      rw [← h.isEmpty_iff, isEmpty, List.isEmpty_iff]
      exact List.getLast?_eq_none_iff.1 hlast
    refine ⟨none, by rw [max?, hlast], iff_of_true rfl hempty, fun x => ?_⟩
    simp [hempty]
  | some w =>
    have hw : w ≠ 0 := by
      rintro rfl
      exact h.getLast?_ne hlast
    obtain ⟨i, hi⟩ := Nat.exists_eq_succ_of_ne_zero fun hnil : s.words.length = 0 => by
      rw [List.length_eq_zero_iff.1 hnil] at hlast
      contradiction
    have hget : s.words.getD i 0 = w := by
      rw [List.getLast?_eq_getElem?, hi, Nat.succ_sub_one] at hlast
      rw [List.getD_eq_getElem?_getD, hlast, Option.getD_some]
    have hle := h.length_le
    obtain ⟨x, hx, hnat⟩ := exists_max?_of_getLast? hlast hi (by omega) hw
    obtain ⟨hbit, hhigh⟩ := bit_leadingZeros hw
    have hmem : x ∈ m := by
      rw [← h.has_toNat, hnat, has_add (by omega), hget]
      exact hbit
    have hmax : ∀ y ∈ m, y ≤ x := fun y hy => by
      have hy := h.has_toNat.2 hy
      have hlt := lt_of_has hy
      rw [UInt32.le_iff_toNat_le, hnat]
      by_cases hword : y.toNat / 64 = i
      · rw [has, hword, hget] at hy
        have := hhigh _ hy
        omega
      · omega
    refine ⟨some x, hx, ?_, fun y => ?_⟩
    · refine iff_of_false (Option.some_ne_none x) fun hempty => ?_
      rw [hempty] at hmem
      exact Finset.notMem_empty x hmem
    · rw [Option.some.injEq]
      constructor
      · rintro rfl
        exact ⟨hmem, hmax⟩
      · exact fun hy => UInt32.le_antisymm (hy.2 x hmem) (hmax y hy.1)

end WordSet

end OmegaAutomata
