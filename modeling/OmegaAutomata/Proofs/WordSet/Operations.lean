/-
# What a sequence of words stands for

`WordSet.Denotes` says that a word set stands for a finite set of 32-bit numbers: bit
`n` of its words is set when `n` is in the set, there are no more words than 32-bit
numbers need, and the last word is not zero.  Each operation turns word sets that
denote into one that denotes the result of the operation on finite sets.

The last word is what the questions rely on.  Because it is not zero, the words are
determined by their bits (`Denotes.eq_iff`), a subset has no more words
(`length_le_of_has`), and the set is empty when there is no word.
-/

import Mathlib.Data.Finset.Card
import Mathlib.Data.List.GetD
import OmegaAutomata.Proofs.WordSet.Bits

namespace OmegaAutomata

namespace WordSet

/-! ### Sequences without a default at the end -/

section

variable {α : Type} {d : α} {xs ys : List α}

/-- The last element of a sequence is its element with the largest number. -/
theorem getLast?_ne_some_iff :
    xs.getLast? ≠ some d ↔ ∀ k, xs.length = k + 1 → xs.getD k d ≠ d := by
  rw [List.getLast?_eq_getElem?]
  constructor
  · intro h k hk hd
    rw [hk, Nat.add_sub_cancel] at h
    have hlt : k < xs.length := by omega
    rw [List.getElem?_eq_getElem hlt] at h
    rw [List.getD_eq_getElem _ _ hlt] at hd
    exact h (congrArg some hd)
  · intro h hd
    obtain ⟨hlt, hget⟩ := List.getElem?_eq_some_iff.1 hd
    refine h (xs.length - 1) (by omega) ?_
    rw [List.getD_eq_getElem _ _ hlt, hget]

theorem length_le_of_getD (hx : xs.getLast? ≠ some d)
    (h : ∀ i, ys.getD i d = d → xs.getD i d = d) : xs.length ≤ ys.length := by
  refine Nat.le_of_not_lt fun hlt => ?_
  obtain ⟨k, hk⟩ := Nat.exists_eq_add_of_lt (Nat.zero_lt_of_lt hlt)
  refine getLast?_ne_some_iff.1 hx k (by omega) (h k ?_)
  exact List.getD_eq_default _ _ (by omega)

/-- Sequences that agree, with defaults beyond their ends, are equal if they do not end with a
default. -/
theorem eq_of_getD (hx : xs.getLast? ≠ some d) (hy : ys.getLast? ≠ some d)
    (h : ∀ i, xs.getD i d = ys.getD i d) : xs = ys := by
  have hlength : xs.length = ys.length := Nat.le_antisymm
    (length_le_of_getD hx fun i hi => (h i).trans hi)
    (length_le_of_getD hy fun i hi => (h i).symm.trans hi)
  refine List.ext_getElem hlength fun i hi hi' => ?_
  have := h i
  rwa [List.getD_eq_getElem _ _ hi, List.getD_eq_getElem _ _ hi'] at this

end

/-! ### The bits of a sequence of words -/

/-- Whether bit `n` of a sequence of words is set. -/
def has (ws : List UInt64) (n : Nat) : Bool :=
  bit (ws.getD (n / 64) 0) (n % 64)

variable {ws vs : List UInt64} {v w : UInt64} {x : UInt32} {n i j : Nat}

theorem has_add (hj : j < 64) : has ws (64 * i + j) = bit (ws.getD i 0) j := by
  rw [has, show (64 * i + j) / 64 = i by omega, show (64 * i + j) % 64 = j by omega]

@[simp] theorem has_nil : has [] n = false := by
  simp [has]

/-- The word of a bit that is set exists. -/
theorem lt_of_has (h : has ws n = true) : n / 64 < ws.length := by
  refine Nat.lt_of_not_le fun hle => ?_
  rw [has, List.getD_eq_default _ _ hle, bit_zero] at h
  contradiction

theorem getD_eq_zero_iff : ws.getD i 0 = 0 ↔ ∀ j < 64, has ws (64 * i + j) = false := by
  rw [eq_zero_iff]
  constructor
  · intro h j hj
    rw [has_add hj, h]
  · intro h j
    by_contra hbit
    have hj := lt_of_bit (Bool.eq_true_of_not_eq_false hbit)
    exact hbit ((has_add hj).symm.trans (h j hj))

/-- A sequence with fewer bits has no more words. -/
theorem length_le_of_has (hw : ws.getLast? ≠ some 0) (h : ∀ n, has ws n = true → has vs n = true) :
    ws.length ≤ vs.length := by
  refine length_le_of_getD hw fun i hi => getD_eq_zero_iff.2 fun j hj => ?_
  rw [← Bool.not_eq_true]
  exact fun hhas => Bool.noConfusion ((h _ hhas).symm.trans (getD_eq_zero_iff.1 hi j hj))

/-- Sequences with the same bits are equal. -/
theorem eq_of_has (hw : ws.getLast? ≠ some 0) (hv : vs.getLast? ≠ some 0)
    (h : ∀ n, has ws n = has vs n) : ws = vs :=
  eq_of_getD hw hv fun i => eq_of_bit fun j hj => by rw [← has_add hj, ← has_add hj, h]

/-! ### What the operations do to words and their bits -/

theorem getD_grow : (grow ws i).getD j 0 = ws.getD j 0 := by
  rw [grow]
  by_cases hj : j < ws.length
  · rw [List.getD_append _ _ _ _ hj]
  · have hle := Nat.le_of_not_lt hj
    rw [List.getD_append_right _ _ _ _ hle, List.getD_eq_default _ _ hle]
    rw [List.getD_eq_getElem?_getD, List.getElem?_replicate]
    split <;> rfl

theorem getD_normalize : (normalize ws).getD i 0 = ws.getD i 0 := by
  induction ws using List.reverseRecOn with
  | nil => rfl
  | append_singleton ws w ih =>
    by_cases hw : w = 0
    · rw [normalize, List.rdropWhile_concat_pos _ _ _ (by simp [hw]), ← normalize, ih, hw]
      exact (getD_grow (i := ws.length + 1)).symm.trans (by simp [grow])
    · rw [normalize, List.rdropWhile_concat_neg _ _ _ (by simp [hw])]

theorem getLast?_normalize : (normalize ws).getLast? ≠ some 0 := by
  intro h
  have hne : normalize ws ≠ [] := fun hnil => by simp [hnil] at h
  have hlast := List.rdropWhile_last_not (· == 0) ws hne
  rw [List.getLast?_eq_some_getLast hne, Option.some.injEq] at h
  exact hlast (beq_iff_eq.2 h)

theorem getD_modify {f : UInt64 → UInt64} (hi : i < ws.length) :
    (ws.modify i f).getD j 0 = if j = i then f (ws.getD j 0) else ws.getD j 0 := by
  rw [List.getD_eq_getElem?_getD, List.getD_eq_getElem?_getD, List.getElem?_modify]
  by_cases hj : j = i
  · subst hj
    simp [hi]
  · simp [hj, Ne.symm hj]

theorem getD_orInto (h : vs.length ≤ ws.length) :
    (orInto ws vs).getD i 0 = ws.getD i 0 ||| vs.getD i 0 := by
  induction ws generalizing vs i with
  | nil =>
    obtain rfl := List.length_eq_zero_iff.1 (Nat.le_zero.1 h)
    simp [orInto]
  | cons w ws ih =>
    cases vs with
    | nil => simp [orInto]
    | cons v vs =>
      cases i with
      | zero => rfl
      | succ i => simpa [orInto] using ih (Nat.le_of_succ_le_succ h)

theorem length_orInto : (orInto ws vs).length = ws.length := by
  induction ws generalizing vs with
  | nil => cases vs <;> rfl
  | cons w ws ih =>
    cases vs with
    | nil => rfl
    | cons v vs => simp [orInto, ih]

theorem getD_zipWith_and :
    (List.zipWith (· &&& ·) ws vs).getD i 0 = ws.getD i 0 &&& vs.getD i 0 := by
  rw [List.getD_eq_getElem?_getD, List.getD_eq_getElem?_getD, List.getD_eq_getElem?_getD,
    List.getElem?_zipWith]
  cases ws[i]? <;> cases vs[i]? <;> simp

/-- The position of a number in a sequence and its bit there tell the number. -/
theorem eq_toNat_iff : n = x.toNat ↔ n / 64 = position x ∧ n % 64 = x.toNat % 64 := by
  rw [position, UInt32.toNat_div]
  change _ ↔ n / 64 = x.toNat / 64 ∧ _
  omega

theorem has_insert (s : WordSet) :
    has (s.insert x).words n = true ↔ has s.words n = true ∨ n = x.toNat := by
  have hlt : position x < (grow s.words (position x + 1)).length := by
    rw [grow, List.length_append, List.length_replicate]
    omega
  rw [has, insert, getD_modify hlt, getD_grow, has, eq_toNat_iff]
  by_cases hn : n / 64 = position x
  · simp [hn]
  · simp [hn]

theorem has_remove (s : WordSet) :
    has (s.remove x).words n = true ↔ has s.words n = true ∧ n ≠ x.toNat := by
  rw [remove, ne_eq, eq_toNat_iff]
  split
  · rename_i hlt
    rw [has, getD_normalize, getD_modify hlt, has]
    by_cases hn : n / 64 = position x
    · simp [hn, bit_not (Nat.mod_lt n (by decide))]
    · simp [hn]
  · rename_i hle
    refine (and_iff_left_of_imp fun h hn => hle ?_).symm
    rw [← hn.1]
    exact lt_of_has h

theorem has_union (s t : WordSet) :
    has (s.union t).words n = true ↔ has s.words n = true ∨ has t.words n = true := by
  rw [union]
  split
  · rename_i hle
    rw [has, getD_orInto hle, bit_or, Bool.or_eq_true]
    rfl
  · rename_i hlt
    rw [has, getD_orInto (Nat.le_of_not_le hlt), bit_or, Bool.or_eq_true]
    exact or_comm

theorem has_inter (s t : WordSet) :
    has (s.inter t).words n = true ↔ has s.words n = true ∧ has t.words n = true := by
  rw [inter, has, getD_normalize, getD_zipWith_and, bit_and, Bool.and_eq_true]
  rfl

/-! ### The last word -/

theorem or_ne_zero (h : v ≠ 0) : v ||| w ≠ 0 := fun hor => h <| eq_zero_iff.2 fun j => by
  have hj := eq_zero_iff.1 hor j
  rw [bit_or, Bool.or_eq_false_iff] at hj
  exact hj.1

theorem mask_ne_zero : mask x ≠ 0 := fun h => by
  have hbit : bit (mask x) (x.toNat % 64) = true := by simp
  rw [h, bit_zero] at hbit
  contradiction

theorem length_insert (s : WordSet) :
    (s.insert x).words.length = max s.words.length (position x + 1) := by
  rw [insert, List.length_modify, grow, List.length_append, List.length_replicate]
  omega

theorem length_union (s t : WordSet) :
    (s.union t).words.length = max s.words.length t.words.length := by
  rw [union]
  split
  · rw [length_orInto]
    omega
  · rw [length_orInto]
    omega

theorem getLast?_insert {s : WordSet} (h : s.words.getLast? ≠ some 0) :
    (s.insert x).words.getLast? ≠ some 0 := by
  refine getLast?_ne_some_iff.2 fun k hk => ?_
  have hlt : position x < (grow s.words (position x + 1)).length := by
    rw [grow, List.length_append, List.length_replicate]
    omega
  rw [length_insert] at hk
  rw [insert, getD_modify hlt, getD_grow]
  split
  · rw [UInt64.or_comm]
    exact or_ne_zero mask_ne_zero
  · exact getLast?_ne_some_iff.1 h k (by omega)

theorem getLast?_orInto (h : vs.length ≤ ws.length) (hw : ws.getLast? ≠ some 0) :
    (orInto ws vs).getLast? ≠ some 0 := by
  refine getLast?_ne_some_iff.2 fun k hk => ?_
  rw [length_orInto] at hk
  rw [getD_orInto h]
  exact or_ne_zero (getLast?_ne_some_iff.1 hw k hk)

/-! ### The denoted set -/

/-- The word set stands for the finite set `m`. -/
structure Denotes (s : WordSet) (m : Finset UInt32) : Prop where
  getLast?_ne : s.words.getLast? ≠ some 0
  length_le : s.words.length ≤ 67108864
  has_iff : ∀ n, has s.words n = true ↔ ∃ x ∈ m, x.toNat = n

variable {s t : WordSet} {m k : Finset UInt32}

theorem Denotes.has_toNat (h : s.Denotes m) : has s.words x.toNat = true ↔ x ∈ m := by
  rw [h.has_iff]
  exact ⟨fun ⟨y, hy, he⟩ => UInt32.toNat_inj.1 he ▸ hy, fun hx => ⟨x, hx, rfl⟩⟩

theorem position_lt : position x < 67108864 := by
  have hx := x.toNat_lt
  rw [position, UInt32.toNat_div]
  change x.toNat / 64 < _
  omega

theorem denotes_empty : empty.Denotes ∅ where
  getLast?_ne := by simp [empty]
  length_le := Nat.zero_le _
  has_iff n := by simp [empty]

theorem Denotes.insert (h : s.Denotes m) (x : UInt32) : (s.insert x).Denotes (Insert.insert x m) where
  getLast?_ne := getLast?_insert h.getLast?_ne
  length_le := by
    rw [length_insert]
    have := h.length_le
    have := position_lt (x := x)
    omega
  has_iff n := by
    rw [has_insert, h.has_iff, Finset.exists_mem_insert, or_comm, eq_comm]

theorem Denotes.remove (h : s.Denotes m) (x : UInt32) : (s.remove x).Denotes (m.erase x) where
  getLast?_ne := by
    rw [WordSet.remove]
    split
    · exact getLast?_normalize
    · exact h.getLast?_ne
  length_le := by
    rw [WordSet.remove]
    split
    · refine Nat.le_trans (List.rdropWhile_prefix _ _).length_le ?_
      rw [List.length_modify]
      exact h.length_le
    · exact h.length_le
  has_iff n := by
    rw [has_remove, h.has_iff]
    constructor
    · rintro ⟨⟨y, hy, rfl⟩, hne⟩
      exact ⟨y, Finset.mem_erase.2 ⟨fun he => hne (he ▸ rfl), hy⟩, rfl⟩
    · rintro ⟨y, hy, rfl⟩
      obtain ⟨hne, hy⟩ := Finset.mem_erase.1 hy
      exact ⟨⟨y, hy, rfl⟩, fun he => hne (UInt32.toNat_inj.1 he)⟩

theorem Denotes.union (hs : s.Denotes m) (ht : t.Denotes k) : (s.union t).Denotes (m ∪ k) where
  getLast?_ne := by
    rw [WordSet.union]
    split
    · exact getLast?_orInto ‹_› hs.getLast?_ne
    · exact getLast?_orInto (by omega) ht.getLast?_ne
  length_le := by
    rw [length_union]
    exact max_le hs.length_le ht.length_le
  has_iff n := by
    rw [has_union, hs.has_iff, ht.has_iff]
    simp only [Finset.mem_union, or_and_right, exists_or]

theorem Denotes.inter (hs : s.Denotes m) (ht : t.Denotes k) : (s.inter t).Denotes (m ∩ k) where
  getLast?_ne := getLast?_normalize
  length_le := by
    refine Nat.le_trans (List.rdropWhile_prefix _ _).length_le ?_
    rw [List.length_zipWith]
    exact Nat.le_trans (Nat.min_le_left _ _) hs.length_le
  has_iff n := by
    rw [has_inter, hs.has_iff, ht.has_iff]
    constructor
    · rintro ⟨⟨y, hy, rfl⟩, z, hz, he⟩
      exact ⟨y, Finset.mem_inter.2 ⟨hy, UInt32.toNat_inj.1 he ▸ hz⟩, rfl⟩
    · rintro ⟨y, hy, rfl⟩
      obtain ⟨hm, hk⟩ := Finset.mem_inter.1 hy
      exact ⟨⟨y, hm, rfl⟩, y, hk, rfl⟩

theorem denotes_collect (xs : List UInt32) : (collect xs).Denotes xs.toFinset := by
  have hfold (xs : List UInt32) {s : WordSet} {m : Finset UInt32} (h : s.Denotes m) :
      (xs.foldl WordSet.insert s).Denotes (xs.toFinset ∪ m) := by
    induction xs generalizing s m with
    | nil => simpa using h
    | cons x xs ih =>
      rw [List.toFinset_cons, Finset.insert_union, ← Finset.union_insert]
      exact ih (h.insert x)
  have h := hfold xs denotes_empty
  rwa [Finset.union_empty] at h

end WordSet

end OmegaAutomata
