/-
# Walking through a word set

`members` lists the members of a word set word by word, from the lowest bit of each
word to the highest.  Its length is what `size?` computes, and an iteration yields just
this list (`yields_iter`): clearing the lowest bit of the current word takes one number
off the list, and a word that has become zero is left for the next one, over all words
that are zero themselves.
-/

import OmegaAutomata.Proofs.WordSet.Questions

namespace OmegaAutomata

namespace WordSet

/-- The numbers of the bits of a sequence of words, of which the first one has number `i`. -/
def members : Nat → List UInt64 → List Nat
  | _, [] => []
  | i, w :: ws => (bits w).map (64 * i + ·) ++ members (i + 1) ws

variable {s : WordSet} {m : Finset UInt32} {ws : List UInt64} {w : UInt64} {i n : Nat}

theorem mem_members :
    n ∈ members i ws ↔ i ≤ n / 64 ∧ bit (ws.getD (n / 64 - i) 0) (n % 64) = true := by
  induction ws generalizing i with
  | nil => simp [members]
  | cons w ws ih =>
    have hword : n ∈ (bits w).map (64 * i + ·) ↔ n / 64 = i ∧ bit w (n % 64) = true := by
      rw [List.mem_map]
      constructor
      · rintro ⟨j, hj, rfl⟩
        have hj := mem_bits.1 hj
        have hlt := lt_of_bit hj
        rw [show (64 * i + j) / 64 = i by omega, show (64 * i + j) % 64 = j by omega]
        exact ⟨rfl, hj⟩
      · rintro ⟨rfl, hbit⟩
        exact ⟨n % 64, mem_bits.2 hbit, Nat.div_add_mod n 64⟩
    rw [members, List.mem_append, hword, ih]
    obtain hlt | rfl | hgt := Nat.lt_trichotomy (n / 64) i
    · refine iff_of_false ?_ (fun h => Nat.not_le_of_lt hlt h.1)
      rintro (h | h) <;> omega
    · simp
    · obtain ⟨k, hk⟩ := Nat.exists_eq_add_of_lt hgt
      rw [show n / 64 - i = (n / 64 - (i + 1)) + 1 by omega, List.getD_cons_succ]
      constructor
      · rintro (h | h)
        · omega
        · exact ⟨by omega, h.2⟩
      · exact fun h => .inr ⟨hgt, h.2⟩

theorem pairwise_members : (members i ws).Pairwise (· < ·) := by
  induction ws generalizing i with
  | nil => exact .nil
  | cons w ws ih =>
    refine List.pairwise_append.2 ⟨?_, ih, fun a ha b hb => ?_⟩
    · refine List.pairwise_map.2 (pairwise_bits.imp fun h => ?_)
      omega
    · obtain ⟨j, hj, rfl⟩ := List.mem_map.1 ha
      have hj := lt_of_bit (mem_bits.1 hj)
      have hb := (mem_members.1 hb).1
      omega

theorem mem_members_zero : n ∈ members 0 ws ↔ has ws n = true := by
  rw [mem_members, has, Nat.sub_zero, and_iff_right (Nat.zero_le _)]

/-! ### The elements of the denoted set -/

/-- The members as 32-bit numbers. -/
def elements (s : WordSet) : List UInt32 :=
  (members 0 s.words).map .ofNat

theorem Denotes.toNat_elements (h : s.Denotes m) :
    s.elements.map UInt32.toNat = members 0 s.words := by
  rw [elements, List.map_map]
  refine (List.map_congr_left fun n hn => ?_).trans (List.map_id _)
  have hlt := lt_of_has (mem_members_zero.1 hn)
  have hle := h.length_le
  exact UInt32.toNat_ofNat_of_lt' (by rw [UInt32.size]; omega)

theorem Denotes.mem_elements (h : s.Denotes m) {x : UInt32} : x ∈ s.elements ↔ x ∈ m := by
  have hinj : Function.Injective UInt32.toNat := fun _ _ => UInt32.toNat_inj.1
  rw [← List.mem_map_of_injective hinj, h.toNat_elements, mem_members_zero, h.has_toNat]

theorem Denotes.pairwise_elements (h : s.Denotes m) : s.elements.Pairwise (· < ·) := by
  have hmembers : (members 0 s.words).Pairwise (· < ·) := pairwise_members
  rw [← h.toNat_elements, List.pairwise_map] at hmembers
  exact hmembers.imp UInt32.lt_iff_toNat_lt.2

theorem Denotes.length_members (h : s.Denotes m) : (members 0 s.words).length = m.card := by
  have hnodup : s.elements.Nodup := h.pairwise_elements.imp fun hlt => (UInt32.ne_of_lt hlt)
  have hm : s.elements.toFinset = m := by
    ext x
    rw [List.mem_toFinset, h.mem_elements]
  rw [← hm, List.toFinset_card_of_nodup hnodup, ← h.toNat_elements, List.length_map]

/-! ### Counting -/

theorem foldlM_bitCount (n : UInt32) :
    ws.foldlM (fun n w => add? n (bitCount w)) n =
      if n.toNat + (members i ws).length < UInt32.size then
        some (.ofNat (n.toNat + (members i ws).length)) else none := by
  induction ws generalizing n i with
  | nil => simp [members, n.toNat_lt_size]
  | cons w ws ih =>
    have hlength : (members i (w :: ws)).length =
        (bitCount w).toNat + (members (i + 1) ws).length := by
      rw [members, List.length_append, List.length_map, toNat_bitCount]
    rw [List.foldlM_cons, hlength, ← Nat.add_assoc]
    by_cases hlt : n.toNat + (bitCount w).toNat < UInt32.size
    · obtain ⟨c, hc, hsum⟩ := exists_add? hlt
      rw [hc, ← hsum]
      exact ih c
    · rw [add?, if_neg hlt, if_neg (by omega)]
      rfl

/-- **The size** is computed without an overflow, unless all numbers are members. -/
theorem Denotes.size?_eq (h : s.Denotes m) :
    s.size? = if m.card < UInt32.size then some (.ofNat m.card) else none := by
  rw [size?, foldlM_bitCount (i := 0), h.length_members]
  simp

/-! ### Iterating -/

/-- The iteration yields the numbers of the list one by one and ends. -/
inductive Yields : Cursor → List UInt32 → Prop
  | ended {c c'} : c.next = some (none, c') → Yields c []
  | next {c c' x xs} : c.next = some (some x, c') → Yields c' xs → Yields c (x :: xs)

theorem Yields.congr {c c' : Cursor} {xs : List UInt32} (h : Yields c xs) (hnext : c'.next = c.next) :
    Yields c' xs := by
  cases h with
  | ended he => exact .ended (hnext.trans he)
  | next he hxs => exact .next (hnext.trans he) hxs

/-- A bit of the current word is next. -/
theorem next_of_ne_zero (hi : i < 67108864) (hw : w ≠ 0) :
    Cursor.next ⟨ws, i, w⟩ =
      some (some (.ofNat (64 * i + (trailingZeros w).toNat)), ⟨ws, i, w &&& (w - 1)⟩) := by
  obtain ⟨hzeros, hlt⟩ := toNat_trailingZeros hw
  rw [← hzeros] at hlt
  have hindex : (UInt32.ofNat i).toNat = i :=
    UInt32.toNat_ofNat_of_lt' (by rw [UInt32.size]; omega)
  obtain ⟨base, x, hmul, hadd, hx⟩ := exists_number (a := .ofNat i) (hindex.symm ▸ hi) hlt
  rw [hindex] at hx
  rw [Cursor.next, if_neg hw, ← hx, UInt32.ofNat_toNat]
  simp only [hmul, hadd, Option.bind_eq_bind, Option.bind_some, Option.pure_def]

theorem next_of_lt (h : i + 1 < ws.length) :
    Cursor.next ⟨ws, i, 0⟩ = Cursor.next ⟨ws, i + 1, ws[i + 1]⟩ := by
  rw [Cursor.next, if_pos rfl, dif_pos h]

theorem next_of_le (h : ws.length ≤ i + 1) :
    Cursor.next ⟨ws, i, 0⟩ = some (none, ⟨ws, i + 1, 0⟩) := by
  rw [Cursor.next, if_pos rfl, dif_neg (Nat.not_lt_of_le h)]

/-- The bits of the current word come before all others. -/
theorem Yields.current {xs : List UInt32} (hi : i < 67108864) (h : Yields ⟨ws, i, 0⟩ xs) :
    Yields ⟨ws, i, w⟩ (((bits w).map (64 * i + ·)).map .ofNat ++ xs) := by
  induction hbits : bits w generalizing w with
  | nil =>
    have hw : w = 0 := by
      by_contra hw
      rw [bits_eq_cons hw] at hbits
      contradiction
    rw [hw]
    exact h
  | cons j js ih =>
    have hw : w ≠ 0 := by
      rintro rfl
      have hj : j ∈ bits 0 := hbits ▸ List.mem_cons_self
      rw [mem_bits, bit_zero] at hj
      contradiction
    rw [bits_eq_cons hw] at hbits
    obtain ⟨rfl, hjs⟩ := List.cons.inj hbits
    exact .next (next_of_ne_zero hi hw) (ih hjs)

/-- After a word come those with larger numbers. -/
theorem yields_rest (hle : ws.length ≤ 67108864) (i : Nat) :
    Yields ⟨ws, i, 0⟩ ((members (i + 1) (ws.drop (i + 1))).map .ofNat) := by
  induction hk : ws.length - (i + 1) generalizing i with
  | zero =>
    have hend : ws.length ≤ i + 1 := by omega
    rw [List.drop_eq_nil_of_le hend]
    exact .ended (next_of_le hend)
  | succ k ih =>
    have hlt : i + 1 < ws.length := by omega
    rw [List.drop_eq_getElem_cons hlt, members, List.map_append]
    exact (Yields.current (by omega) (ih (i + 1) (by omega))).congr (next_of_lt hlt)

/-- **An iteration** yields the members and ends. -/
theorem yields_iter (hle : s.words.length ≤ 67108864) : Yields s.iter s.elements := by
  rw [iter, elements]
  have hrest := yields_rest hle 0
  cases hwords : s.words with
  | nil =>
    rw [hwords] at hrest
    exact hrest
  | cons w ws =>
    rw [hwords] at hrest
    rw [members, List.map_append]
    exact Yields.current (by decide) hrest

end WordSet

end OmegaAutomata
