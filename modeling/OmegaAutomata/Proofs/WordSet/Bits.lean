/-
# The bits of a word

What the operations on a 64-bit word do to its bits.  `bits` lists the bits that are
set in increasing order, and everything that is counted or walked through is read off
this list: its length is the number of bits, and clearing the lowest bit takes its
first element away (`bits_eq_cons`).
-/

import OmegaAutomata.IndexSet.Lemmas
import OmegaAutomata.WordSet

namespace OmegaAutomata

namespace WordSet

/-- Whether bit `j` of a word is set. -/
def bit (w : UInt64) (j : Nat) : Bool :=
  w.toBitVec.getLsbD j

/-- The bits of a word that are set, in increasing order. -/
def bits (w : UInt64) : List Nat :=
  (List.range 64).filter (bit w)

variable {v w : UInt64} {x : UInt32} {i j : Nat}

theorem lt_of_bit (h : bit w j = true) : j < 64 :=
  BitVec.lt_of_getLsbD h

@[simp] theorem bit_zero : bit 0 j = false := by
  simp [bit]

/-- Words with the same bits are equal. -/
theorem eq_of_bit (h : ∀ j < 64, bit v j = bit w j) : v = w :=
  UInt64.toBitVec_inj.1 (BitVec.eq_of_getLsbD_eq h)

theorem eq_zero_iff : w = 0 ↔ ∀ j, bit w j = false := by
  constructor
  · rintro rfl j
    exact bit_zero
  · exact fun h => eq_of_bit fun j _ => (h j).trans bit_zero.symm

@[simp] theorem bit_or : bit (v ||| w) j = (bit v j || bit w j) := by
  simp [bit]

@[simp] theorem bit_and : bit (v &&& w) j = (bit v j && bit w j) := by
  simp [bit]

theorem bit_not (hj : j < 64) : bit (~~~w) j = !bit w j := by
  simp [bit, hj]

/-- The bit of a number is set in its mask, and no other one. -/
@[simp] theorem bit_mask : bit (mask x) j = decide (j = x.toNat % 64) := by
  have hlt : x.toNat % 64 < 64 := Nat.mod_lt _ (by decide)
  have hbit : bit (mask x) j = (decide (j < 64) && !decide (j < x.toNat % 64) &&
      decide (j - x.toNat % 64 = 0)) := by
    simp [bit, mask]
  rw [hbit, Bool.eq_iff_iff]
  simp only [Bool.and_eq_true, Bool.not_eq_true', decide_eq_true_eq, decide_eq_false_iff_not]
  omega

theorem mem_bits : j ∈ bits w ↔ bit w j = true := by
  rw [bits, List.mem_filter, List.mem_range, and_iff_right_iff_imp]
  exact lt_of_bit

theorem pairwise_bits : (bits w).Pairwise (· < ·) :=
  List.pairwise_lt_range.filter _

/-! ### Counting -/

theorem cpopNatRec_eq_countP (v : BitVec 64) (n k : Nat) :
    v.cpopNatRec n k = k + (List.range n).countP v.getLsbD := by
  induction n generalizing k with
  | zero => rfl
  | succ n ih =>
    rw [BitVec.cpopNatRec_succ, ih, List.range_succ, List.countP_append, List.countP_singleton,
      Nat.add_assoc, Nat.add_comm (List.countP _ _)]
    cases v.getLsbD n <;> rfl

/-- The number of bits is the length of their list. -/
theorem toNat_bitCount : (bitCount w).toNat = (bits w).length := by
  have hlt : w.toBitVec.cpop.toNat < UInt32.size :=
    Nat.lt_of_le_of_lt (BitVec.toNat_cpop_le _) (by decide)
  rw [bitCount, UInt32.toNat_ofNat_of_lt' hlt, BitVec.toNat_cpop, cpopNatRec_eq_countP,
    Nat.zero_add, List.countP_eq_length_filter]
  rfl

/-! ### The highest and the lowest bit -/

theorem toNat_leadingZeros (h : w ≠ 0) :
    (leadingZeros w).toNat = w.toBitVec.clz.toNat ∧ w.toBitVec.clz.toNat < 64 := by
  have hlt : w.toBitVec.clz.toNat < 64 :=
    BitVec.lt_def.1 (BitVec.clz_lt_iff_ne_zero.2 fun hw => h (UInt64.toBitVec_inj.1 hw))
  exact ⟨UInt32.toNat_ofNat_of_lt' (Nat.lt_trans hlt (by decide)), hlt⟩

theorem toNat_trailingZeros (h : w ≠ 0) :
    (trailingZeros w).toNat = w.toBitVec.ctz.toNat ∧ w.toBitVec.ctz.toNat < 64 := by
  have hlt : w.toBitVec.ctz.toNat < 64 :=
    BitVec.lt_def.1 (BitVec.ctz_lt_iff_ne_zero.2 fun hw => h (UInt64.toBitVec_inj.1 hw))
  exact ⟨UInt32.toNat_ofNat_of_lt' (Nat.lt_trans hlt (by decide)), hlt⟩

/-- The bit below the leading zeros is the highest one. -/
theorem bit_leadingZeros (h : w ≠ 0) : bit w (63 - (leadingZeros w).toNat) = true ∧
    ∀ j, bit w j = true → j ≤ 63 - (leadingZeros w).toNat := by
  obtain ⟨hcount, hlt⟩ := toNat_leadingZeros h
  rw [hcount]
  refine ⟨BitVec.getLsbD_true_clz_of_ne_zero (by decide) fun hw => h (UInt64.toBitVec_inj.1 hw),
    fun j hj => ?_⟩
  have hpow : 2 ^ j < 2 ^ (64 - w.toBitVec.clz.toNat) :=
    Nat.lt_of_le_of_lt (Nat.ge_two_pow_of_testBit hj) BitVec.toNat_lt_two_pow_sub_clz
  have := (Nat.pow_lt_pow_iff_right (by decide)).1 hpow
  omega

/-- The bit above the trailing zeros is the lowest one. -/
theorem bit_trailingZeros (h : w ≠ 0) : bit w (trailingZeros w).toNat = true ∧
    ∀ j < (trailingZeros w).toNat, bit w j = false := by
  rw [(toNat_trailingZeros h).1]
  exact ⟨BitVec.getLsbD_true_ctz_of_ne_zero fun hw => h (UInt64.toBitVec_inj.1 hw),
    fun j hj => BitVec.getLsbD_false_of_lt_ctz hj⟩

/-- A number loses its lowest bit, and no other one, in the conjunction with its predecessor. -/
theorem testBit_and_pred {n k : Nat} (hk : n.testBit k = true)
    (hlow : ∀ j < k, n.testBit j = false) (j : Nat) :
    (n &&& (n - 1)).testBit j = (n.testBit j && decide (j ≠ k)) := by
  induction k generalizing n j with
  | zero =>
    have hodd : n % 2 = 1 := by simpa using hk
    cases j with
    | zero =>
      have heven : (n - 1) % 2 = 0 := by omega
      simp [heven]
    | succ j =>
      rw [Nat.testBit_and, Nat.testBit_succ, Nat.testBit_succ, show (n - 1) / 2 = n / 2 by omega]
      simp
  | succ k ih =>
    have heven : n % 2 = 0 := by simpa using hlow 0 (Nat.succ_pos k)
    rw [Nat.testBit_succ] at hk
    have hpos : n / 2 ≠ 0 := fun h => by simp [h] at hk
    cases j with
    | zero => simp [heven]
    | succ j =>
      have hrest := ih hk (fun i hi => (Nat.testBit_succ n i) ▸ hlow (i + 1) (by omega)) j
      rw [Nat.testBit_and] at hrest
      rw [Nat.testBit_and, Nat.testBit_succ, Nat.testBit_succ,
        show (n - 1) / 2 = n / 2 - 1 by omega, hrest]
      simp

theorem bit_and_pred (h : w ≠ 0) :
    bit (w &&& (w - 1)) j = (bit w j && decide (j ≠ (trailingZeros w).toNat)) := by
  obtain ⟨hlowest, hlower⟩ := bit_trailingZeros h
  have hpos : (1 : UInt64).toNat ≤ w.toNat :=
    Nat.pos_of_ne_zero fun hw => h (UInt64.toNat_inj.1 hw)
  have hpred : (w &&& (w - 1)).toNat = w.toNat &&& (w.toNat - 1) := by
    rw [UInt64.toNat_and, UInt64.toNat_sub_of_le _ _ (UInt64.le_iff_toNat_le.2 hpos)]
    rfl
  exact (congrArg (Nat.testBit · j) hpred).trans (testBit_and_pred hlowest hlower j)

/-- **Clearing the lowest bit** takes the first one off the list. -/
theorem bits_eq_cons (h : w ≠ 0) :
    bits w = (trailingZeros w).toNat :: bits (w &&& (w - 1)) := by
  obtain ⟨hlowest, hlower⟩ := bit_trailingZeros h
  have hrest {j : Nat} : j ∈ bits (w &&& (w - 1)) ↔
      bit w j = true ∧ j ≠ (trailingZeros w).toNat := by
    rw [mem_bits, bit_and_pred h, Bool.and_eq_true, decide_eq_true_eq]
  refine IndexSet.eq_of_mem_iff pairwise_bits
    (List.pairwise_cons.2 ⟨fun j hj => ?_, pairwise_bits⟩) fun j => ?_
  · obtain ⟨hj, hne⟩ := hrest.1 hj
    refine Nat.lt_of_le_of_ne (Nat.le_of_not_lt fun hlt => ?_) hne.symm
    exact absurd hj (by simp [hlower j hlt])
  · rw [List.mem_cons, hrest, mem_bits]
    by_cases hj : j = (trailingZeros w).toNat
    · simp [hj, hlowest]
    · simp [hj]

end WordSet

end OmegaAutomata
