/-
# Membership in index sets

What each operation does to membership.  Two sets with the same members are equal
(`IndexSet.ext`), because an increasing list is determined by the numbers in it.
-/

import OmegaAutomata.IndexSet.Basic

namespace OmegaAutomata

namespace IndexSet

theorem mem_toList {s : IndexSet} {x : Nat} : x ∈ s.toList ↔ x ∈ s :=
  Iff.rfl

@[simp] theorem contains_iff {s : IndexSet} {x : Nat} : s.contains x = true ↔ x ∈ s :=
  decide_eq_true_iff

/-- Increasing lists of the same numbers are equal. -/
theorem eq_of_mem_iff {xs ys : List Nat} (hxs : xs.Pairwise (· < ·)) (hys : ys.Pairwise (· < ·))
    (h : ∀ z, z ∈ xs ↔ z ∈ ys) : xs = ys := by
  induction xs generalizing ys with
  | nil =>
    cases ys with
    | nil => rfl
    | cons y ys => exact absurd ((h y).2 List.mem_cons_self) List.not_mem_nil
  | cons x xs ih =>
    cases ys with
    | nil => exact absurd ((h x).1 List.mem_cons_self) List.not_mem_nil
    | cons y ys =>
      have hx := (List.pairwise_cons.1 hxs).1
      have hy := (List.pairwise_cons.1 hys).1
      have hxy : x = y := by
        obtain hxy | hmem := List.mem_cons.1 ((h x).1 List.mem_cons_self)
        · exact hxy
        · obtain hyx | hmem' := List.mem_cons.1 ((h y).2 List.mem_cons_self)
          · exact hyx.symm
          · exact absurd (hy x hmem) (Nat.lt_asymm (hx y hmem'))
      subst hxy
      refine congrArg _ (ih hxs.of_cons hys.of_cons fun z => ?_)
      constructor
      · intro hz
        exact (List.mem_cons.1 ((h z).1 (List.mem_cons_of_mem x hz))).resolve_left
          (Nat.ne_of_gt (hx z hz))
      · intro hz
        exact (List.mem_cons.1 ((h z).2 (List.mem_cons_of_mem x hz))).resolve_left
          (Nat.ne_of_gt (hy z hz))

/-- Sets with the same members are equal. -/
theorem ext {s t : IndexSet} (h : ∀ x, x ∈ s ↔ x ∈ t) : s = t := by
  obtain ⟨xs, hxs⟩ := s
  obtain ⟨ys, hys⟩ := t
  obtain rfl : xs = ys := eq_of_mem_iff hxs hys h
  rfl

@[simp] theorem not_mem_empty (x : Nat) : x ∉ (∅ : IndexSet) :=
  List.not_mem_nil

@[simp] theorem mem_singleton {x y : Nat} : y ∈ singleton x ↔ y = x :=
  List.mem_singleton

@[simp] theorem mem_union {s t : IndexSet} {x : Nat} : x ∈ s ∪ t ↔ x ∈ s ∨ x ∈ t :=
  mem_merge t.increasing

@[simp] theorem mem_inter {s t : IndexSet} {x : Nat} : x ∈ s ∩ t ↔ x ∈ s ∧ x ∈ t :=
  List.mem_filter.trans (and_congr_right fun _ => contains_iff)

@[simp] theorem mem_insert {s : IndexSet} {x y : Nat} : y ∈ s.insert x ↔ y ∈ s ∨ y = x := by
  rw [insert, mem_union, mem_singleton]
  exact or_comm

@[simp] theorem mem_erase {s : IndexSet} {x y : Nat} : y ∈ s.erase x ↔ y ∈ s ∧ y ≠ x :=
  List.mem_filter.trans (and_congr_right fun _ => decide_eq_true_iff)

@[simp] theorem mem_ofList {xs : List Nat} {x : Nat} : x ∈ ofList xs ↔ x ∈ xs := by
  induction xs with
  | nil => exact iff_of_false (not_mem_empty x) List.not_mem_nil
  | cons y xs ih =>
    rw [show ofList (y :: xs) = (ofList xs).insert y from rfl, mem_insert, ih, List.mem_cons]
    exact or_comm

/-- A set is empty exactly when it has no member. -/
theorem isEmpty_iff {s : IndexSet} : s.isEmpty = true ↔ ∀ x, x ∉ s :=
  List.isEmpty_iff.trans List.eq_nil_iff_forall_not_mem

/-- One set is a subset of another exactly when all of its members are in the other. -/
theorem isSubset_iff {s t : IndexSet} : s.isSubset t = true ↔ ∀ x, x ∈ s → x ∈ t :=
  List.all_eq_true.trans (forall_congr' fun _ => imp_congr_right fun _ => contains_iff)

/-- Sets are disjoint exactly when they have no member in common. -/
theorem isDisjoint_iff {s t : IndexSet} : s.isDisjoint t = true ↔ ∀ x, x ∈ s → x ∉ t := by
  rw [isDisjoint, List.all_eq_true]
  refine forall_congr' fun x => imp_congr_right fun _ => ?_
  rw [Bool.not_eq_true', ← Bool.not_eq_true, contains_iff]

/-- The largest member is a member, and no member is larger. -/
theorem max?_eq_some_iff {s : IndexSet} {x : Nat} :
    s.max? = some x ↔ x ∈ s ∧ ∀ y, y ∈ s → y ≤ x := by
  have hle {x y : Nat} (hx : s.max? = some x) (hy : y ∈ s) : y ≤ x := by
    obtain ⟨ys, hys⟩ := List.getLast?_eq_some_iff.1 hx
    have hpair := s.increasing
    have hy : y ∈ s.toList := hy
    rw [hys] at hpair hy
    obtain hy | hy := List.mem_append.1 hy
    · exact Nat.le_of_lt ((List.pairwise_append.1 hpair).2.2 y hy x List.mem_cons_self)
    · exact Nat.le_of_eq (List.mem_singleton.1 hy)
  have hmem {x : Nat} (hx : s.max? = some x) : x ∈ s := List.mem_of_getLast? hx
  constructor
  · exact fun hx => ⟨hmem hx, fun y => hle hx⟩
  · intro hx
    cases hm : s.max? with
    | none =>
      have : s.toList = [] := List.getLast?_eq_none_iff.1 hm
      exact absurd (this ▸ hx.1 : x ∈ ([] : List Nat)) List.not_mem_nil
    | some m => rw [Nat.le_antisymm (hle hm hx.1) (hx.2 m (hmem hm))]

end IndexSet

end OmegaAutomata
