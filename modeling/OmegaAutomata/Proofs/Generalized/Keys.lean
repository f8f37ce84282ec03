/-
# Keys in the order of their first mention

What is said of a list whose repeats are erased when elements are only compared by an equivalence.
A key is listed where it comes up first (`eraseDups_concat`), listed keys are different
(`pairwise_eraseDups`), and so the number of a key in such a list, `idxOf`, is the only place with a
key that is equal to it (`idxOf_eq_iff`).
-/

import Mathlib.Data.List.Induction

namespace OmegaAutomata

variable {κ : Type} [BEq κ] [EquivBEq κ] {l r : List κ} {x k : κ} {i : Nat}

theorem contains_filter_ne {a : κ} (h : (x == a) = false) :
    (l.filter fun b => !b == a).contains x = l.contains x := by
  rw [Bool.eq_iff_iff, List.contains_iff_exists_mem_beq, List.contains_iff_exists_mem_beq]
  constructor
  · rintro ⟨b, hb, hx⟩
    exact ⟨b, (List.mem_filter.1 hb).1, hx⟩
  · rintro ⟨b, hb, hx⟩
    refine ⟨b, List.mem_filter.2 ⟨hb, ?_⟩, hx⟩
    rw [← BEq.congr_left hx, h]
    rfl

/-- **A key is listed when it comes up first.** -/
theorem eraseDups_concat (l : List κ) (x : κ) :
    (l ++ [x]).eraseDups = if l.contains x then l.eraseDups else l.eraseDups ++ [x] := by
  match l with
  | [] => rfl
  | a :: l =>
    -- what is left of `l` is no tail of it, but it is shorter
    have ih := eraseDups_concat (l.filter fun b => !b == a) x
    rw [List.cons_append, List.eraseDups_cons, List.filter_append, List.eraseDups_cons,
      List.contains_cons]
    by_cases hx : (x == a) = true
    · rw [List.filter_cons_of_neg (by simp [hx]), hx]
      simp
    · rw [Bool.not_eq_true] at hx
      rw [List.filter_cons_of_pos (by simp [hx]), List.filter_nil, ih, contains_filter_ne hx, hx,
        Bool.false_or]
      split <;> rfl
termination_by l.length
decreasing_by exact Nat.lt_succ_of_le (List.length_filter_le _ _)

theorem contains_eraseDups (l : List κ) (x : κ) : l.eraseDups.contains x = l.contains x := by
  induction l using List.reverseRecOn with
  | nil => rfl
  | append_singleton l y ih =>
    rw [eraseDups_concat, List.contains_append]
    split
    · rename_i hy
      rw [ih, Bool.eq_iff_iff, Bool.or_eq_true, iff_self_or, List.contains_cons, List.contains_nil,
        Bool.or_false]
      intro hx
      obtain ⟨z, hz, hyz⟩ := List.contains_iff_exists_mem_beq.1 hy
      exact List.contains_iff_exists_mem_beq.2 ⟨z, hz, BEq.trans hx hyz⟩
    · rw [List.contains_append, ih]

/-- Listed keys are different. -/
theorem pairwise_eraseDups (l : List κ) : l.eraseDups.Pairwise fun a b => (a == b) = false := by
  induction l using List.reverseRecOn with
  | nil => exact .nil
  | append_singleton l y ih =>
    rw [eraseDups_concat]
    split
    · exact ih
    · rename_i hy
      refine List.pairwise_append.2 ⟨ih, List.pairwise_singleton _ _, fun a ha b hb => ?_⟩
      cases List.mem_singleton.1 hb
      rw [← contains_eraseDups] at hy
      refine Bool.eq_false_iff.2 fun hab => hy ?_
      exact List.contains_iff_exists_mem_beq.2 ⟨a, ha, BEq.symm hab⟩

theorem idxOf_lt_length (h : l.contains x = true) : l.idxOf x < l.length := by
  obtain ⟨a, ha, hax⟩ := List.contains_iff_exists_mem_beq.1 h
  exact List.findIdx_lt_length.2 ⟨a, ha, BEq.symm hax⟩

/-- The number of a key is the place of the key that is equal to it. -/
theorem getElem?_idxOf (h : l.contains x = true) :
    ∃ k, l[l.idxOf x]? = some k ∧ (k == x) = true := by
  have hlt := idxOf_lt_length h
  exact ⟨l[l.idxOf x], List.getElem?_eq_getElem hlt, List.findIdx_getElem (p := (· == x))⟩

theorem idxOf_eq_iff (h : l.Pairwise fun a b => (a == b) = false) (hk : l[i]? = some k) :
    l.idxOf x = i ↔ (k == x) = true := by
  obtain ⟨hlt, rfl⟩ := List.getElem?_eq_some_iff.1 hk
  refine (List.findIdx_eq hlt).trans (and_iff_left_of_imp fun hx j hj => ?_)
  have hne := List.pairwise_iff_getElem.1 h j i (Nat.lt_trans hj hlt) hlt hj
  exact (BEq.congr_right (BEq.symm hx)).trans hne

/-- A key keeps its number when others come after it. -/
theorem idxOf_append_of_contains (h : l.contains x = true) : (l ++ r).idxOf x = l.idxOf x := by
  rw [List.idxOf, List.findIdx_append]
  exact if_pos (idxOf_lt_length h)

/-- What is not listed has no number yet. -/
theorem idxOf_eq_length_of_not_contains (h : l.contains x = false) : l.idxOf x = l.length := by
  refine List.findIdx_eq_length.2 fun a ha => Bool.eq_false_iff.2 fun hax => ?_
  rw [List.contains_iff_exists_mem_beq.2 ⟨a, ha, BEq.symm hax⟩] at h
  contradiction

theorem idxOf_concat_of_not_contains (h : l.contains x = false) :
    (l ++ [x]).idxOf x = l.length := by
  have hlength := idxOf_eq_length_of_not_contains h
  rw [List.idxOf] at hlength
  rw [List.idxOf, List.findIdx_append, hlength, if_neg (Nat.lt_irrefl _), List.findIdx_cons,
    BEq.rfl, cond_true, Nat.zero_add]

/-- Equal keys have the same number, and different ones do not. -/
theorem idxOf_inj (hx : l.contains x = true) (hk : l.contains k = true) :
    l.idxOf x = l.idxOf k ↔ (x == k) = true := by
  constructor
  · intro heq
    obtain ⟨a, ha, hax⟩ := getElem?_idxOf hx
    obtain ⟨b, hb, hbk⟩ := getElem?_idxOf hk
    rw [heq, hb] at ha
    cases ha
    exact BEq.trans (BEq.symm hax) hbk
  · intro hxk
    rw [List.idxOf, List.idxOf]
    exact congrArg (fun p => l.findIdx p) (funext fun a => BEq.congr_right hxk)

/-- Changing what there is for the number of a key changes what there is for this key. -/
theorem modify_idxOf {σ : Type} (h : l.Pairwise fun a b => (a == b) = false) (f : κ → σ)
    (g : σ → σ) : (l.map f).toArray.modify (l.idxOf x) g =
      (l.map fun k => if k == x then g (f k) else f k).toArray := by
  refine Array.ext_getElem? fun i => ?_
  rw [← Array.getElem?_toList, Array.toList_modify, List.getElem?_modify, List.getElem?_toArray,
    List.getElem?_map, List.getElem?_map]
  cases hk : l[i]? with
  | none => rfl
  | some k =>
    have hiff := idxOf_eq_iff (x := x) h hk
    by_cases hx : (k == x) = true
    · simp [hx, hiff.2 hx]
    · simp [hx, mt hiff.1 hx]

end OmegaAutomata
