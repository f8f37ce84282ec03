/-
# The checks of a builder

`Valid` says what a transition has to satisfy, and `Violates` which error is reported of one that
does not: that of the first check that fails, which names the largest number that is out of range
or the smallest proposition that contradicts itself.  The checks decide between the two
(`checkTransition_eq_ok`, `checkTransition_eq_error`), and a build fails as the first transition
that is not valid, in the order of the states and then of the transitions (`build_eq_error`).
-/

import OmegaAutomata.Proofs.Generalized.Collected
import Mathlib.Order.Bounds.Basic

namespace OmegaAutomata

namespace Builder

variable {κ : Type} {b : Builder κ} {n k i : Nat} {s pos neg acceptance : IndexSet}
  {t : TransitionDraft} {u : Generalized.Transition} {e : BuildError}

/-- Whether a transition uses declared propositions only, does not contradict itself, and belongs
to sets that there are, when there are `n` propositions and `k` sets. -/
structure Valid (n k : Nat) (pos neg acceptance : IndexSet) : Prop where
  pos_lt : ∀ i ∈ pos, i < n
  neg_lt : ∀ i ∈ neg, i < n
  disjoint : ∀ i ∈ pos, i ∉ neg
  acceptance_lt : ∀ i ∈ acceptance, i < k

/-- The error of the first check that a transition fails. -/
inductive Violates (n k : Nat) (pos neg acceptance : IndexSet) : BuildError → Prop
  | pos {i : Nat} (h : IsGreatest {i | i ∈ pos ∧ n ≤ i} i) :
    Violates n k pos neg acceptance (.propositionOutOfRange i n)
  | neg {i : Nat} (hpos : ∀ i ∈ pos, i < n) (h : IsGreatest {i | i ∈ neg ∧ n ≤ i} i) :
    Violates n k pos neg acceptance (.propositionOutOfRange i n)
  | contradiction {i : Nat} (hpos : ∀ i ∈ pos, i < n) (hneg : ∀ i ∈ neg, i < n)
    (h : IsLeast {i | i ∈ pos ∧ i ∈ neg} i) :
    Violates n k pos neg acceptance (.contradictoryLabel i)
  | acceptance {i : Nat} (hpos : ∀ i ∈ pos, i < n) (hneg : ∀ i ∈ neg, i < n)
    (hdisjoint : ∀ i ∈ pos, i ∉ neg) (h : IsGreatest {i | i ∈ acceptance ∧ k ≤ i} i) :
    Violates n k pos neg acceptance (.acceptanceSetOutOfRange i k)

/-! ### Single checks -/

variable {error : Nat → Nat → BuildError}

theorem checkRange_eq_ok : checkRange s n error = .ok () ↔ ∀ i ∈ s, i < n := by
  refine ⟨fun h i hi => lt_of_checkRange h hi, fun h => ?_⟩
  unfold checkRange
  split
  · rfl
  · rename_i x hx
    have hlt := h x (IndexSet.max?_eq_some_iff.1 hx).1
    rw [if_neg (by omega)]

/-- **The largest number out of range** is reported. -/
theorem checkRange_eq_error : checkRange s n error = .error e ↔
    ∃ i, IsGreatest {i | i ∈ s ∧ n ≤ i} i ∧ error i n = e := by
  unfold checkRange
  constructor
  · intro h
    split at h
    · contradiction
    · rename_i x hx
      obtain ⟨hmem, hmax⟩ := IndexSet.max?_eq_some_iff.1 hx
      split at h
      · rename_i hle
        cases h
        exact ⟨x, ⟨⟨hmem, hle⟩, fun y hy => hmax y hy.1⟩, rfl⟩
      · contradiction
  · rintro ⟨i, ⟨⟨hi, hle⟩, hmax⟩, rfl⟩
    have hlargest : s.max? = some i := by
      refine IndexSet.max?_eq_some_iff.2 ⟨hi, fun y hy => ?_⟩
      by_cases hy' : n ≤ y
      · exact hmax ⟨hy, hy'⟩
      · omega
    rw [hlargest]
    exact if_pos hle

theorem checkLabel_eq_ok {l : Label} :
    checkLabel pos neg = .ok l ↔ (∀ i ∈ pos, i ∉ neg) ∧ l.pos = pos ∧ l.neg = neg := by
  unfold checkLabel
  split
  · rename_i h
    rw [IndexSet.isDisjoint_iff] at h
    constructor
    · rintro ⟨⟩
      exact ⟨h, rfl, rfl⟩
    · rintro ⟨-, rfl, rfl⟩
      rfl
  · rename_i h
    rw [IndexSet.isDisjoint_iff] at h
    exact iff_of_false (by simp) fun hl => h hl.1

/-- The smallest member of a set. -/
theorem min?_eq_some_iff : s.min? = some i ↔ IsLeast {i | i ∈ s} i := by
  rw [IndexSet.min?]
  cases hs : s.toList with
  | nil =>
    refine iff_of_false (by simp) fun h => ?_
    have hi := IndexSet.mem_toList.2 h.1
    rw [hs] at hi
    exact List.not_mem_nil hi
  | cons x l =>
    have hpair := s.increasing
    rw [hs] at hpair
    have hleast : IsLeast {i | i ∈ s} x := by
      refine ⟨IndexSet.mem_toList.1 (hs ▸ List.mem_cons_self), fun y hy => ?_⟩
      have hy : y ∈ x :: l := hs ▸ IndexSet.mem_toList.2 hy
      rcases List.mem_cons.1 hy with rfl | hy
      · exact Nat.le_refl _
      · exact Nat.le_of_lt ((List.pairwise_cons.1 hpair).1 y hy)
    rw [List.head?_cons, Option.some_inj]
    exact ⟨fun h => h ▸ hleast, fun h => hleast.unique h⟩

/-- **The smallest proposition that is required and forbidden** is reported. -/
theorem checkLabel_eq_error : checkLabel pos neg = .error e ↔
    ∃ i, IsLeast {i | i ∈ pos ∧ i ∈ neg} i ∧ .contradictoryLabel i = e := by
  have hmin (i : Nat) : (pos ∩ neg).min? = some i ↔ IsLeast {i | i ∈ pos ∧ i ∈ neg} i := by
    rw [min?_eq_some_iff]
    simp only [IndexSet.mem_inter]
  unfold checkLabel
  split
  · rename_i h
    rw [IndexSet.isDisjoint_iff] at h
    refine iff_of_false (by simp) ?_
    rintro ⟨i, ⟨⟨hpos, hneg⟩, -⟩, -⟩
    exact h i hpos hneg
  · rename_i h
    cases hi : (pos ∩ neg).min? with
    | none =>
      refine absurd (IndexSet.isDisjoint_iff.2 fun i hpos hneg => ?_) h
      rw [IndexSet.min?, List.head?_eq_none_iff] at hi
      have hmem := IndexSet.mem_toList.2 (IndexSet.mem_inter.2 ⟨hpos, hneg⟩)
      rw [hi] at hmem
      exact List.not_mem_nil hmem
    | some i =>
      have hleast := (hmin i).1 hi
      constructor
      · rintro ⟨⟩
        exact ⟨i, hleast, rfl⟩
      · rintro ⟨j, hj, rfl⟩
        rw [hleast.unique hj]
        rfl

/-! ### Transitions -/

/-- **A transition passes** if it is valid, and is built from its sets. -/
theorem checkTransition_eq_ok : b.checkTransition t = .ok u ↔
    Valid b.propositions.size b.sets t.pos t.neg t.acceptance ∧
      u.target = t.target ∧ u.label.pos = t.pos ∧ u.label.neg = t.neg ∧
        u.acceptance = t.acceptance := by
  constructor
  · intro h
    obtain ⟨⟨⟩, hpos, h⟩ := bind_eq_ok.1 h
    obtain ⟨⟨⟩, hneg, h⟩ := bind_eq_ok.1 h
    obtain ⟨label, hlabel, h⟩ := bind_eq_ok.1 h
    obtain ⟨⟨⟩, hacceptance, h⟩ := bind_eq_ok.1 h
    cases h
    obtain ⟨hdisjoint, hlpos, hlneg⟩ := checkLabel_eq_ok.1 hlabel
    exact ⟨⟨checkRange_eq_ok.1 hpos, checkRange_eq_ok.1 hneg, hdisjoint,
      checkRange_eq_ok.1 hacceptance⟩, rfl, hlpos, hlneg, rfl⟩
  · rintro ⟨hvalid, htarget, hlpos, hlneg, hacceptance⟩
    obtain ⟨target, label, acceptance⟩ := u
    cases htarget
    cases hacceptance
    exact bind_eq_ok.2 ⟨(), checkRange_eq_ok.2 hvalid.pos_lt,
      bind_eq_ok.2 ⟨(), checkRange_eq_ok.2 hvalid.neg_lt,
        bind_eq_ok.2 ⟨label, checkLabel_eq_ok.2 ⟨hvalid.disjoint, hlpos, hlneg⟩,
          bind_eq_ok.2 ⟨(), checkRange_eq_ok.2 hvalid.acceptance_lt, rfl⟩⟩⟩⟩

/-- **A transition that does not pass** is reported with its first violation. -/
theorem checkTransition_eq_error : b.checkTransition t = .error e ↔
    Violates b.propositions.size b.sets t.pos t.neg t.acceptance e := by
  constructor
  · intro h
    rcases bind_eq_error.1 h with h | ⟨⟨⟩, hpos, h⟩
    · obtain ⟨i, hi, rfl⟩ := checkRange_eq_error.1 h
      exact .pos hi
    have hpos := checkRange_eq_ok.1 hpos
    rcases bind_eq_error.1 h with h | ⟨⟨⟩, hneg, h⟩
    · obtain ⟨i, hi, rfl⟩ := checkRange_eq_error.1 h
      exact .neg hpos hi
    have hneg := checkRange_eq_ok.1 hneg
    rcases bind_eq_error.1 h with h | ⟨label, hlabel, h⟩
    · obtain ⟨i, hi, rfl⟩ := checkLabel_eq_error.1 h
      exact .contradiction hpos hneg hi
    have hdisjoint := (checkLabel_eq_ok.1 hlabel).1
    rcases bind_eq_error.1 h with h | ⟨⟨⟩, -, h⟩
    · obtain ⟨i, hi, rfl⟩ := checkRange_eq_error.1 h
      exact .acceptance hpos hneg hdisjoint hi
    · contradiction
  · intro h
    cases h with
    | pos hi => exact bind_eq_error.2 (.inl (checkRange_eq_error.2 ⟨_, hi, rfl⟩))
    | neg hpos hi =>
      refine bind_eq_error.2 (.inr ⟨(), checkRange_eq_ok.2 hpos, ?_⟩)
      exact bind_eq_error.2 (.inl (checkRange_eq_error.2 ⟨_, hi, rfl⟩))
    | contradiction hpos hneg hi =>
      refine bind_eq_error.2 (.inr ⟨(), checkRange_eq_ok.2 hpos, ?_⟩)
      refine bind_eq_error.2 (.inr ⟨(), checkRange_eq_ok.2 hneg, ?_⟩)
      exact bind_eq_error.2 (.inl (checkLabel_eq_error.2 ⟨_, hi, rfl⟩))
    | acceptance hpos hneg hdisjoint hi =>
      refine bind_eq_error.2 (.inr ⟨(), checkRange_eq_ok.2 hpos, ?_⟩)
      refine bind_eq_error.2 (.inr ⟨(), checkRange_eq_ok.2 hneg, ?_⟩)
      have hlabel : checkLabel t.pos t.neg =
          .ok ⟨t.pos, t.neg, IndexSet.isDisjoint_iff.2 hdisjoint⟩ :=
        checkLabel_eq_ok.2 ⟨hdisjoint, rfl, rfl⟩
      refine bind_eq_error.2 (.inr ⟨_, hlabel, ?_⟩)
      exact bind_eq_error.2 (.inl (checkRange_eq_error.2 ⟨_, hi, rfl⟩))

theorem exists_checkTransition :
    (∃ u, b.checkTransition t = .ok u) ↔
      Valid b.propositions.size b.sets t.pos t.neg t.acceptance := by
  refine ⟨fun ⟨u, hu⟩ => (checkTransition_eq_ok.1 hu).1, fun h => ?_⟩
  exact ⟨⟨t.target, ⟨t.pos, t.neg, IndexSet.isDisjoint_iff.2 h.disjoint⟩, t.acceptance⟩,
    checkTransition_eq_ok.2 ⟨h, rfl, rfl, rfl, rfl⟩⟩

/-! ### Builds -/

/-- The transitions that a build checks, in order. -/
def drafts (b : Builder κ) : List TransitionDraft :=
  b.states.toList.flatMap fun s => s.transitions.toList

/-- **A build succeeds** if all transitions are valid. -/
theorem exists_build : (∃ g, b.build = .ok g) ↔
    ∀ t ∈ b.drafts, Valid b.propositions.size b.sets t.pos t.neg t.acceptance := by
  constructor
  · rintro ⟨g, hg⟩ t ht
    obtain ⟨s, hs, ht⟩ := List.mem_flatMap.1 ht
    obtain ⟨states, hstates, -⟩ := bind_eq_ok.1 hg
    rw [← List.zipIdx_map_fst 0 b.states.toList] at hs
    obtain ⟨⟨s, q⟩, hq, rfl⟩ := List.mem_map.1 hs
    obtain ⟨u, hu⟩ := forall_of_mapM_eq_ok hstates _ hq
    obtain ⟨ts, hts, -⟩ := bind_eq_ok.1 hu
    exact exists_checkTransition.1 (forall_of_mapM_eq_ok hts t ht)
  · intro h
    have hstate : ∀ p ∈ b.states.toList.zipIdx, ∃ s, b.checkState p.1 p.2 = .ok s := by
      rintro ⟨s, q⟩ hp
      obtain ⟨ts, hts⟩ := exists_mapM_eq_ok fun t ht => exists_checkTransition.2
        (h t (List.mem_flatMap.2 ⟨s, List.fst_mem_of_mem_zipIdx hp, ht⟩))
      exact ⟨_, bind_eq_ok.2 ⟨ts, hts, rfl⟩⟩
    obtain ⟨states, hstates⟩ := exists_mapM_eq_ok hstate
    exact ⟨_, bind_eq_ok.2 ⟨states, hstates, rfl⟩⟩

/-- **A build fails** as the first transition that is not valid. -/
theorem build_eq_error : b.build = .error e ↔ ∃ before t after, b.drafts = before ++ t :: after ∧
    (∀ u ∈ before, Valid b.propositions.size b.sets u.pos u.neg u.acceptance) ∧
      Violates b.propositions.size b.sets t.pos t.neg t.acceptance e := by
  have hstate (p : StateDraft κ × Nat) (e : BuildError) : b.checkState p.1 p.2 = .error e ↔
      p.1.transitions.toList.mapM b.checkTransition = .error e := by
    rw [checkState, bind_eq_error]
    simp
  have hstates := mapM_map_eq_error (k := Prod.fst) (l := b.states.toList.zipIdx) (e := e)
    (g := fun s : StateDraft κ => s.transitions.toList.mapM b.checkTransition) hstate
  have hbuild : b.build = .error e ↔ b.drafts.mapM b.checkTransition = .error e := by
    rw [drafts, mapM_flatMap_eq_error, ← List.zipIdx_map_fst 0 b.states.toList, ← hstates, build,
      bind_eq_error]
    simp
  rw [hbuild, mapM_eq_error]
  simp only [exists_checkTransition, checkTransition_eq_error]

/-- **What is built** are the drafts. -/
theorem build_eq_ok {g : Generalized} (hg : b.build = .ok g) :
    g.states.toList.map (fun s => (s.identity, s.transitions.map fun t =>
      (t.target, t.label.pos, t.label.neg, t.acceptance))) =
    b.states.toList.zipIdx.map fun (s, q) => (s.identity.getD (q + 1), s.transitions.toList.map
      fun t => (t.target, t.pos, t.neg, t.acceptance)) := by
  obtain ⟨states, hstates, hg⟩ := bind_eq_ok.1 hg
  cases hg
  refine map_eq_of_mapM_eq_ok hstates fun (s, q) u hu => ?_
  obtain ⟨ts, hts, hu⟩ := bind_eq_ok.1 hu
  cases hu
  refine congrArg (Prod.mk _) (map_eq_of_mapM_eq_ok hts fun t u hu => ?_)
  obtain ⟨-, htarget, hpos, hneg, hacceptance⟩ := checkTransition_eq_ok.1 hu
  rw [htarget, hpos, hneg, hacceptance]

end Builder

end OmegaAutomata
