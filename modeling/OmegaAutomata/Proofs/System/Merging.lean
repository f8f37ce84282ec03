/-
# Making one state of two

When `gone` and `kept` have the same steps, `gone` can be taken out of a system
and every step to it led to `kept` instead.  `Merges` says that one system comes
from another in this way.

Runs of the two systems correspond to each other (`Merges.isRun_rename`,
`Merges.exists_isRun`): where the new one visits `kept`, the old one visits `kept`
or `gone`.  These two may differ in acceptance as long as the new acceptance of
`kept` is that of those of them that lie on a cycle, because a run is only finitely
often in a state on no cycle.  Then all other states keep their languages
(`Merges.acceptsFrom_iff`).

Merging creates few cycles: a state that lies on a cycle afterwards was on one
before, and for `kept` it may have been `gone` that was (`Merges.onCycle`).
-/

import OmegaAutomata.Proofs.System.Basic

namespace OmegaAutomata

namespace System

variable {σ : Type} [DecidableEq σ]

/-- The state that is left of `x` when `gone` is merged into `kept`. -/
def rename (gone kept x : σ) : σ :=
  if x = gone then kept else x

/-- `T` is `S` with `gone` merged into `kept`, two states with the same steps. -/
structure Merges (S T : System σ) (gone kept : σ) : Prop where
  ne : kept ≠ gone
  twins : ∀ v y, S.step v gone y ↔ S.step v kept y
  step_iff : ∀ v x z, T.step v x z ↔ x ≠ gone ∧ ∃ y, S.step v x y ∧ rename gone kept y = z

variable {S T : System σ} {gone kept : σ} {w : Word}

theorem rename_of_ne {x : σ} (h : x ≠ gone) : rename gone kept x = x :=
  if_neg h

theorem rename_self : rename gone kept gone = kept :=
  if_pos rfl

/-- A state that is renamed to `x` is `x`, or it is `gone` and `x` is `kept`. -/
theorem eq_or_of_rename_eq {x y : σ} (h : rename gone kept y = x) :
    y = x ∨ y = gone ∧ x = kept := by
  by_cases hy : y = gone
  · subst hy
    exact .inr ⟨rfl, h.symm.trans rename_self⟩
  · exact .inl ((rename_of_ne hy).symm.trans h)

/-- From some position on, a run and its renamed run agree on acceptance. -/
theorem IsRun.eventually_accepting_iff
    (hother : ∀ x, x ≠ gone → x ≠ kept → (T.accepting x ↔ S.accepting x))
    (hkept : S.OnCycle kept → (T.accepting kept ↔ S.accepting kept))
    (hgone : S.OnCycle gone → (T.accepting kept ↔ S.accepting gone))
    {r : Nat → σ} (hr : S.IsRun w r) :
    ∃ N, ∀ i, N ≤ i → (T.accepting (rename gone kept (r i)) ↔ S.accepting (r i)) := by
  obtain ⟨N₁, h₁⟩ := hr.eventually_onCycle kept
  obtain ⟨N₂, h₂⟩ := hr.eventually_onCycle gone
  refine ⟨max N₁ N₂, fun i hi => ?_⟩
  have hi₁ := h₁ i (Nat.le_trans (Nat.le_max_left _ _) hi)
  have hi₂ := h₂ i (Nat.le_trans (Nat.le_max_right _ _) hi)
  by_cases hg : r i = gone
  · rw [hg, rename_self]
    exact hgone (hi₂ hg)
  · rw [rename_of_ne hg]
    by_cases hk : r i = kept
    · rw [hk]
      exact hkept (hi₁ hk)
    · exact hother _ hg hk

namespace Merges

theorem rename_ne (h : S.Merges T gone kept) (x : σ) : rename gone kept x ≠ gone := by
  unfold rename
  split
  · exact h.ne
  · assumption

/-- A state has the steps of what is left of it. -/
theorem step_rename (h : S.Merges T gone kept) {v : IndexSet} {x y : σ} :
    S.step v (rename gone kept x) y ↔ S.step v x y := by
  by_cases hx : x = gone
  · rw [hx, rename_self]
    exact (h.twins v y).symm
  · rw [rename_of_ne hx]

/-- A run goes on as a run of the system with merged states. -/
theorem isRun_rename (h : S.Merges T gone kept) {r : Nat → σ} (hr : S.IsRun w r) :
    T.IsRun w fun i => rename gone kept (r i) := fun i =>
  (h.step_iff _ _ _).2 ⟨h.rename_ne _, r (i + 1), h.step_rename.2 (hr i), rfl⟩

/-- A run of the system with merged states comes from a run of the original one. -/
theorem exists_isRun (h : S.Merges T gone kept) {r : Nat → σ} (hr : T.IsRun w r)
    (h0 : r 0 ≠ gone) :
    ∃ r', r' 0 = r 0 ∧ S.IsRun w r' ∧ ∀ i, rename gone kept (r' i) = r i := by
  refine hr.simulate (T := S) (R := fun x y => rename gone kept y = x) (fun hx hstep _ => ?_)
    (rename_of_ne h0)
  obtain ⟨-, y, hy, hz⟩ := (h.step_iff _ _ _).1 hstep
  exact ⟨y, h.step_rename.1 (hx ▸ hy), hz⟩

/-- **Merging keeps the languages.**  It does if the new acceptance of `kept` is that of `kept` and
of `gone`, as far as they lie on cycles. -/
theorem acceptsFrom_iff (h : S.Merges T gone kept)
    (hother : ∀ x, x ≠ gone → x ≠ kept → (T.accepting x ↔ S.accepting x))
    (hkept : S.OnCycle kept → (T.accepting kept ↔ S.accepting kept))
    (hgone : S.OnCycle gone → (T.accepting kept ↔ S.accepting gone))
    {x : σ} (hx : x ≠ gone) : T.AcceptsFrom x w ↔ S.AcceptsFrom x w := by
  constructor
  · rintro ⟨r, rfl, hr, hio⟩
    obtain ⟨r', h0, hr', hren⟩ := h.exists_isRun hr hx
    obtain ⟨N, hN⟩ := hr'.eventually_accepting_iff hother hkept hgone
    refine ⟨r', h0, hr', hio.of_eventually N fun i hi hacc => (hN i hi).1 ?_⟩
    rwa [hren i]
  · rintro ⟨r, rfl, hr, hio⟩
    obtain ⟨N, hN⟩ := hr.eventually_accepting_iff hother hkept hgone
    exact ⟨_, rename_of_ne hx, h.isRun_rename hr, hio.of_eventually N fun i hi => (hN i hi).2⟩

/-! ### Cycles -/

/-- A path of the system with merged states comes from a path of the original one. -/
theorem exists_transGen (h : S.Merges T gone kept) {x z : σ} (hxz : Relation.TransGen T.Edge x z) :
    ∃ y, Relation.TransGen S.Edge x y ∧ rename gone kept y = z := by
  induction hxz with
  | single hstep =>
    obtain ⟨v, hv⟩ := hstep
    obtain ⟨-, y, hy, hz⟩ := (h.step_iff _ _ _).1 hv
    exact ⟨y, .single ⟨v, hy⟩, hz⟩
  | tail _ hstep ih =>
    obtain ⟨v, hv⟩ := hstep
    obtain ⟨y, hxy, rfl⟩ := ih
    obtain ⟨-, z, hz, hren⟩ := (h.step_iff _ _ _).1 hv
    exact ⟨z, hxy.tail ⟨v, h.step_rename.1 hz⟩, hren⟩

/-- A path out of one of the twins can be taken from the other. -/
theorem transGen_of_kept (h : S.Merges T gone kept) {z : σ}
    (hz : Relation.TransGen S.Edge kept z) : Relation.TransGen S.Edge gone z := by
  obtain ⟨y, ⟨v, hv⟩, hyz⟩ := Relation.TransGen.head'_iff.1 hz
  exact Relation.TransGen.head'_iff.2 ⟨y, ⟨v, (h.twins v y).2 hv⟩, hyz⟩

/-- **Merging closes no new cycle.**  A state on a cycle of the system with merged states was on
one before, or it is what is left of one that was. -/
theorem onCycle (h : S.Merges T gone kept) {x : σ} (hx : T.OnCycle x) :
    S.OnCycle x ∨ x = kept ∧ S.OnCycle gone := by
  obtain ⟨y, hxy, hren⟩ := h.exists_transGen hx
  rcases eq_or_of_rename_eq hren with rfl | ⟨rfl, rfl⟩
  · exact .inl hxy
  · exact .inr ⟨rfl, h.transGen_of_kept hxy⟩

end Merges

end System

end OmegaAutomata
