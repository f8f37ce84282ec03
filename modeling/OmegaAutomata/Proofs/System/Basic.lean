/-
# Transition systems and their languages

A system has steps that read letters, and accepting states.  A state accepts an
infinite word if some run over the word starts there and visits accepting states
infinitely often.  Generalized automata, Büchi automata and arenas under
construction all give rise to systems, and what is proved here about systems is
used for each of them.

Languages are compared by simulations.  `IsRun.simulate` turns a run of one system
into a related run of another; a step need only be simulated if the run can go on
after it, since a state without steps lies on no run.  `AcceptsFrom.simulate` draws
the conclusion for languages when related states agree on acceptance.

A run may visit a state infinitely often only if the state lies on a cycle
(`IsRun.eventually_onCycle`).  So the acceptance of a state on no cycle does not
matter.

`Restricts` is about leaving out states to which no run needs to go, and `Absorbs` about
never leaving states that accept every word.
-/

import OmegaAutomata.Word
import Mathlib.Data.Nat.Init
import Mathlib.Logic.Relation
import Mathlib.Tactic.Choose

namespace OmegaAutomata

namespace InfinitelyOften

variable {P Q : Nat → Prop}

/-- What holds from some position on does not change what holds infinitely often. -/
theorem of_eventually (h : InfinitelyOften P) (N : Nat) (hPQ : ∀ i, N ≤ i → P i → Q i) :
    InfinitelyOften Q := by
  intro n
  obtain ⟨m, hm, hP⟩ := h (max n N)
  have hN : N ≤ m := Nat.le_trans (Nat.le_max_right n N) hm
  exact ⟨m, Nat.le_trans (Nat.le_max_left n N) hm, hPQ m hN hP⟩

theorem mono (h : InfinitelyOften P) (hPQ : ∀ i, P i → Q i) : InfinitelyOften Q :=
  h.of_eventually 0 fun i _ => hPQ i

end InfinitelyOften

/-- Steps between states that read a letter, and the states that accept. -/
@[ext] structure System (σ : Type) where
  step : IndexSet → σ → σ → Prop
  accepting : σ → Prop

namespace System

variable {σ τ : Type} {S : System σ} {T : System τ} {w : Word}

/-- Whether `r` takes a step on every letter of `w`. -/
def IsRun (S : System σ) (w : Word) (r : Nat → σ) : Prop :=
  ∀ i, S.step (w i) (r i) (r (i + 1))

/-- Whether some run over `w` starts in `x` and visits accepting states infinitely often. -/
def AcceptsFrom (S : System σ) (x : σ) (w : Word) : Prop :=
  ∃ r : Nat → σ, r 0 = x ∧ S.IsRun w r ∧ InfinitelyOften fun i => S.accepting (r i)

/-- Whether some letter leads from one state to another. -/
def Edge (S : System σ) (x y : σ) : Prop :=
  ∃ v, S.step v x y

/-- Whether a non-empty path leads from a state back to it. -/
def OnCycle (S : System σ) (x : σ) : Prop :=
  Relation.TransGen S.Edge x x

/-! ### Simulations -/

/-- **A simulated run.**  If steps of `S` that a run can go on from are simulated by steps of `T`,
then every run of `S` is simulated by a run of `T`. -/
theorem IsRun.simulate {R : σ → τ → Prop} {r : Nat → σ} (hr : S.IsRun w r)
    (hstep : ∀ {v x y x'}, R x x' → S.step v x y → (∃ z, S.Edge y z) →
      ∃ y', T.step v x' y' ∧ R y y')
    {x' : τ} (hx : R (r 0) x') : ∃ r', r' 0 = x' ∧ T.IsRun w r' ∧ ∀ i, R (r i) (r' i) := by
  have hnext : ∀ i (y : {y // R (r i) y}), ∃ z : {z // R (r (i + 1)) z}, T.step (w i) y.1 z.1 := by
    intro i y
    obtain ⟨z, hz, hR⟩ := hstep y.2 (hr i) ⟨r (i + 2), w (i + 1), hr (i + 1)⟩
    exact ⟨⟨z, hR⟩, hz⟩
  choose f hf using hnext
  let g : ∀ i, {y // R (r i) y} := fun i => Nat.rec ⟨x', hx⟩ (fun i y => f i y) i
  exact ⟨fun i => (g i).1, rfl, fun i => hf i (g i), fun i => (g i).2⟩

/-- **Simulation carries acceptance over.**  As `IsRun.simulate`, when the states that simulate
accepting ones accept. -/
theorem AcceptsFrom.simulate {R : σ → τ → Prop} {x : σ} (h : S.AcceptsFrom x w)
    (hstep : ∀ {v x y x'}, R x x' → S.step v x y → (∃ z, S.Edge y z) →
      ∃ y', T.step v x' y' ∧ R y y')
    (hacc : ∀ {x x'}, R x x' → S.accepting x → T.accepting x')
    {x' : τ} (hx : R x x') : T.AcceptsFrom x' w := by
  obtain ⟨r, rfl, hr, hio⟩ := h
  obtain ⟨r', h0, hr', hR⟩ := hr.simulate hstep hx
  exact ⟨r', h0, hr', hio.mono fun i => hacc (hR i)⟩

/-! ### Cycles -/

/-- A later state of a run is reached from an earlier one. -/
theorem IsRun.transGen {r : Nat → σ} (hr : S.IsRun w r) {i j : Nat} (hij : i < j) :
    Relation.TransGen S.Edge (r i) (r j) := by
  induction j, hij using Nat.le_induction with
  | base => exact .single ⟨w i, hr i⟩
  | succ j _ ih => exact ih.tail ⟨w j, hr j⟩

/-- **Only states on cycles are visited again and again.**  From some position on, a run is in `x`
only if `x` lies on a cycle. -/
theorem IsRun.eventually_onCycle {r : Nat → σ} (hr : S.IsRun w r) (x : σ) :
    ∃ N, ∀ i, N ≤ i → r i = x → S.OnCycle x := by
  by_cases hx : ∃ N, r N = x
  · obtain ⟨N, rfl⟩ := hx
    refine ⟨N + 1, fun i hi hri => ?_⟩
    have hpath := hr.transGen (Nat.lt_of_succ_le hi)
    rwa [hri] at hpath
  · exact ⟨0, fun i _ hri => absurd ⟨i, hri⟩ hx⟩

/-! ### Leaving states out -/

/-- `T` is `S` with the states of `P` only.  A run of `S` that is in `P` once never leaves it,
since a step out of `P` leads to a state without steps. -/
structure Restricts (S T : System σ) (P : σ → Prop) : Prop where
  step_iff : ∀ v x y, T.step v x y ↔ P x ∧ P y ∧ S.step v x y
  accepting_iff : ∀ x, P x → (T.accepting x ↔ S.accepting x)
  stays : ∀ x y, P x → S.Edge x y → (∃ z, S.Edge y z) → P y

namespace Restricts

variable {S T : System σ} {P : σ → Prop} {w : Word}

/-- **Restriction keeps the languages** of the states that are left. -/
theorem acceptsFrom_iff (h : S.Restricts T P) {x : σ} (hx : P x) :
    T.AcceptsFrom x w ↔ S.AcceptsFrom x w := by
  constructor
  · rintro ⟨r, rfl, hr, hio⟩
    refine ⟨r, rfl, fun i => ((h.step_iff _ _ _).1 (hr i)).2.2, hio.mono fun i hi => ?_⟩
    exact (h.accepting_iff _ ((h.step_iff _ _ _).1 (hr i)).1).1 hi
  · intro hacc
    refine hacc.simulate (R := fun x y => x = y ∧ P x) (fun hR hstep hgoes => ?_) ?_ ⟨rfl, hx⟩
    · obtain ⟨rfl, hx⟩ := hR
      have hy := h.stays _ _ hx ⟨_, hstep⟩ hgoes
      exact ⟨_, (h.step_iff _ _ _).2 ⟨hx, hy, hstep⟩, rfl, hy⟩
    · rintro _ _ ⟨rfl, hx⟩ hS
      exact (h.accepting_iff _ hx).2 hS

end Restricts

/-! ### States that accept every word -/

/-- A run can be begun with one more step. -/
theorem AcceptsFrom.cons {x y : σ} (hstep : S.step (w 0) x y)
    (h : S.AcceptsFrom y fun i => w (i + 1)) : S.AcceptsFrom x w := by
  obtain ⟨r, rfl, hr, hio⟩ := h
  refine ⟨fun i => Nat.casesOn i x r, rfl, fun i => ?_, fun n => ?_⟩
  · cases i with
    | zero => exact hstep
    | succ i => exact hr i
  · obtain ⟨m, hm, hacc⟩ := hio n
    exact ⟨m + 1, Nat.le_succ_of_le hm, hacc⟩

/-- `T` is `S`, but the states of `U` accept and are never left. -/
structure Absorbs (S T : System σ) (U : σ → Prop) : Prop where
  step_iff : ∀ v x y, ¬U x → (T.step v x y ↔ S.step v x y)
  stays : ∀ v x y, U x → (T.step v x y ↔ y = x)
  accepting_iff : ∀ x, T.accepting x ↔ U x ∨ S.accepting x

/-- **States that accept every word need no steps of their own.**  If the states of `U` do, staying
in them forever changes no language. -/
theorem Absorbs.acceptsFrom_iff {T : System σ} {U : σ → Prop} (h : S.Absorbs T U)
    (hU : ∀ x, U x → ∀ w, S.AcceptsFrom x w) {x : σ} : T.AcceptsFrom x w ↔ S.AcceptsFrom x w := by
  constructor
  · rintro ⟨r, rfl, hr, hio⟩
    by_cases hends : ∃ i, U (r i)
    · -- up to the first state of `U` the run is one of `S`
      obtain ⟨i, hi⟩ := hends
      clear hio
      induction i generalizing r w with
      | zero => exact hU _ hi w
      | succ i ih =>
        by_cases h0 : U (r 0)
        · exact hU _ h0 w
        · have hstep := (h.step_iff _ _ _ h0).1 (hr 0)
          exact AcceptsFrom.cons hstep (ih (fun j => r (j + 1)) (fun j => hr (j + 1)) hi)
    · have hnever (i : Nat) : ¬U (r i) := fun hi => hends ⟨i, hi⟩
      exact ⟨r, rfl, fun i => (h.step_iff _ _ _ (hnever i)).1 (hr i),
        hio.mono fun i hi => ((h.accepting_iff _).1 hi).resolve_left (hnever i)⟩
  · intro hacc
    refine hacc.simulate (T := T) (R := fun x y => U y ∨ y = x) (fun {v x y x'} hR hstep _ => ?_)
      (fun {x x'} hR haccepting => ?_) (.inr rfl)
    · by_cases hx : U x'
      · exact ⟨x', (h.stays _ _ _ hx).2 rfl, .inl hx⟩
      · obtain rfl := hR.resolve_left hx
        exact ⟨y, (h.step_iff _ _ _ hx).2 hstep, .inr rfl⟩
    · rcases hR with hx | rfl
      · exact (h.accepting_iff x').2 (.inl hx)
      · exact (h.accepting_iff x').2 (.inr haccepting)

end System

end OmegaAutomata
