/-
# Progress counters

A run of a generalized automaton is accepting when it takes transitions of each
of the `k` acceptance sets, numbered from `0`, infinitely often.  A counter in
`0 … k` follows this with one number: `c < k` waits for set `c`, and `k` says
that all sets were seen in order.  Once it has reached `k` the counter starts
again from `0`.
-/

import OmegaAutomata.Fault
import OmegaAutomata.IndexSet.Basic

namespace OmegaAutomata

namespace Counter

/-- Moves on from `c` while `c` is in `sets`, for at most `room` steps. -/
def climb (sets : IndexSet) : (room : Nat) → (c : Nat) → Nat
  | 0, c => c
  | room + 1, c => if c ∈ sets then climb sets room (c + 1) else c

/-- The counter after a transition that belongs to `sets`, from `start` and up to `k`: a single
transition may satisfy several sets in a row. -/
def advance (k : Nat) (sets : IndexSet) (start : Nat) : Nat :=
  climb sets (k - start) start

/-- Refuses to start beyond `k`. -/
def advance? (k : Nat) (sets : IndexSet) (start : Nat) : Except Fault Nat :=
  if start ≤ k then .ok (advance k sets start) else .error .counterPastAccept

/-- The counter that leaving a state starts from: a completed one begins again. -/
def restart (k : Nat) (c : Nat) : Nat :=
  if c = k then 0 else c

/-- The counter of the successor, when a transition that belongs to `sets` leaves a state with
counter `c`. -/
def step (k : Nat) (sets : IndexSet) (c : Nat) : Nat :=
  advance k sets (restart k c)

/-! ### Bounds

A climb ends at the first number that is not in `sets`, or where its room ends. -/

theorem le_climb (sets : IndexSet) (room c : Nat) : c ≤ climb sets room c := by
  induction room generalizing c with
  | zero => exact Nat.le_refl c
  | succ room ih =>
    unfold climb
    split
    · exact Nat.le_trans (Nat.le_succ c) (ih (c + 1))
    · exact Nat.le_refl c

theorem climb_le (sets : IndexSet) (room c : Nat) : climb sets room c ≤ c + room := by
  induction room generalizing c with
  | zero => exact Nat.le_refl c
  | succ room ih =>
    unfold climb
    split
    · have := ih (c + 1)
      omega
    · exact Nat.le_add_right c _

/-- A climb passes only over members. -/
theorem mem_of_lt_climb {sets : IndexSet} {room c j : Nat} (hc : c ≤ j)
    (hj : j < climb sets room c) : j ∈ sets := by
  induction room generalizing c with
  | zero => exact absurd hj (Nat.not_lt.2 hc)
  | succ room ih =>
    unfold climb at hj
    split at hj
    · rename_i h
      obtain rfl | hlt := Nat.eq_or_lt_of_le hc
      · exact h
      · exact ih hlt hj
    · exact absurd hj (Nat.not_lt.2 hc)

/-- A climb with room left ends at a number that is not a member. -/
theorem climb_not_mem {sets : IndexSet} {room c : Nat} (h : climb sets room c < c + room) :
    climb sets room c ∉ sets := by
  induction room generalizing c with
  | zero => exact absurd h (Nat.lt_irrefl c)
  | succ room ih =>
    unfold climb at h ⊢
    split
    · rename_i hc
      rw [if_pos hc] at h
      exact ih (by omega)
    · assumption

theorem le_advance (k : Nat) (sets : IndexSet) (start : Nat) : start ≤ advance k sets start :=
  le_climb sets (k - start) start

theorem advance_le {k start : Nat} (sets : IndexSet) (h : start ≤ k) : advance k sets start ≤ k :=
  Nat.le_trans (climb_le sets (k - start) start) (Nat.le_of_eq (Nat.add_sub_cancel' h))

theorem restart_le {k c : Nat} (h : c ≤ k) : restart k c ≤ k := by
  unfold restart
  split
  · exact Nat.zero_le k
  · exact h

/-- A counter stays in `0 … k`. -/
theorem step_le {k c : Nat} (sets : IndexSet) (h : c ≤ k) : step k sets c ≤ k :=
  advance_le sets (restart_le h)

end Counter

end OmegaAutomata
