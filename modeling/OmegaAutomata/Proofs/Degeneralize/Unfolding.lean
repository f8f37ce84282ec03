/-
# Degeneralization without an arena

The states that a construction stands for are the pairs of a state and a progress
counter, together with an initial state of its own.  `unfolded` is the system of all
of them, with an edge for every transition of the generalized automaton.  It accepts
the same words (`acceptsFrom_unfolded_iff`).

A counter that is complete infinitely often has gone through every acceptance set in
between (`infinitelyOften_mem`).  Conversely, while a counter is not complete it can
only grow, and it does as soon as the set comes up that it waits for
(`infinitelyOften_complete`).  So the counters along a run tell whether the run is accepting,
wherever they start (`complete_infinitelyOften_iff`).
-/

import OmegaAutomata.Generalized.Language
import OmegaAutomata.Proofs.System.Basic

namespace OmegaAutomata

/-! ### Counters along a run -/

namespace Counter

variable {k : Nat} {c : Nat → Nat} {acc : Nat → IndexSet}

/-- The counters along a run whose transitions belong to the sets `acc`. -/
def along (k : Nat) (acc : Nat → IndexSet) (start : Nat) : Nat → Nat
  | 0 => start
  | i + 1 => step k (acc i) (along k acc start i)

theorem restart_of_ne {c : Nat} (h : c ≠ k) : restart k c = c :=
  if_neg h

theorem restart_self : restart k k = 0 :=
  if_pos rfl

theorem advance?_eq_ok {sets : IndexSet} {start c : Nat} :
    advance? k sets start = .ok c ↔ start ≤ k ∧ advance k sets start = c := by
  unfold advance?
  split
  · simp [*]
  · simp [*]

/-- A counter moves on when the set comes up that it waits for. -/
theorem lt_advance {sets : IndexSet} {start : Nat} (h : start < k) (hmem : start ∈ sets) :
    start < advance k sets start := by
  obtain ⟨room, hroom⟩ : ∃ room, k - start = room + 1 := ⟨k - start - 1, by omega⟩
  rw [advance, hroom, climb, if_pos hmem]
  exact le_climb sets room (start + 1)

/-- Counters that begin in `0 … k` stay there. -/
theorem le_of_steps (h0 : c 0 ≤ k) (hstep : ∀ i, c (i + 1) = step k (acc i) (c i)) (i : Nat) :
    c i ≤ k := by
  induction i with
  | zero => exact h0
  | succ i ih =>
    rw [hstep]
    exact step_le (acc i) ih

/-- A counter that gets beyond `j` after it was complete has seen set `j`. -/
theorem exists_mem_between (hstep : ∀ i, c (i + 1) = step k (acc i) (c i)) {j n m : Nat}
    (hn : c n = k) (hnm : n < m) (hm : j < c m) (hj : j < k) : ∃ i, n ≤ i ∧ j ∈ acc i := by
  induction m, hnm using Nat.le_induction with
  | base =>
    rw [hstep, step, hn, restart_self] at hm
    exact ⟨n, Nat.le_refl n, mem_of_lt_climb (Nat.zero_le j) hm⟩
  | succ m hle ih =>
    by_cases hlt : j < c m
    · exact ih hlt
    · rw [hstep, step, restart_of_ne (by omega)] at hm
      exact ⟨m, by omega, mem_of_lt_climb (Nat.le_of_not_lt hlt) hm⟩

/-- **A counter that is complete infinitely often** has seen every set infinitely often. -/
theorem infinitelyOften_mem (hstep : ∀ i, c (i + 1) = step k (acc i) (c i))
    (h : InfinitelyOften fun i => c i = k) {j : Nat} (hj : j < k) :
    InfinitelyOften fun i => j ∈ acc i := by
  intro N
  obtain ⟨n, hn, hnk⟩ := h N
  obtain ⟨m, hm, hmk⟩ := h (n + 1)
  obtain ⟨i, hi, hmem⟩ := exists_mem_between hstep hnk hm (hmk ▸ hj) hj
  exact ⟨i, Nat.le_trans hn hi, hmem⟩

/-- **If every set is seen infinitely often**, a counter is complete infinitely often. -/
theorem infinitelyOften_complete (h0 : c 0 ≤ k) (hstep : ∀ i, c (i + 1) = step k (acc i) (c i))
    (h : ∀ j < k, InfinitelyOften fun i => j ∈ acc i) : InfinitelyOften fun i => c i = k := by
  intro N
  by_contra hnever
  have hne (i : Nat) (hi : N ≤ i) : c i ≠ k := fun hik => hnever ⟨i, hi, hik⟩
  have hle (i : Nat) : c i ≤ k := le_of_steps h0 hstep i
  have hadvance (i : Nat) (hi : N ≤ i) : c (i + 1) = advance k (acc i) (c i) := by
    rw [hstep, step, restart_of_ne (hne i hi)]
  have hmono (i j : Nat) (hi : N ≤ i) (hij : i ≤ j) : c i ≤ c j := by
    induction j, hij using Nat.le_induction with
    | base => exact Nat.le_refl _
    | succ j hij ih =>
      rw [hadvance j (Nat.le_trans hi hij)]
      exact Nat.le_trans ih (le_advance k (acc j) (c j))
  -- the counter gets as far as any number up to `k`
  have hreach (m : Nat) (hm : m ≤ k) : ∃ i, N ≤ i ∧ m ≤ c i := by
    induction m with
    | zero => exact ⟨N, Nat.le_refl N, Nat.zero_le _⟩
    | succ m ih =>
      obtain ⟨i, hi, hmi⟩ := ih (Nat.le_of_succ_le hm)
      obtain ⟨j, hij, hmem⟩ := h m hm i
      have hj : N ≤ j := Nat.le_trans hi hij
      have hmj : m ≤ c j := Nat.le_trans hmi (hmono i j hi hij)
      by_cases heq : c j = m
      · refine ⟨j + 1, Nat.le_succ_of_le hj, ?_⟩
        rw [hadvance j hj, heq]
        exact lt_advance hm hmem
      · exact ⟨j, hj, by omega⟩
  obtain ⟨i, hi, hki⟩ := hreach k (Nat.le_refl k)
  exact hne i hi (Nat.le_antisymm (hle i) hki)

/-- **Counters tell whether a run is accepting.**  From any start in `0 … k`, and whatever sets the
transitions belong to, no counter leaves `0 … k`, so none is refused as a start.  Counters are
complete again and again exactly if each of the `k` sets comes up again and again. -/
theorem complete_infinitelyOften_iff {start : Nat} (h : start ≤ k) (acc : Nat → IndexSet) :
    (∀ i, along k acc start i ≤ k ∧
      advance? k (acc i) (restart k (along k acc start i)) = .ok (along k acc start (i + 1))) ∧
    (InfinitelyOften (fun i => along k acc start i = k) ↔
      ∀ j < k, InfinitelyOften fun i => j ∈ acc i) := by
  have hle (i : Nat) : along k acc start i ≤ k := le_of_steps h (fun _ => rfl) i
  refine ⟨fun i => ⟨hle i, advance?_eq_ok.2 ⟨restart_le (hle i), rfl⟩⟩, fun hio j hj => ?_, ?_⟩
  · exact infinitelyOften_mem (fun _ => rfl) hio hj
  · exact infinitelyOften_complete h fun _ => rfl

/-- Two sets that take turns complete a counter again and again that first waits for the second. -/
theorem complete_infinitelyOften_alternating :
    1 ≤ 2 ∧ InfinitelyOften fun i => along 2 (fun i => .singleton (i % 2)) 1 i = 2 := by
  refine ⟨by decide, (complete_infinitelyOften_iff (by decide) _).2.2 fun j hj N => ?_⟩
  exact ⟨2 * N + j, by omega, List.mem_singleton.2 (by omega)⟩

end Counter

/-! ### The unfolded system -/

/-- A state that a construction stands for: a state of the generalized automaton with a counter,
or nothing for the initial state. -/
abbrev Node := Option (Nat × Nat)

/-- The counter of a state. -/
def Node.counter : Node → Nat
  | none => 0
  | some n => n.2

namespace Generalized

variable {g : Generalized} {w : Word} {x y : Node}

/-- The states of the generalized automaton whose transitions a state has. -/
def heads (g : Generalized) : Node → List Nat
  | none => g.initial
  | some n => [n.1]

/-- What becomes of a transition when it is taken with the counter `start`: its label, its target
and the new counter. -/
def edge (g : Generalized) (start : Nat) (t : Transition) : Label × Nat × Nat :=
  (t.label, t.target, Counter.advance g.sets t.acceptance start)

/-- The edges that leave a state. -/
def edges (g : Generalized) (x : Node) : List (Label × Nat × Nat) :=
  ((g.heads x).flatMap g.transitions).map (g.edge (Counter.restart g.sets x.counter))

/-- The initial state's counter starts from zero. -/
theorem edges_none : g.edges none = (g.initial.flatMap g.transitions).map (g.edge 0) := by
  rw [edges, heads, Node.counter, Counter.restart, ite_self]

theorem edges_some (n : Nat × Nat) :
    g.edges (some n) = (g.transitions n.1).map (g.edge (Counter.restart g.sets n.2)) := by
  rw [edges, heads, List.flatMap_singleton, Node.counter]

/-- The system of all states that a construction can come to. -/
def unfolded (g : Generalized) : System Node where
  step v x y := ∃ e ∈ g.edges x, e.1.holds v = true ∧ y = some e.2
  accepting x := x.counter = g.sets

theorem step_unfolded_iff {v : IndexSet} : g.unfolded.step v x y ↔
    ∃ q ∈ g.heads x, ∃ t ∈ g.transitions q, t.label.holds v = true ∧
      y = some (t.target, Counter.step g.sets t.acceptance x.counter) := by
  simp only [unfolded, edges, List.mem_map, List.mem_flatMap]
  constructor
  · rintro ⟨e, ⟨t, ⟨q, hq, ht⟩, rfl⟩, hholds, hy⟩
    exact ⟨q, hq, t, ht, hholds, hy⟩
  · rintro ⟨q, hq, t, ht, hholds, hy⟩
    exact ⟨_, ⟨t, ⟨q, hq, ht⟩, rfl⟩, hholds, hy⟩

/-- **The unfolded system accepts what the automaton accepts.** -/
theorem acceptsFrom_unfolded_iff : g.unfolded.AcceptsFrom none w ↔ g.Accepts w := by
  constructor
  · rintro ⟨r, h0, hr, hio⟩
    have hstep : ∀ i, ∃ q ∈ g.heads (r i), ∃ t ∈ g.transitions q, t.label.holds (w i) = true ∧
        r (i + 1) = some (t.target, Counter.step g.sets t.acceptance (r i).counter) :=
      fun i => step_unfolded_iff.1 (hr i)
    choose q hq t ht hholds hnext using hstep
    have hcounter (i : Nat) : (r (i + 1)).counter =
        Counter.step g.sets (t i).acceptance (r i).counter := by rw [hnext i]; rfl
    refine ⟨⟨q, t, ?_, ht, hholds, fun i => ?_⟩, fun j hj => ?_⟩
    · have hstart := hq 0
      rwa [h0] at hstart
    · have hhead := hq (i + 1)
      rw [hnext i] at hhead
      exact List.mem_singleton.1 hhead
    · exact Counter.infinitelyOften_mem hcounter hio hj
  · rintro ⟨r, hr⟩
    let c : Nat → Nat := Counter.along g.sets (fun i => (r.taken i).acceptance) 0
    let s : Nat → Node := fun i => Nat.casesOn i none fun i => some (r.state (i + 1), c (i + 1))
    have hcounter (i : Nat) : (s i).counter = c i := by cases i <;> rfl
    have hhead (i : Nat) : r.state i ∈ g.heads (s i) := by
      cases i with
      | zero => exact r.start
      | succ i => exact List.mem_singleton_self _
    refine ⟨s, rfl, fun i => ?_, ?_⟩
    · refine step_unfolded_iff.2 ⟨r.state i, hhead i, r.taken i, r.taken_mem i, r.holds i, ?_⟩
      rw [← r.next i, hcounter i]
      rfl
    · refine (Counter.infinitelyOften_complete (c := c) (Nat.zero_le _) (fun _ => rfl) hr).mono
        fun i hi => ?_
      exact (hcounter i).trans hi

/-- What a state accepts on its own it accepts with every counter. -/
theorem acceptsFrom_unfolded_of_accepts {q c : Nat} (hc : c ≤ g.sets)
    (h : ({ g with initial := [q] } : Generalized).Accepts w) :
    g.unfolded.AcceptsFrom (some (q, c)) w := by
  obtain ⟨r, hr⟩ := h
  let counters : Nat → Nat := Counter.along g.sets (fun i => (r.taken i).acceptance) c
  have hstart : r.state 0 = q := List.mem_singleton.1 r.start
  refine ⟨fun i => some (r.state i, counters i), congrArg (fun q => some (q, c)) hstart,
    fun i => ?_, ?_⟩
  · refine step_unfolded_iff.2
      ⟨r.state i, List.mem_singleton_self _, r.taken i, r.taken_mem i, r.holds i, ?_⟩
    rw [← r.next i]
    rfl
  · exact Counter.infinitelyOften_complete (c := counters) hc (fun _ => rfl) hr

end Generalized

end OmegaAutomata
