/-
# Traces of an automaton over a lasso

A trace is a sequence of states and of the acceptance sets of the moves between
them that reads the infinite word of a lasso.  The position that a trace has reached
walks through the lasso (`Lasso.position`), and the letter read there is that of the
infinite word (`Lasso.letter_position`).

`Explored.exists_cycles` joins exploration and cycles: every trace sees in the end
only what some cycle holds, and every cycle has a trace that sees all of it
infinitely often.
-/

import OmegaAutomata.Proofs.Product.Cycles
import OmegaAutomata.Proofs.System.Basic

namespace OmegaAutomata

/-! ### Positions -/

namespace Lasso

variable {w : Lasso}

/-- The position after `i` letters. -/
def position (w : Lasso) : Nat → Fin w.size
  | 0 => w.first
  | i + 1 => w.next (w.position i)

/-- A position in the stem is its own number, and the cycle comes again and again. -/
theorem position_val (w : Lasso) (i : Nat) :
    (w.position i).val =
      if i < w.stem.size then i else w.stem.size + (i - w.stem.size) % w.cycle.size := by
  have hpos := w.cycle_pos
  induction i with
  | zero =>
    have hfirst : (w.position 0).val = 0 := rfl
    rw [hfirst, Nat.zero_sub, Nat.zero_mod]
    split <;> omega
  | succ i ih =>
    have hnext : (w.position (i + 1)).val =
        if (w.position i).val + 1 < w.stem.size + w.cycle.size then (w.position i).val + 1
        else w.stem.size := rfl
    rw [hnext, ih]
    by_cases hi : i < w.stem.size
    · rw [if_pos hi, if_pos (by omega)]
      by_cases hlast : i + 1 < w.stem.size
      · rw [if_pos hlast]
      · have hzero : i + 1 - w.stem.size = 0 := by omega
        rw [if_neg hlast, hzero, Nat.zero_mod]
        omega
    · have hsucc : i + 1 - w.stem.size = i - w.stem.size + 1 := by omega
      have hnot : ¬i + 1 < w.stem.size := by omega
      rw [if_neg hi, if_neg hnot, hsucc, ← Nat.mod_add_mod]
      by_cases hlast : (i - w.stem.size) % w.cycle.size + 1 < w.cycle.size
      · rw [if_pos (by omega), Nat.mod_eq_of_lt hlast, Nat.add_assoc]
      · have hlt := Nat.mod_lt (i - w.stem.size) hpos
        have hsize : (i - w.stem.size) % w.cycle.size + 1 = w.cycle.size := by omega
        rw [if_neg (by omega), hsize, Nat.mod_self, Nat.add_zero]

/-- The letter at the position after `i` letters is letter `i` of the infinite word. -/
theorem letter_position (w : Lasso) (i : Nat) : w.letter (w.position i) = w.word i := by
  have hval := w.position_val i
  have hlt := Nat.mod_lt (i - w.stem.size) w.cycle_pos
  unfold letter word
  by_cases hi : i < w.stem.size
  · rw [if_pos hi] at hval
    rw [dif_pos (by omega), if_pos hi]
    simp [hval, hi]
  · rw [if_neg hi] at hval
    rw [dif_neg (by omega), if_neg hi]
    simp [hval, hlt]

end Lasso

namespace Product

variable {σ : Type} {w : Lasso} {moves : σ → IndexSet → Except Fault (List (Move σ))}
  {roots : List σ}

/-- A run over the infinite word of a lasso: the state before each letter, and the acceptance sets
of the move on it. -/
structure Trace (w : Lasso) (moves : σ → IndexSet → Except Fault (List (Move σ)))
    (roots : List σ) (s : Nat → σ) (a : Nat → IndexSet) : Prop where
  start : s 0 ∈ roots
  move : ∀ i, ∃ out, moves (s i) (w.word i) = .ok out ∧ ⟨s (i + 1), a i⟩ ∈ out

/-! ### From traces to cycles -/

/-- A trace walks through the product. -/
theorem Trace.step {s : Nat → σ} {a : Nat → IndexSet} (h : Trace w moves roots s a) (i : Nat) :
    Step moves (s i, w.position i) (a i) (s (i + 1), w.position (i + 1)) := by
  obtain ⟨out, hout, hmem⟩ := h.move i
  exact ⟨rfl, out, by rw [w.letter_position]; exact hout, hmem⟩

/-- A trace is a path through the explored product. -/
theorem Trace.exists_isPath {p : Product σ w} (hp : p.Explored moves roots) {s : Nat → σ}
    {a : Nat → IndexSet} (h : Trace w moves roots s a) :
    ∃ f, p.IsPath f ∧ ∀ i, p.nodes[(f i).1]? = some (s i, w.position i) ∧
      (f i).2.acceptance = a i := by
  have hnode : ∀ i, ∃ v : Nat, p.nodes[v]? = some (s i, w.position i) := by
    intro i
    induction i with
    | zero => exact hp.root _ h.start
    | succ i ih =>
      obtain ⟨v, hv⟩ := ih
      obtain ⟨e, -, -, htarget⟩ := hp.exists_edge hv (h.step i)
      exact ⟨_, htarget⟩
  choose v hv using hnode
  choose e he using fun i => hp.exists_edge (hv i) (h.step i)
  exact ⟨fun i => (v i, e i),
    fun i => ⟨(he i).1, hp.injective (he i).2.2 (hv (i + 1))⟩, fun i => ⟨hv i, (he i).2.1⟩⟩

/-! ### From cycles to traces -/

/-- A path can be put before an infinite walk through the product. -/
theorem exists_prepend {x y : σ × Fin w.size}
    (hxy : Relation.ReflTransGen (fun x y => ∃ a, Step moves x a y) x y)
    {xs : Nat → σ × Fin w.size} {a : Nat → IndexSet} (h0 : xs 0 = y)
    (hxs : ∀ i, Step moves (xs i) (a i) (xs (i + 1))) :
    ∃ (ys : Nat → σ × Fin w.size) (b : Nat → IndexSet), ys 0 = x ∧
      (∀ i, Step moves (ys i) (b i) (ys (i + 1))) ∧
      ∃ n, ∀ i, ys (i + n) = xs i ∧ b (i + n) = a i := by
  induction hxy using Relation.ReflTransGen.head_induction_on with
  | refl => exact ⟨xs, a, h0, hxs, 0, fun _ => ⟨rfl, rfl⟩⟩
  | @head x z hstep _ ih =>
    obtain ⟨c, hstep⟩ := hstep
    obtain ⟨ys, b, rfl, hys, n, hn⟩ := ih
    refine ⟨fun i => Nat.casesOn i x ys, fun i => Nat.casesOn i c b, rfl, fun i => ?_, n + 1, hn⟩
    cases i with
    | zero => exact hstep
    | succ i => exact hys i

/-- An infinite walk through the product from a root is a trace. -/
theorem trace_of_steps {s : σ} (hs : s ∈ roots) {xs : Nat → σ × Fin w.size} {a : Nat → IndexSet}
    (h0 : xs 0 = (s, w.first)) (hxs : ∀ i, Step moves (xs i) (a i) (xs (i + 1))) :
    Trace w moves roots (fun i => (xs i).1) a := by
  have hpos : ∀ i, (xs i).2 = w.position i := fun i => by
    induction i with
    | zero => rw [h0]; rfl
    | succ i ih => rw [(hxs i).1, ih]; rfl
  refine ⟨by rw [h0]; exact hs, fun i => ?_⟩
  obtain ⟨-, out, hout, hmem⟩ := hxs i
  rw [hpos, w.letter_position] at hout
  exact ⟨out, hout, hmem⟩

/-- A path through the explored product is the end of a trace. -/
theorem IsPath.exists_trace {p : Product σ w} (hp : p.Explored moves roots)
    {f : Nat → Nat × Edge} (hf : p.IsPath f) :
    ∃ s a, Trace w moves roots s a ∧
      ∃ n, ∀ i, (∃ q, p.nodes[(f i).1]? = some (s (i + n), q)) ∧
        a (i + n) = (f i).2.acceptance := by
  have hnode : ∀ i, ∃ x, p.nodes[(f i).1]? = some x := fun i =>
    ⟨_, Array.getElem?_eq_getElem (hp.size_eq ▸ lt_of_mem_out (hf i).1)⟩
  choose xs hxs using hnode
  have hstep : ∀ i, Step moves (xs i) (f i).2.acceptance (xs (i + 1)) := fun i => by
    obtain ⟨y, hy, hstep⟩ := hp.edge (hxs i) _ (hf i).1
    rw [(hf i).2, hxs (i + 1)] at hy
    cases Option.some.inj hy
    exact hstep
  obtain ⟨s, hs, hpath⟩ := hp.reached (hxs 0)
  obtain ⟨ys, b, hy0, hys, n, hn⟩ := exists_prepend hpath rfl hstep
  refine ⟨_, b, trace_of_steps hs hy0 hys, n, fun i => ⟨⟨(xs i).2, ?_⟩, (hn i).2⟩⟩
  rw [(hn i).1]
  exact hxs i

/-! ### Both -/

/-- **Traces and cycles.**  A cycle list exists for an explored product.  In the end, every trace
stays in one of the cycles and sees only acceptance sets of this cycle.  For every cycle there is
a trace that sees each of its acceptance sets and visits each of its nodes infinitely often. -/
theorem Explored.exists_cycles {p : Product σ w} (hp : p.Explored moves roots) :
    ∃ cycs, p.cycles = .ok cycs ∧
      (∀ s a, Trace w moves roots s a → ∃ cyc ∈ cycs, ∃ N, ∀ i, N ≤ i →
        (∃ v ∈ cyc.nodes, ∃ q, p.nodes[v]? = some (s i, q)) ∧
          ∀ j, j ∈ a i → j ∈ cyc.acceptance) ∧
      ∀ cyc ∈ cycs, ∃ s a, Trace w moves roots s a ∧
        (∀ v ∈ cyc.nodes, InfinitelyOften fun i => ∃ q, p.nodes[v]? = some (s i, q)) ∧
          ∀ j ∈ cyc.acceptance, InfinitelyOften fun i => j ∈ a i := by
  obtain ⟨cs, cycs, hdec, hcycs, hsound, hcomplete⟩ := Product.exists_cycles hp.size_eq
    fun v e he => by
      have hlt : v < p.nodes.size := hp.size_eq ▸ lt_of_mem_out he
      obtain ⟨y, hy, -⟩ := hp.edge (Array.getElem?_eq_getElem hlt) e he
      exact (Array.getElem?_eq_some_iff.1 hy).1
  refine ⟨cycs, hcycs, fun s a htrace => ?_, fun cyc hcyc => ?_⟩
  · obtain ⟨f, hf, hnode⟩ := htrace.exists_isPath hp
    obtain ⟨c, N, hinner⟩ := hf.exists_inner hp.size_eq hdec
    obtain ⟨cyc, hcyc, his⟩ := hcomplete c _ _ (hinner N (Nat.le_refl N))
    refine ⟨cyc, hcyc, N, fun i hi => ⟨⟨(f i).1, ?_, _, (hnode i).1⟩, fun j hj => ?_⟩⟩
    · exact (his.mem_nodes _).2 (hinner i hi).2.1
    · exact (his.mem_acceptance j).2 ⟨_, _, hinner i hi, (hnode i).2 ▸ hj⟩
  · obtain ⟨c, his⟩ := hsound cyc hcyc
    obtain ⟨v, e, hve⟩ := his.exists_inner
    obtain ⟨f, hf, -, hio⟩ := his.exists_isPath hdec ((his.mem_nodes v).2 hve.2.1)
    obtain ⟨s, a, htrace, n, hn⟩ := hf.exists_trace hp
    -- what the path sees infinitely often, the trace sees infinitely often
    have hseen {P : Nat → Prop} {u : Nat} {e : Edge} (hue : p.Inner cs c u e)
        (hP : ∀ i, f i = (u, e) → P (i + n)) : InfinitelyOften P := fun m => by
      obtain ⟨i, hi, hfi⟩ := hio u e hue m
      exact ⟨i + n, Nat.le_trans hi (Nat.le_add_right i n), hP i hfi⟩
    refine ⟨s, a, htrace, fun u hu => ?_, fun j hj => ?_⟩
    · obtain ⟨e', hue⟩ := his.exists_inner_from hdec ((his.mem_nodes u).1 hu)
      refine hseen hue fun i hfi => ?_
      have hnode := (hn i).1
      rwa [hfi] at hnode
    · obtain ⟨u, e', hue, hj⟩ := (his.mem_acceptance j).1 hj
      refine hseen hue fun i hfi => ?_
      rw [(hn i).2, hfi]
      exact hj

end Product

end OmegaAutomata
