/-
# How many transitions are counted

A state that is built has no more transitions than its node has edges, and different
states are built for different nodes.  The edges of all nodes together are no more than
`(k + 2) * n` for `n` transitions of the generalized automaton: each is an edge of a
node for each of the counters `0 … k`, and once more of the initial state
(`InRange.sum_edges_le`).

So while the current state still lacks a transition, fewer than that many lead to any one
state (`Draft.references_lt`).
-/

import OmegaAutomata.Proofs.Degeneralize.Building
import OmegaAutomata.Proofs.Generalized.Collected
import Mathlib.Algebra.BigOperators.Fin
import Mathlib.Algebra.BigOperators.Option

namespace OmegaAutomata

namespace Generalized

variable {g : Generalized} {q c : Nat}

/-- All nodes that states can be built for. -/
def nodes (g : Generalized) : Finset Node :=
  Finset.insertNone (Finset.range g.states.size ×ˢ Finset.range (g.sets + 1))

/-- The transitions of all states are counted state by state. -/
theorem sum_transitions (g : Generalized) :
    ∑ q ∈ Finset.range g.states.size, (g.transitions q).length = g.transitionCount := by
  have hsize : g.states.size = g.states.toList.length := Array.length_toList.symm
  rw [transitionCount, List.length_flatMap,
    ← Fin.sum_univ_fun_getElem g.states.toList fun s => s.transitions.length, hsize,
    Finset.sum_range]
  refine Finset.sum_congr rfl fun q _ => ?_
  have hq : q < g.states.size := Nat.lt_of_lt_of_eq q.isLt hsize.symm
  rw [transitions, Array.getElem?_eq_getElem hq]
  rfl

theorem length_edges_some (g : Generalized) (q c : Nat) :
    (g.edges (some (q, c))).length = (g.transitions q).length := by
  simp [edges, heads]

/-- Different initial states have different transitions. -/
theorem InRange.length_edges_none_le (h : g.InRange) :
    (g.edges none).length ≤ g.transitionCount := by
  have hlength : (g.edges none).length = (g.initial.map fun q => (g.transitions q).length).sum := by
    rw [edges, heads, List.length_map, List.length_flatMap]
  rw [hlength, ← sum_transitions, ← List.sum_toFinset _ h.initial_nodup]
  exact Finset.sum_le_sum_of_subset fun q hq =>
    Finset.mem_range.2 (h.initial_lt q (List.mem_toFinset.1 hq))

/-- **All nodes together** have no more than this many edges. -/
theorem InRange.sum_edges_le (h : g.InRange) :
    ∑ n ∈ g.nodes, (g.edges n).length ≤ (g.sets + 2) * g.transitionCount := by
  have hpairs : ∑ n ∈ Finset.range g.states.size ×ˢ Finset.range (g.sets + 1),
      (g.edges (some n)).length = (g.sets + 1) * g.transitionCount := by
    rw [Finset.sum_product_right]
    simp only [length_edges_some, sum_transitions, Finset.sum_const, Finset.card_range,
      smul_eq_mul]
  have hnone := h.length_edges_none_le
  rw [nodes, Finset.sum_insertNone, hpairs, Nat.add_mul, Nat.add_mul]
  omega

/-- Targets are in range. -/
theorem InRange.pair_lt (h : g.InRange) {n : Nat × Nat} (hn : n ∈ g.pairs) :
    n.1 < g.states.size := by
  obtain ⟨ht, -⟩ := List.mem_product.1 hn
  obtain ⟨t, ht, heq⟩ := List.mem_map.1 ht
  obtain ⟨s, hs, ht⟩ := List.mem_flatMap.1 ht
  obtain ⟨q, hq, rfl⟩ := Array.mem_iff_getElem.1 (Array.mem_toList_iff.1 hs)
  rw [← heq]
  refine h.target_lt q t ?_
  rw [transitions, Array.getElem?_eq_getElem hq]
  exact ht

end Generalized

namespace Arena

variable {g : Generalized} {a : Arena} {x y : StateId} {l m : Slot}

/-- **Different states** were built for different nodes. -/
theorem Registered.eq_of_node (h : a.Registered g) (hl : a.slot? x = some l)
    (hm : a.slot? y = some m) (hnode : l.state.node = m.state.node) : x = y := by
  have hx := h.built x l hl
  rw [hnode, h.built y m hm] at hx
  exact (Option.some.inj hx).symm

theorem Registered.node_mem (h : a.Registered g) (hg : g.InRange) (hl : a.slot? x = some l) :
    l.state.node ∈ g.nodes := by
  rw [Generalized.nodes, Finset.mem_insertNone]
  intro n hn
  have hx := h.built x l hl
  rw [Option.mem_def.1 hn] at hx
  have hpair := h.range n x hx
  exact Finset.mem_product.2
    ⟨Finset.mem_range.2 (hg.pair_lt hpair), Finset.mem_range.2 (List.mem_range.1
      (List.mem_product.1 hpair).2)⟩

/-- The node of the state in a slot. -/
def nodeOf (a : Arena) (x : StateId) : Node :=
  (a.slot? x).bind fun l => l.state.node

theorem nodeOf_eq (hl : a.slot? x = some l) : a.nodeOf x = l.state.node := by
  rw [nodeOf, hl, Option.bind_some]

/-- **The nodes of the states** have no more edges than all nodes. -/
theorem Registered.sum_edges_le (h : a.Registered g) (hg : g.InRange) :
    ∑ x ∈ Finset.range a.slots.size, (g.edges (a.nodeOf x)).length ≤
      (g.sets + 2) * g.transitionCount := by
  have hslot (x : StateId) (hx : x ∈ Finset.range a.slots.size) : ∃ l, a.slot? x = some l :=
    Option.isSome_iff_exists.1 (h.isSome x (Finset.mem_range.1 hx))
  have hinj : Set.InjOn a.nodeOf (Finset.range a.slots.size) := by
    intro x hx y hy hxy
    obtain ⟨l, hl⟩ := hslot x hx
    obtain ⟨m, hm⟩ := hslot y hy
    rw [nodeOf_eq hl, nodeOf_eq hm] at hxy
    exact h.eq_of_node hl hm hxy
  rw [← Finset.sum_image (f := fun n => (g.edges n).length) hinj]
  refine Nat.le_trans (Finset.sum_le_sum_of_subset fun n hn => ?_) hg.sum_edges_le
  obtain ⟨x, hx, rfl⟩ := Finset.mem_image.1 hn
  obtain ⟨l, hl⟩ := hslot x hx
  rw [nodeOf_eq hl]
  exact h.node_mem hg hl

theorem references_le (a : Arena) (x : StateId) :
    a.references x ≤ ∑ y ∈ Finset.range a.slots.size, (a.transitionsOf y).length := by
  refine Finset.sum_le_sum fun y _ => ?_
  rw [Transition.countTo, ← List.length_map (f := Transition.target)]
  exact List.count_le_length

end Arena

namespace Construction

open Arena

variable {g : Generalized} {a : Arena} {id : StateId} {l : Slot}
  {es : List (Label × Nat × Nat)}

/-- **There is room for one more transition** as long as the current state lacks one. -/
theorem Draft.references_lt (h : Draft g (some id) es a) (hg : g.InRange)
    (hid : a.slot? id = some l) (hes : es.length < (g.edges l.state.node).length) (x : StateId) :
    a.references x < (g.sets + 2) * g.transitionCount := by
  refine Nat.lt_of_le_of_lt (a.references_le x) (Nat.lt_of_lt_of_le ?_
    (h.registered.sum_edges_le hg))
  refine Finset.sum_lt_sum (fun y hy => ?_)
    ⟨id, Finset.mem_range.2 (lt_size_of_slot? hid), ?_⟩
  · obtain ⟨m, hm⟩ := Option.isSome_iff_exists.1 (h.registered.isSome y (Finset.mem_range.1 hy))
    have hsize := h.sized y m hm
    rw [transitionsOf_eq hm, nodeOf_eq hm]
    split at hsize
    · rename_i hy
      cases hy
      cases hid.symm.trans hm
      exact Nat.le_of_lt (Nat.lt_of_le_of_lt hsize hes)
    · exact hsize
  · have hsize := h.sized id l hid
    rw [if_pos rfl] at hsize
    rw [transitionsOf_eq hid, nodeOf_eq hid]
    exact Nat.lt_of_le_of_lt hsize hes

end Construction

end OmegaAutomata
