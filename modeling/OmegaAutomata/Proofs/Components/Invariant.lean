/-
# What a search for strong components keeps

The stack is cut into parts, one for each call (`Search.Part`): the nodes that were met
while the call was the current one, and those of later calls that were left since.  The
nodes of a part reach one another, and those of a lower part reach those of an upper
one.  Every edge out of a part is still pending, or leads to a completed component, or
leads to a node on the stack whose rank is no less than the low link of the part's own
node.  The completed components are closed under edges, which only lead to components
with the same or a smaller number.

`Search.Invariant` says this of a search between two steps, and `Search.Tracked` also of
one that is dealing with an edge or a root.  This module has what follows from it at one
time; how the steps keep it is shown in the next one.
-/

import OmegaAutomata.Components
import Mathlib.Data.Finset.Card
import Mathlib.Data.Fintype.Basic
import Mathlib.Data.List.Dedup
import Mathlib.Logic.Relation

namespace OmegaAutomata

namespace Search

variable {n : Nat} {successors : Nat → Except Fault (List Nat)} {roots : List Nat}

/-! ### Vectors -/

@[simp] theorem get_replicate {α : Type} (x : α) (v : Fin n) : (Vector.replicate n x).get v = x :=
  Vector.getElem_replicate v.isLt

/-- The entries of a vector after one was set. -/
theorem get_set {α : Type} (xs : Vector α n) (v w : Fin n) (x : α) :
    (xs.set v x v.isLt).get w = if w = v then x else xs.get w := by
  refine (Vector.getElem_set v.isLt w.isLt).trans ?_
  simp only [Fin.ext_iff, eq_comm]
  rfl

/-! ### Parts of the stack -/

/-- Whether an edge leads from `v` to `w`. -/
def Edge (successors : Nat → Except Fault (List Nat)) (v w : Nat) : Prop :=
  ∃ out, successors v = .ok out ∧ w ∈ out

/-- Whether a path, which can be empty, leads from one node to another. -/
abbrev Reaches (successors : Nat → Except Fault (List Nat)) : Nat → Nat → Prop :=
  Relation.ReflTransGen (Edge successors)

/-- A call and its part of the stack.  `rank` and `low` are the rank and the low link of its
node. -/
structure Part (n : Nat) where
  frame : Frame n
  /-- The edges of the call that were not dealt with yet. -/
  pending : List Nat
  rank : Nat
  low : Nat
  /-- The nodes of later calls, which were left before their component was complete. -/
  left : List (Fin n)

/-- The nodes of a part, the latest first. -/
def Part.nodes (g : Part n) : List (Fin n) :=
  g.left ++ [g.frame.node]

/-- Whether nothing is left to do about an edge to `w` out of a part with the low link `low`. -/
def Settled (s : Search n) (low w : Nat) : Prop :=
  ∃ u : Fin n, u.val = w ∧
    ((∃ c, s.component.get u = some c) ∨ u ∈ s.stack ∧ ∃ r, s.rank.get u = some r ∧ low ≤ r)

/-- What is known about a part of the stack. -/
structure Sound (successors : Nat → Except Fault (List Nat)) (s : Search n) (g : Part n) :
    Prop where
  rank_eq : s.rank.get g.frame.node = some g.rank
  low_eq : s.lowlink.get g.frame.node = some g.low
  low_le : g.low ≤ g.rank
  low_reached : ∃ u ∈ s.stack, s.rank.get u = some g.low ∧ Reaches successors g.frame.node u
  connected : ∀ x ∈ g.nodes, ∀ y ∈ g.nodes, Reaches successors x y
  pending_edge : ∀ w ∈ g.pending, Edge successors g.frame.node w
  edges : ∀ x ∈ g.nodes, ∀ w, Edge successors x w → w ∈ g.pending ∨ s.Settled g.low w

/-- Whether the nodes `lower` of the stack reach the nodes `upper`. -/
def Below (successors : Nat → Except Fault (List Nat)) (upper lower : List (Fin n)) : Prop :=
  ∀ x ∈ lower, ∀ y ∈ upper, Reaches successors x y

/-- The nodes of a component. -/
def members (component : Vector (Option Nat) n) (c : Nat) : Finset (Fin n) :=
  Finset.univ.filter fun v => component.get v = some c

/-- What is known about the components that are completed. -/
structure Completed (successors : Nat → Except Fault (List Nat))
    (component : Vector (Option Nat) n) (sizes : Array Nat) : Prop where
  lt_size : ∀ (v : Fin n) c, component.get v = some c → c < sizes.size
  edge : ∀ (v : Fin n) w c, component.get v = some c → Edge successors v w →
    ∃ u : Fin n, u.val = w ∧ ∃ d ≤ c, component.get u = some d
  reaches : ∀ (v w : Fin n) c, component.get v = some c → component.get w = some c →
    Reaches successors v w
  sizes_eq : ∀ c k : Nat, sizes[c]? = some k → 0 < k ∧ k = (members component c).card

/-- What is known about the nodes that were met and the roots, of which `todo` are still to be
tried. -/
structure Reached (successors : Nat → Except Fault (List Nat)) (roots : List Nat)
    (rank : Vector (Option Nat) n) (todo : List Nat) : Prop where
  of_met : ∀ (v : Fin n) r, rank.get v = some r → ∃ x ∈ roots, Reaches successors x v
  of_todo : ∀ x ∈ todo, x ∈ roots
  root_cases : ∀ x ∈ roots, x ∈ todo ∨ ∃ v : Fin n, v.val = x ∧ ∃ r, rank.get v = some r

/-- What is known about a search from `roots` whose stack has the parts `path`, the current call's
first.  The roots in `todo` and the pending edges of the parts are those that were not dealt with
yet. -/
structure Tracked (successors : Nat → Except Fault (List Nat)) (roots todo : List Nat)
    (path : List (Part n)) (s : Search n) : Prop where
  calls_eq : s.calls = path.map Part.frame
  stack_eq : s.stack = path.flatMap Part.nodes
  ranked : ∀ v ∈ s.stack, ∃ r, s.rank.get v = some r ∧ r < s.counter
  sorted : s.stack.Pairwise fun u l => ∀ r k, s.rank.get u = some r → s.rank.get l = some k → k < r
  onStack_iff : ∀ v : Fin n, s.onStack.get v = true ↔ v ∈ s.stack
  met_cases : ∀ (v : Fin n) r, s.rank.get v = some r → v ∈ s.stack ∨ ∃ c, s.component.get v = some c
  of_component : ∀ (v : Fin n) c, s.component.get v = some c →
    v ∉ s.stack ∧ ∃ r, s.rank.get v = some r
  sound : ∀ g ∈ path, Sound successors s g
  below : (path.map Part.nodes).Pairwise (Below successors)
  completed : Completed successors s.component s.sizes
  reached : Reached successors roots s.rank todo

/-- **What is known between two steps**: the roots and edges that were not dealt with yet are those
that are still to be followed. -/
structure Invariant (successors : Nat → Except Fault (List Nat)) (roots : List Nat)
    (path : List (Part n)) (s : Search n) : Prop
    extends Tracked successors roots s.roots path s where
  pending_eq : ∀ g ∈ path, g.pending = g.frame.pending

theorem mem_members {component : Vector (Option Nat) n} {c : Nat} {v : Fin n} :
    v ∈ members component c ↔ component.get v = some c := by
  rw [members, Finset.mem_filter, and_iff_right (Finset.mem_univ v)]

/-- A search that has met nothing knows nothing. -/
theorem start_invariant (n : Nat) (roots : List Nat) :
    Invariant successors roots [] (start n roots) where
  calls_eq := rfl
  stack_eq := rfl
  ranked _ hv := absurd hv List.not_mem_nil
  sorted := .nil
  onStack_iff v := by simp [start]
  met_cases v r hv := by simp [start] at hv
  of_component v c hv := by simp [start] at hv
  sound _ hg := absurd hg List.not_mem_nil
  below := .nil
  completed := ⟨fun v c hv => by simp [start] at hv, fun v w c hv => by simp [start] at hv,
    fun v w c hv => by simp [start] at hv, fun c k hk => by simp [start] at hk⟩
  reached := ⟨fun v r hv => by simp [start] at hv, fun _ hx => hx, fun _ hx => .inl hx⟩
  pending_eq _ hg := absurd hg List.not_mem_nil

/-! ### Ranks on the stack -/

namespace Tracked

variable {todo : List Nat} {path rest : List (Part n)} {s : Search n} {g l : Part n}
  {u v : Fin n} {r : Nat}

theorem mem_stack (h : Tracked successors roots todo path s) :
    v ∈ s.stack ↔ ∃ g ∈ path, v ∈ g.nodes := by
  rw [h.stack_eq, List.mem_flatMap]

theorem node_mem_stack (h : Tracked successors roots todo path s) (hg : g ∈ path) :
    g.frame.node ∈ s.stack :=
  h.mem_stack.2 ⟨g, hg, List.mem_append_right _ (List.mem_singleton_self _)⟩

/-- A node that was not met is neither on the stack nor in a component. -/
theorem of_rank_eq_none (h : Tracked successors roots todo path s) (hv : s.rank.get v = none) :
    v ∉ s.stack ∧ s.component.get v = none := by
  constructor
  · intro hmem
    obtain ⟨r, hr, -⟩ := h.ranked v hmem
    exact absurd (hv.symm.trans hr) (by simp)
  · refine Option.eq_none_iff_forall_not_mem.2 fun c hc => ?_
    obtain ⟨-, r, hr⟩ := h.of_component v c hc
    exact absurd (hv.symm.trans hr) (by simp)

theorem stack_nodup (h : Tracked successors roots todo path s) : s.stack.Nodup := by
  refine h.sorted.imp_of_mem fun {x y} hx _ hlt heq => ?_
  obtain ⟨r, hr, -⟩ := h.ranked x hx
  exact Nat.lt_irrefl r (hlt r r hr (heq ▸ hr))

/-- **No node of a part was met before the part's own node.** -/
theorem rank_le (h : Tracked successors roots todo path s) (hg : g ∈ path) (hv : v ∈ g.nodes)
    (hr : s.rank.get v = some r) : g.rank ≤ r := by
  have hsorted := (List.pairwise_flatMap.1 (h.stack_eq ▸ h.sorted)).1 g hg
  rcases List.mem_append.1 hv with hv | hv
  · have hlt := (List.pairwise_append.1 hsorted).2.2 v hv _ (List.mem_singleton_self _)
    exact Nat.le_of_lt (hlt r g.rank hr (h.sound g hg).rank_eq)
  · rw [List.mem_singleton.1 hv, (h.sound g hg).rank_eq] at hr
    exact Nat.le_of_eq (Option.some.inj hr)

/-- **The nodes of lower parts were met before those of the upper one.** -/
theorem rank_lt (h : Tracked successors roots todo (g :: rest) s) (hl : l ∈ rest) (hv : v ∈ l.nodes)
    (hr : s.rank.get v = some r) : r < g.rank := by
  have hsorted := (List.pairwise_flatMap.1 (h.stack_eq ▸ h.sorted)).2
  exact (List.pairwise_cons.1 hsorted).1 l hl g.frame.node
    (List.mem_append_right _ (List.mem_singleton_self _)) v hv g.rank r
    (h.sound g List.mem_cons_self).rank_eq hr

/-- What was met no earlier than the current node is in its part. -/
theorem mem_nodes_of_le (h : Tracked successors roots todo (g :: rest) s) (hv : v ∈ s.stack)
    (hr : s.rank.get v = some r) (hle : g.rank ≤ r) : v ∈ g.nodes := by
  obtain ⟨l, hl, hvl⟩ := h.mem_stack.1 hv
  rcases List.mem_cons.1 hl with rfl | hl
  · exact hvl
  · exact absurd (h.rank_lt hl hvl hr) (Nat.not_lt.2 hle)

/-- The nodes of different parts are different. -/
theorem disjoint (h : Tracked successors roots todo (g :: rest) s) (hl : l ∈ rest) :
    List.Disjoint g.nodes l.nodes := by
  intro x hxg hxl
  obtain ⟨r, hr, -⟩ := h.ranked x (h.mem_stack.2 ⟨g, List.mem_cons_self, hxg⟩)
  exact absurd (h.rank_lt hl hxl hr) (Nat.not_lt.2 (h.rank_le List.mem_cons_self hxg hr))

/-- Every node on the stack reaches the current one. -/
theorem reaches_current (h : Tracked successors roots todo (g :: rest) s) (hv : v ∈ s.stack) :
    Reaches successors v g.frame.node := by
  obtain ⟨l, hl, hvl⟩ := h.mem_stack.1 hv
  have hnode : g.frame.node ∈ g.nodes := List.mem_append_right _ (List.mem_singleton_self _)
  rcases List.mem_cons.1 hl with rfl | hl
  · exact (h.sound l List.mem_cons_self).connected v hvl _ hnode
  · exact (List.pairwise_cons.1 h.below).1 l.nodes (List.mem_map_of_mem hl) v hvl _ hnode

end Tracked

/-! ### What a change of the search leaves as it is -/

/-- A part stays sound if its node keeps its rank and low link, the node that the low link belongs
to stays on the stack, and settled edges stay settled. -/
theorem Sound.congr {s s' : Search n} {g : Part n} (h : Sound successors s g)
    (hrank : s'.rank.get g.frame.node = s.rank.get g.frame.node)
    (hlow : s'.lowlink.get g.frame.node = s.lowlink.get g.frame.node)
    (hstack : ∀ u ∈ s.stack, s.rank.get u = some g.low → u ∈ s'.stack ∧ s'.rank.get u = some g.low)
    (hsettled : ∀ w, s.Settled g.low w → s'.Settled g.low w) : Sound successors s' g where
  rank_eq := hrank.trans h.rank_eq
  low_eq := hlow.trans h.low_eq
  low_le := h.low_le
  low_reached := by
    obtain ⟨u, hu, hr, hreach⟩ := h.low_reached
    exact ⟨u, (hstack u hu hr).1, (hstack u hu hr).2, hreach⟩
  connected := h.connected
  pending_edge := h.pending_edge
  edges x hx w hw := (h.edges x hx w hw).imp_right (hsettled w)

theorem Settled.mono {s : Search n} {low low' w : Nat} (h : s.Settled low w) (hle : low' ≤ low) :
    s.Settled low' w := by
  obtain ⟨u, hu, hc | ⟨hmem, r, hr, hlow⟩⟩ := h
  · exact ⟨u, hu, .inl hc⟩
  · exact ⟨u, hu, .inr ⟨hmem, r, hr, Nat.le_trans hle hlow⟩⟩

end Search

end OmegaAutomata
