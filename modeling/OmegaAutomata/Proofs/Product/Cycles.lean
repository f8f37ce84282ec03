/-
# The cycles of a product

`cycles` gathers in the slot of each component first the acceptance sets of its inner
edges (`Gathered`), and then its nodes (`Filled`); `exists_slots` says what the slots hold
in the end.  `exists_numbered_cycles` says that it always returns a list for an explored
product, and what the list holds: a cycle for each component with an inner edge
(`IsCycle`), and nothing else, in the order of the components.

A path through the product stays in one component in the end, since an edge never
leads to a component with a larger number (`IsPath.exists_isCycle`).  In a component
with an inner edge, on the other hand, some path takes every inner edge infinitely
often (`IsCycle.exists_isPath`).
-/

import OmegaAutomata.IndexSet.Lemmas
import OmegaAutomata.Proofs.Components.Correct
import OmegaAutomata.Proofs.Fallible
import OmegaAutomata.Proofs.Product.Exploration
import OmegaAutomata.Proofs.Product.Walks

namespace OmegaAutomata

namespace Product

variable {σ : Type} {w : Lasso} {p : Product σ w} {cs : Components}

/-- The edges out of a node. -/
def out (p : Product σ w) (v : Nat) : List Edge :=
  p.edges[v]?.getD []

theorem lt_of_mem_out {v : Nat} {e : Edge} (he : e ∈ p.out v) : v < p.edges.size := by
  by_contra hv
  rw [out, Array.getElem?_eq_none (Nat.le_of_not_lt hv)] at he
  exact List.not_mem_nil he

/-- Whether `e` is an edge out of `v` that stays in component `c`. -/
def Inner (p : Product σ w) (cs : Components) (c v : Nat) (e : Edge) : Prop :=
  e ∈ p.out v ∧ cs.component? v = some c ∧ cs.component? e.target = some c

/-- Whether both ends of an edge are in component `c`. -/
def staysIn (cs : Components) (c : Nat) (a : Nat × Edge) : Bool :=
  cs.component? a.1 = some c && cs.component? a.2.target = some c

theorem mem_inner {c : Nat} {a : Nat × Edge} :
    p.Inner cs c a.1 a.2 ↔ a.2 ∈ p.out a.1 ∧ staysIn cs c a = true := by
  simp [Inner, staysIn]

/-- The component of a node is found. -/
theorem componentOf_eq {v c : Nat} (h : cs.component? v = some c) :
    cs.componentOf v = .ok (some c) := by
  rw [Components.componentOf, Option.join_eq_some_iff.1 h]

/-! ### Cycles from edges and nodes -/

/-- The cycle with the inner edges `seen`, if there are any. -/
def cycleOf (seen : List (Nat × Edge)) : Option Cycle :=
  seen.foldl (fun cycle a => some (Cycle.addEdge cycle a.2)) none

theorem cycleOf_concat (seen : List (Nat × Edge)) (a : Nat × Edge) :
    cycleOf (seen ++ [a]) = some (Cycle.addEdge (cycleOf seen) a.2) := by
  rw [cycleOf, List.foldl_concat, ← cycleOf]

/-- There is a cycle if there is an edge. -/
theorem isSome_cycleOf {seen : List (Nat × Edge)} :
    (cycleOf seen).isSome = true ↔ ∃ a, a ∈ seen := by
  induction seen using List.reverseRecOn with
  | nil => exact iff_of_false Bool.false_ne_true fun ⟨_, ha⟩ => List.not_mem_nil ha
  | append_singleton seen a _ =>
    rw [cycleOf_concat]
    exact iff_of_true rfl ⟨a, List.mem_append_right _ List.mem_cons_self⟩

/-- A cycle of edges has no nodes yet, and the sets that its edges belong to. -/
theorem of_cycleOf_eq_some {seen : List (Nat × Edge)} {cyc : Cycle} (h : cycleOf seen = some cyc) :
    cyc.nodes = #[] ∧ ∀ j, j ∈ cyc.acceptance ↔ ∃ a ∈ seen, j ∈ a.2.acceptance := by
  induction seen using List.reverseRecOn generalizing cyc with
  | nil => contradiction
  | append_singleton seen a ih =>
    rw [cycleOf_concat] at h
    obtain rfl := Option.some.inj h
    simp only [List.mem_append, List.mem_singleton, or_and_right, exists_or, exists_eq_left]
    cases hseen : cycleOf seen with
    | none =>
      have hnone : ¬∃ b, b ∈ seen := by
        rw [← isSome_cycleOf, hseen]
        exact Bool.false_ne_true
      refine ⟨rfl, fun j => (IndexSet.mem_union ..).trans (or_congr_left ?_)⟩
      exact iff_of_false (IndexSet.not_mem_empty j) fun ⟨b, hb, _⟩ => hnone ⟨b, hb⟩
    | some cyc =>
      obtain ⟨hnodes, hacc⟩ := ih hseen
      exact ⟨hnodes, fun j => (IndexSet.mem_union ..).trans (or_congr_left (hacc j))⟩

/-- Adding nodes to a cycle. -/
theorem foldl_addNode (vs : List Nat) (cyc : Cycle) :
    (vs.foldl Cycle.addNode cyc).nodes.toList = cyc.nodes.toList ++ vs ∧
      (vs.foldl Cycle.addNode cyc).acceptance = cyc.acceptance := by
  induction vs generalizing cyc with
  | nil => exact ⟨(List.append_nil _).symm, rfl⟩
  | cons v vs ih =>
    obtain ⟨hnodes, hacc⟩ := ih (cyc.addNode v)
    rw [Cycle.addNode, Array.toList_push, List.append_assoc] at hnodes
    exact ⟨hnodes, hacc⟩

/-! ### Gathering -/

variable {slots : Array (Option Cycle)} {seen : List (Nat × Edge)} {c : Nat}

theorem exists_updateSlot (hc : c < slots.size) (f : Option Cycle → Option Cycle) :
    ∃ slots', updateSlot slots c f = .ok slots' ∧ slots'.size = slots.size ∧
      ∀ d : Nat, slots'[d]? = if c = d then slots[d]?.map f else slots[d]? := by
  refine ⟨slots.set c (f slots[c]), dif_pos hc, Array.size_set hc, fun d => ?_⟩
  rw [Array.getElem?_set hc]
  by_cases hd : c = d
  · subst hd
    rw [if_pos rfl, if_pos rfl, Array.getElem?_eq_getElem hc, Option.map_some]
  · rw [if_neg hd, if_neg hd]

/-- Each component has the cycle of its edges among those that were `seen`. -/
def Gathered (cs : Components) (slots : Array (Option Cycle)) (seen : List (Nat × Edge)) : Prop :=
  slots.size = cs.sizes.size ∧
    ∀ c < cs.sizes.size, slots[c]? = some (cycleOf (seen.filter (staysIn cs c)))

/-- One more edge. -/
theorem Gathered.exists_gatherEdge (h : Gathered cs slots seen) {v d : Nat} {e : Edge}
    (hv : cs.component? v = some c) (hc : c < cs.sizes.size)
    (he : cs.component? e.target = some d) :
    ∃ slots', gatherEdge cs (some c) slots e = .ok slots' ∧
      Gathered cs slots' (seen ++ [(v, e)]) := by
  obtain ⟨hsize, hslot⟩ := h
  rw [gatherEdge, componentOf_eq he, bind_ok]
  by_cases hcd : d = c
  · subst hcd
    rw [if_pos rfl]
    obtain ⟨slots', hupdate, hsize', hslot'⟩ :=
      exists_updateSlot (hsize.symm ▸ hc) fun cycle => some (Cycle.addEdge cycle e)
    refine ⟨slots', hupdate, hsize'.trans hsize, fun c hc => ?_⟩
    rw [hslot' c, hslot c hc, List.filter_append]
    by_cases hd : d = c
    · subst hd
      have hstay : staysIn cs d (v, e) = true := by simp [staysIn, hv, he]
      rw [if_pos rfl, List.filter_cons_of_pos hstay, List.filter_nil, cycleOf_concat,
        Option.map_some]
    · have hleave : ¬staysIn cs c (v, e) = true := by simp [staysIn, hv, hd]
      rw [if_neg hd, List.filter_cons_of_neg hleave, List.filter_nil, List.append_nil]
  · rw [if_neg (fun heq => hcd (Option.some.inj heq))]
    refine ⟨slots, rfl, hsize, fun b hb => ?_⟩
    have hleave : ¬staysIn cs b (v, e) = true := by
      simp only [staysIn, hv, he, Option.some.injEq, Bool.and_eq_true, decide_eq_true_eq, not_and]
      rintro rfl
      exact hcd
    rw [hslot b hb, List.filter_append, List.filter_cons_of_neg hleave, List.filter_nil,
      List.append_nil]

/-- The edges of a product, each after its node. -/
def edgeList (p : Product σ w) : List (Nat × Edge) :=
  p.edges.toList.zipIdx.flatMap fun a => a.1.flatMap fun e => [(a.2, e)]

theorem mem_zipIdx {out : List Edge} {v : Nat} :
    (out, v) ∈ p.edges.toList.zipIdx ↔ p.edges[v]? = some out := by
  rw [List.mem_zipIdx_iff_getElem?, Array.getElem?_toList]

theorem mem_edgeList {a : Nat × Edge} : a ∈ p.edgeList ↔ a.2 ∈ p.out a.1 := by
  simp only [edgeList, List.mem_flatMap, Prod.exists, mem_zipIdx, List.mem_singleton]
  constructor
  · rintro ⟨out, v, hout, e, he, rfl⟩
    simp only [Product.out, hout, Option.getD_some]
    exact he
  · intro he
    have hlt := lt_of_mem_out he
    rw [Product.out, Array.getElem?_eq_getElem hlt, Option.getD_some] at he
    exact ⟨_, a.1, Array.getElem?_eq_getElem hlt, a.2, he, rfl⟩

/-- All edges. -/
theorem exists_gatherEdges (hnode : ∀ v < p.edges.size, ∃ c < cs.sizes.size,
      cs.component? v = some c)
    (htarget : ∀ v, ∀ e ∈ p.out v, ∃ c, cs.component? e.target = some c) :
    ∃ slots, p.gatherEdges cs (Array.replicate cs.sizes.size none) = .ok slots ∧
      Gathered cs slots p.edgeList := by
  have hempty : Gathered cs (Array.replicate cs.sizes.size none) [] :=
    ⟨Array.size_replicate, fun c hc => by rw [Array.getElem?_replicate, if_pos hc]; rfl⟩
  refine exists_foldlM_append (P := fun seen slots => Gathered cs slots seen) hempty
    fun a ha seen slots h => ?_
  obtain ⟨out, v⟩ := a
  have hout := mem_zipIdx.1 ha
  obtain ⟨c, hc, hv⟩ := hnode v (Array.getElem?_eq_some_iff.1 hout).1
  simp only [componentOf_eq hv, bind_ok]
  refine exists_foldlM_append (P := fun seen slots => Gathered cs slots seen) h
    fun e he seen slots h => ?_
  obtain ⟨d, hd⟩ := htarget v e (by simpa only [Product.out, hout, Option.getD_some] using he)
  exact h.exists_gatherEdge hv hc hd

/-- The cycles of `slots` have got their nodes among `vs`. -/
def Filled (cs : Components) (slots slots' : Array (Option Cycle)) (vs : List Nat) : Prop :=
  slots'.size = slots.size ∧ ∀ c : Nat, slots'[c]? = slots[c]?.map
    (Option.map ((vs.filter fun v => cs.component? v = some c).foldl Cycle.addNode))

/-- All nodes. -/
theorem exists_gatherNodes {n : Nat}
    (hnode : ∀ v < n, ∃ c < slots.size, cs.component? v = some c) :
    ∃ slots', (List.range n).foldlM (gatherNode cs) slots = .ok slots' ∧
      Filled cs slots slots' (List.range n) := by
  have hempty : Filled cs slots slots [] :=
    ⟨rfl, fun c => by simp⟩
  obtain ⟨slots', hslots', hfilled⟩ := exists_foldlM_append
    (P := fun vs slots' => Filled cs slots slots' vs) (e := fun v => [v]) hempty
    (l := List.range n) (f := gatherNode cs) fun v hv vs done h => by
      obtain ⟨hsize, hslot⟩ := h
      obtain ⟨c, hc, hvc⟩ := hnode v (List.mem_range.1 hv)
      rw [gatherNode, componentOf_eq hvc, bind_ok]
      obtain ⟨done', hupdate, hsize', hslot'⟩ :=
        exists_updateSlot (hsize.symm ▸ hc) (Option.map fun cycle => cycle.addNode v)
      refine ⟨done', hupdate, hsize'.trans hsize, fun d => ?_⟩
      rw [hslot' d, hslot d, List.filter_append]
      by_cases hd : c = d
      · subst hd
        rw [if_pos rfl, List.filter_cons_of_pos (by simpa using hvc), List.filter_nil,
          Option.map_map]
        congr 1
        funext cycle
        cases cycle with
        | none => rfl
        | some cycle => simp
      · rw [if_neg hd, List.filter_cons_of_neg (by simpa [hvc] using hd), List.filter_nil,
          List.append_nil]
  exact ⟨slots', hslots', by simpa using hfilled⟩

/-! ### The list of cycles -/

/-- The cycle of a component with an inner edge. -/
structure IsCycle (p : Product σ w) (cs : Components) (c : Nat) (cyc : Cycle) : Prop where
  exists_inner : ∃ v e, p.Inner cs c v e
  mem_nodes : ∀ v, v ∈ cyc.nodes ↔ cs.component? v = some c
  mem_acceptance : ∀ j, j ∈ cyc.acceptance ↔ ∃ v e, p.Inner cs c v e ∧ j ∈ e.acceptance

theorem edge_iff {v u : Nat} : Search.Edge p.successors v u ↔ ∃ e ∈ p.out v, e.target = u := by
  rw [Search.Edge, successors, Product.out]
  cases p.edges[v]? with
  | none => simp
  | some out => simp

/-- The elements that `filterMap` keeps, next to what it makes of them. -/
theorem forall₂_filterMap {α β : Type} (f : α → Option β) (l : List α) :
    List.Forall₂ (fun a b => f a = some b) (l.filter fun a => (f a).isSome) (l.filterMap f) := by
  induction l with
  | nil => exact .nil
  | cons a l ih =>
    cases ha : f a with
    | none =>
      rw [List.filterMap_cons_none ha, List.filter_cons_of_neg (by simp [ha])]
      exact ih
    | some b =>
      rw [List.filterMap_cons_some ha, List.filter_cons_of_pos (by simp [ha])]
      exact .cons ha ih

/-- The slots that are in use, by their numbers. -/
theorem filterMap_slots (slots : Array (Option Cycle)) :
    slots.toList.filterMap id = (List.range slots.size).filterMap fun c => slots[c]?.join := by
  have hmap : slots.toList = (List.range slots.size).map fun c => slots[c]?.join := by
    refine List.ext_getElem? fun i => ?_
    by_cases hi : i < slots.size
    · simp [hi]
    · simp [hi]
  conv => lhs; rw [hmap, List.filterMap_map]
  rfl

/-- The nodes of component `c`, in order. -/
def nodesOf (p : Product σ w) (cs : Components) (c : Nat) : List Nat :=
  (List.range p.nodes.size).filter fun v => cs.component? v = some c

theorem mem_inner_edges {c : Nat} {a : Nat × Edge} :
    a ∈ p.edgeList.filter (staysIn cs c) ↔ p.Inner cs c a.1 a.2 := by
  rw [List.mem_filter, mem_edgeList, mem_inner]

/-- The cycle of the inner edges of a component, with the nodes of the component. -/
theorem isCycle_addNodes (hlt : ∀ {v}, cs.component? v = some c → v < p.nodes.size) {cyc : Cycle}
    (h : cycleOf (p.edgeList.filter (staysIn cs c)) = some cyc) :
    p.IsCycle cs c ((p.nodesOf cs c).foldl Cycle.addNode cyc) ∧
      ((p.nodesOf cs c).foldl Cycle.addNode cyc).nodes.toList.Pairwise (· < ·) := by
  obtain ⟨hnone, hacc⟩ := of_cycleOf_eq_some h
  obtain ⟨hnodes, hunion⟩ := foldl_addNode (p.nodesOf cs c) cyc
  rw [hnone, List.nil_append] at hnodes
  obtain ⟨a, ha⟩ := isSome_cycleOf.1 (Option.isSome_of_eq_some h)
  refine ⟨⟨⟨a.1, a.2, mem_inner_edges.1 ha⟩, fun v => ?_, fun j => ?_⟩, ?_⟩
  · rw [← Array.mem_toList_iff, hnodes, nodesOf, List.mem_filter, List.mem_range,
      decide_eq_true_eq, and_iff_right_iff_imp]
    exact hlt
  · rw [hunion, hacc, Prod.exists]
    simp only [mem_inner_edges]
  · rw [hnodes]
    exact List.pairwise_lt_range.filter _

/-- The successors of the nodes of a product are asked for without a fault, if each node has its
edges and none of them leads out of the product. -/
theorem exists_successors (hsize : p.edges.size = p.nodes.size)
    (hclosed : ∀ v, ∀ e ∈ p.out v, e.target < p.nodes.size) :
    ∀ v < p.nodes.size, ∃ out, p.successors v = .ok out ∧ ∀ u ∈ out, u < p.nodes.size := by
  intro v hv
  have hout := Array.getElem?_eq_getElem (hsize.symm ▸ hv)
  refine ⟨_, by rw [successors, hout], fun u hu => ?_⟩
  obtain ⟨e, he, rfl⟩ := List.mem_map.1 hu
  exact hclosed v e (by rwa [Product.out, hout, Option.getD_some])

/-- **The slots of a product** after edges and nodes were added: that of a component holds the cycle
of its inner edges with its nodes. -/
theorem exists_slots (hsize : p.edges.size = p.nodes.size)
    (hclosed : ∀ v, ∀ e ∈ p.out v, e.target < p.nodes.size)
    (hcs : cs.Decomposes p.successors p.nodes.size (List.range p.nodes.size)) :
    ∃ gathered slots, p.gatherEdges cs (Array.replicate cs.sizes.size none) = .ok gathered ∧
      (List.range p.nodes.size).foldlM (gatherNode cs) gathered = .ok slots ∧
      slots.size = cs.sizes.size ∧ ∀ c < cs.sizes.size, slots[c]?.join =
        (cycleOf (p.edgeList.filter (staysIn cs c))).map
          ((p.nodesOf cs c).foldl Cycle.addNode) := by
  have hcomp {v : Nat} (hv : v < p.nodes.size) : ∃ c < cs.sizes.size, cs.component? v = some c := by
    obtain ⟨c, hc⟩ := Option.isSome_iff_exists.1
      ((hcs.isSome_iff v).2 ⟨v, List.mem_range.2 hv, .refl⟩)
    exact ⟨c, hcs.lt_size v c hc, hc⟩
  obtain ⟨gathered, hedges, hgathered⟩ := exists_gatherEdges (p := p)
    (fun v hv => hcomp (hsize ▸ hv))
    fun v e he => (hcomp (hclosed v e he)).imp fun _ hc => hc.2
  obtain ⟨slots, hnodes, hfilled⟩ := exists_gatherNodes (n := p.nodes.size)
    fun v hv => (hcomp hv).imp fun _ hc => ⟨hgathered.1.symm ▸ hc.1, hc.2⟩
  refine ⟨gathered, slots, hedges, hnodes, hfilled.1.trans hgathered.1, fun c hc => ?_⟩
  rw [hfilled.2 c, hgathered.2 c hc]
  rfl

/-- **The cycles are those of the components with inner edges**, in the order in which the
components are completed.  They are found whenever each node has its edges, and none of them leads
out of the product. -/
theorem exists_numbered_cycles (hsize : p.edges.size = p.nodes.size)
    (hclosed : ∀ v, ∀ e ∈ p.out v, e.target < p.nodes.size) :
    ∃ cs numbers cycs,
      strongComponents p.nodes.size (List.range p.nodes.size) p.successors = .ok cs ∧
      p.cycles = .ok cycs ∧ numbers.Pairwise (· < ·) ∧
      (∀ c, c ∈ numbers ↔ ∃ v e, p.Inner cs c v e) ∧
      List.Forall₂ (fun c cyc => p.IsCycle cs c cyc ∧ cyc.nodes.toList.Pairwise (· < ·))
        numbers cycs := by
  obtain ⟨cs, hcs, -⟩ := strongComponents_decomposes (fun x hx => List.mem_range.1 hx)
    (exists_successors hsize hclosed)
  have hdec := decomposes_of_strongComponents hcs
  obtain ⟨gathered, slots, hedges, hnodes, hsizes, hslot⟩ := exists_slots hsize hclosed hdec
  refine ⟨cs, (List.range slots.size).filter fun c => slots[c]?.join.isSome,
    (List.range slots.size).filterMap fun c => slots[c]?.join, hcs, ?_,
    List.pairwise_lt_range.filter _, fun c => ?_,
    (forall₂_filterMap (fun c => slots[c]?.join) _).imp fun c cyc hcyc => ?_⟩
  · rw [cycles, hcs, bind_ok, hedges, bind_ok, hnodes, bind_ok, filterMap_slots, pure_eq_ok]
  · rw [List.mem_filter, List.mem_range, hsizes]
    have hused (hc : c < cs.sizes.size) :
        slots[c]?.join.isSome = true ↔ ∃ v e, p.Inner cs c v e := by
      rw [hslot c hc, Option.isSome_map, isSome_cycleOf, Prod.exists]
      simp only [mem_inner_edges]
    constructor
    · exact fun hc => (hused hc.1).1 hc.2
    · rintro ⟨v, e, he⟩
      have hc := hdec.lt_size v c he.2.1
      exact ⟨hc, (hused hc).2 ⟨v, e, he⟩⟩
  · have hc : c < cs.sizes.size := by
      rw [← hsizes]
      exact (Array.getElem?_eq_some_iff.1 (Option.join_eq_some_iff.1 hcyc)).1
    rw [hslot c hc] at hcyc
    obtain ⟨cyc', hcyc', rfl⟩ := Option.map_eq_some_iff.1 hcyc
    exact isCycle_addNodes hdec.lt hcyc'

/-- The cycles are those of the components with inner edges. -/
theorem exists_cycles (hsize : p.edges.size = p.nodes.size)
    (hclosed : ∀ v, ∀ e ∈ p.out v, e.target < p.nodes.size) :
    ∃ cs cycs, cs.Decomposes p.successors p.nodes.size (List.range p.nodes.size) ∧
      p.cycles = .ok cycs ∧ (∀ cyc ∈ cycs, ∃ c, p.IsCycle cs c cyc) ∧
      ∀ c v e, p.Inner cs c v e → ∃ cyc ∈ cycs, p.IsCycle cs c cyc := by
  obtain ⟨cs, numbers, cycs, hcs, hcycs, -, hnumbers, hforall⟩ :=
    exists_numbered_cycles hsize hclosed
  refine ⟨cs, cycs, decomposes_of_strongComponents hcs, hcycs, fun cyc hcyc => ?_,
    fun c v e hve => ?_⟩
  · obtain ⟨c, -, h⟩ := exists_left_of_forall₂ hforall hcyc
    exact ⟨c, h.1⟩
  · obtain ⟨cyc, hcyc, h⟩ := exists_right_of_forall₂ hforall ((hnumbers c).2 ⟨v, e, hve⟩)
    exact ⟨cyc, hcyc, h.1⟩

/-! ### Paths -/

/-- Whether `f` is an infinite path: the node at each position, and the edge taken there. -/
def IsPath (p : Product σ w) (f : Nat → Nat × Edge) : Prop :=
  ∀ i, (f i).2 ∈ p.out (f i).1 ∧ (f i).2.target = (f (i + 1)).1

/-- A sequence of numbers that never grows is constant in the end. -/
theorem exists_eventually_eq {g : Nat → Nat} (hg : ∀ i, g (i + 1) ≤ g i) :
    ∃ N, ∀ i, N ≤ i → g i = g N := by
  have hle : ∀ i j, i ≤ j → g j ≤ g i := fun i j hij => by
    induction j, hij using Nat.le_induction with
    | base => exact Nat.le_refl _
    | succ j _ ih => exact Nat.le_trans (hg j) ih
  classical
  have hmin : ∃ m, ∃ N, g N = m := ⟨g 0, 0, rfl⟩
  obtain ⟨N, hN⟩ := Nat.find_spec hmin
  refine ⟨N, fun i hi => Nat.le_antisymm (hle N i hi) ?_⟩
  rw [hN]
  exact Nat.find_min' hmin ⟨i, rfl⟩

/-- **A path stays in one component in the end**, where it takes inner edges only. -/
theorem IsPath.exists_inner {f : Nat → Nat × Edge} (hf : p.IsPath f)
    (hsize : p.edges.size = p.nodes.size)
    (hdec : cs.Decomposes p.successors p.nodes.size (List.range p.nodes.size)) :
    ∃ c N, ∀ i, N ≤ i → p.Inner cs c (f i).1 (f i).2 := by
  have hcomp : ∀ i, ∃ c, cs.component? (f i).1 = some c := fun i => by
    refine Option.isSome_iff_exists.1 ((hdec.isSome_iff _).2 ⟨(f i).1, ?_, .refl⟩)
    exact List.mem_range.2 (hsize ▸ lt_of_mem_out (hf i).1)
  choose g hg using hcomp
  have hstep : ∀ i, g (i + 1) ≤ g i := fun i => by
    have hedge : Search.Edge p.successors (f i).1 (f (i + 1)).1 := edge_iff.2 ⟨_, (hf i).1, (hf i).2⟩
    obtain ⟨d, hd, hnext⟩ := hdec.le_of_reaches _ _ _ (hg i) (.single hedge)
    cases Option.some.inj ((hg (i + 1)).symm.trans hnext)
    exact hd
  obtain ⟨N, hN⟩ := exists_eventually_eq hstep
  refine ⟨g N, N, fun i hi => ⟨(hf i).1, ?_, ?_⟩⟩
  · rw [hg i, hN i hi]
  · rw [(hf i).2, hg (i + 1), hN (i + 1) (Nat.le_succ_of_le hi)]

/-- An inner edge leads out of every node of a cycle. -/
theorem IsCycle.exists_inner_from {cyc : Cycle} {c v : Nat}
    (hdec : cs.Decomposes p.successors p.nodes.size (List.range p.nodes.size))
    (h : p.IsCycle cs c cyc) (hv : cs.component? v = some c) : ∃ e, p.Inner cs c v e := by
  obtain ⟨u, e, he, hu, hue⟩ := h.exists_inner
  have hvu := ((hdec.eq_iff v u c c hv hu).1 rfl).1
  have hev := ((hdec.eq_iff e.target v c c hue hv).1 rfl).1
  have hloop : Relation.TransGen (Search.Edge p.successors) v v :=
    (Relation.TransGen.tail' hvu (edge_iff.2 ⟨e, he, rfl⟩)).trans_left hev
  obtain ⟨x, hvx, hxv⟩ := Relation.TransGen.head'_iff.1 hloop
  obtain ⟨d, -, hx⟩ := hdec.le_of_reaches v x c hv (.single hvx)
  obtain rfl := (hdec.eq_iff v x c d hv hx).2 ⟨.single hvx, hxv⟩
  obtain ⟨e', he', rfl⟩ := edge_iff.1 hvx
  exact ⟨e', he', hv, hx⟩

/-- **A path that takes every inner edge infinitely often** begins at each node of a cycle. -/
theorem IsCycle.exists_isPath {cyc : Cycle} {c v : Nat}
    (hdec : cs.Decomposes p.successors p.nodes.size (List.range p.nodes.size))
    (h : p.IsCycle cs c cyc) (hv : v ∈ cyc.nodes) :
    ∃ f, p.IsPath f ∧ (f 0).1 = v ∧
      ∀ u e, p.Inner cs c u e → InfinitelyOften fun i => f i = (u, e) := by
  have hv := (h.mem_nodes v).1 hv
  let inner : List (Nat × Edge) := (List.range p.edges.size).flatMap fun u =>
    ((p.out u).filter fun e =>
      cs.component? u = some c ∧ cs.component? e.target = some c).map (u, ·)
  have hmem {u : Nat} {e : Edge} : (u, e) ∈ inner ↔ p.Inner cs c u e := by
    simp only [inner, List.mem_flatMap, List.mem_range, List.mem_map, List.mem_filter,
      decide_eq_true_eq, Prod.mk.injEq]
    constructor
    · rintro ⟨_, -, _, he, rfl, rfl⟩
      exact he
    · exact fun he => ⟨u, lt_of_mem_out he.1, e, he, rfl, rfl⟩
  let next : Nat × Edge → Nat × Edge → Prop := fun a b => a.2.target = b.1 ∧ b.2 ∈ p.out b.1
  have hwalk {x u : Nat} (hxu : Search.Reaches p.successors x u) :
      ∀ a b : Nat × Edge, a.2.target = x → b.1 = u → b.2 ∈ p.out b.1 →
        Relation.TransGen next a b := by
    induction hxu using Relation.ReflTransGen.head_induction_on with
    | refl => exact fun a b ha hb hout => .single ⟨ha.trans hb.symm, hout⟩
    | head hstep _ ih =>
      intro a b ha hb hout
      obtain ⟨e, he, htarget⟩ := edge_iff.1 hstep
      exact .head (b := (_, e)) ⟨ha, he⟩ (ih _ b htarget hb hout)
  obtain ⟨e, he⟩ := h.exists_inner_from hdec hv
  obtain ⟨f, h0, hnext, hio⟩ := exists_recurring_path (R := next) (hmem.2 he) fun a ha b hb => by
    have ha := hmem.1 ha
    have hb := hmem.1 hb
    exact hwalk ((hdec.eq_iff _ _ c c ha.2.2 hb.2.1).1 rfl).1 a b rfl rfl hb.1
  refine ⟨f, fun i => ⟨?_, (hnext i).1⟩, by rw [h0], fun u e he => hio (u, e) (hmem.2 he)⟩
  cases i with
  | zero => rw [h0]; exact he.1
  | succ i => exact (hnext i).2

end Product

end OmegaAutomata
