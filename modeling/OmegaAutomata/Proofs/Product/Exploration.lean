/-
# The explored part of a product

`Explored` says what a finished product is: its nodes are different pairs of a state
and a position, the roots at the first position are among them, all are reached from
those, and the edges out of a node are the moves of its state on the letter of its
position.

An exploration knows more about its result (`Finished`): the edges of a node are its
moves one by one, in order, and the nodes are numbered in the order in which they are
met first when the roots, and then the moves of node after node, are gone through.
`exists_finished` shows that there is such a result whenever moves never fail on the
nodes that are reached and the bound allows for all of them; `exists_explore` is the
case where the states that can come up belong to a given list.

The numbers of the nodes are looked up in an index; `Exploration.Indexed` ties it to
the list of nodes, and `Exploration.Grows` says what meeting nodes keeps and adds.
The queue holds the numbers of the nodes that have no edges yet, in increasing order
(`Exploration.WaitingFrom`), so the node that is taken from it is the next one, and its
edges are put behind those that are there.
-/

import OmegaAutomata.Product
import Mathlib.Data.List.FinRange
import Mathlib.Data.List.Nodup
import Mathlib.Data.List.ProdSigma
import Mathlib.Logic.Relation

namespace OmegaAutomata

/-! ### Lists that correspond -/

section

variable {α β : Type} {R : α → β → Prop} {as : List α} {bs : List β}

theorem exists_right_of_forall₂ (h : List.Forall₂ R as bs) {a : α} (ha : a ∈ as) :
    ∃ b ∈ bs, R a b := by
  induction h with
  | nil => exact absurd ha List.not_mem_nil
  | cons hab _ ih =>
    rcases List.mem_cons.1 ha with rfl | ha
    · exact ⟨_, List.mem_cons_self, hab⟩
    · obtain ⟨b, hb, hR⟩ := ih ha
      exact ⟨b, List.mem_cons_of_mem _ hb, hR⟩

theorem exists_left_of_forall₂ (h : List.Forall₂ R as bs) {b : β} (hb : b ∈ bs) :
    ∃ a ∈ as, R a b :=
  exists_right_of_forall₂ (R := flip R) (List.Forall₂.flip h) hb

end

/-! ### Queues -/

section

variable {α : Type}

/-- The elements of a queue, the first to be taken out first. -/
def queued (q : Std.Queue α) : List α :=
  q.dList ++ q.eList.reverse

theorem queued_enqueue (q : Std.Queue α) (a : α) : queued (q.enqueue a) = queued q ++ [a] := by
  simp [queued, Std.Queue.enqueue]

/-- What is taken out of a queue is its first element. -/
theorem dequeue?_of_queued_eq_cons {q : Std.Queue α} {a : α} {l : List α}
    (h : queued q = a :: l) : ∃ q', q.dequeue? = some (a, q') ∧ queued q' = l := by
  obtain ⟨eList, dList⟩ := q
  cases dList with
  | nil =>
    have hrev : eList.reverse = a :: l := h
    exact ⟨⟨[], l⟩, by simp only [Std.Queue.dequeue?, hrev], List.append_nil l⟩
  | cons d ds =>
    obtain ⟨rfl, rfl⟩ := List.cons.inj h
    exact ⟨⟨eList, ds⟩, rfl, rfl⟩

theorem dequeue?_of_queued_eq_nil {q : Std.Queue α} (h : queued q = []) : q.dequeue? = none := by
  obtain ⟨hd, he⟩ := List.append_eq_nil_iff.1 h
  rw [Std.Queue.dequeue?, hd, he]

end

namespace Product

variable {σ : Type} {w : Lasso}

/-! ### Lists of edges -/

/-- Setting the edges of the node that comes next puts them behind the others. -/
theorem setEdges_size (edges : Array (List Edge)) (out : List Edge) :
    setEdges edges edges.size out = edges.push out := by
  have hroom : makeRoom edges edges.size = edges.push [] := by
    simp [makeRoom, resize]
  refine Array.ext_getElem? fun i => ?_
  simp only [setEdges, Array.getElem?_set, hroom, Array.getElem?_push]
  grind

theorem resize_size (edges : Array (List Edge)) : resize edges edges.size = edges := by
  simp [resize]

/-! ### What an exploration builds -/

/-- Whether the product has an edge with the sets `acceptance` from the node `x` to the node `y`. -/
def Step (moves : σ → IndexSet → Except Fault (List (Move σ))) (x : σ × Fin w.size)
    (acceptance : IndexSet) (y : σ × Fin w.size) : Prop :=
  y.2 = w.next x.2 ∧
    ∃ out, moves x.1 (w.letter x.2) = .ok out ∧ ⟨y.1, acceptance⟩ ∈ out

/-- Whether a path leads from a root at the first position to a node. -/
def Reached (moves : σ → IndexSet → Except Fault (List (Move σ))) (roots : List σ)
    (y : σ × Fin w.size) : Prop :=
  ∃ s ∈ roots, Relation.ReflTransGen (fun x y => ∃ a, Step moves x a y) (s, w.first) y

/-- What a finished product says about an automaton. -/
structure Explored (p : Product σ w) (moves : σ → IndexSet → Except Fault (List (Move σ)))
    (roots : List σ) : Prop where
  size_eq : p.edges.size = p.nodes.size
  injective : ∀ {i j : Nat} {x}, p.nodes[i]? = some x → p.nodes[j]? = some x → i = j
  root : ∀ s ∈ roots, ∃ i : Nat, p.nodes[i]? = some (s, w.first)
  reached : ∀ {i : Nat} {x}, p.nodes[i]? = some x → Reached moves roots x
  edge : ∀ {i : Nat} {x}, p.nodes[i]? = some x → ∀ e ∈ p.edges[i]?.getD [],
    ∃ y, p.nodes[e.target]? = some y ∧ Step moves x e.acceptance y
  exists_edge : ∀ {i : Nat} {x a y}, p.nodes[i]? = some x → Step moves x a y →
    ∃ e ∈ p.edges[i]?.getD [], e.acceptance = a ∧ p.nodes[e.target]? = some y

/-- The nodes that the moves from a node lead to, in the order of the moves. -/
def follow (moves : σ → IndexSet → Except Fault (List (Move σ))) (x : σ × Fin w.size) :
    List (σ × Fin w.size) :=
  match moves x.1 (w.letter x.2) with
  | .ok out => out.map fun m => (m.state, w.next x.2)
  | .error _ => []

theorem follow_eq {moves : σ → IndexSet → Except Fault (List (Move σ))} {x : σ × Fin w.size}
    {out : List (Move σ)} (h : moves x.1 (w.letter x.2) = .ok out) :
    follow moves x = out.map fun m => (m.state, w.next x.2) := by
  rw [follow, h]

/-- A node follows another if there is an edge. -/
theorem mem_follow {moves : σ → IndexSet → Except Fault (List (Move σ))} {x y : σ × Fin w.size} :
    y ∈ follow moves x ↔ ∃ a, Step moves x a y := by
  cases hout : moves x.1 (w.letter x.2) with
  | error f =>
    rw [follow, hout]
    refine iff_of_false List.not_mem_nil ?_
    rintro ⟨a, -, out, h, -⟩
    cases hout.symm.trans h
  | ok out =>
    rw [follow_eq hout, List.mem_map]
    constructor
    · rintro ⟨m, hm, rfl⟩
      exact ⟨m.acceptance, rfl, out, hout, hm⟩
    · rintro ⟨a, hpos, out', hout', hmem⟩
      cases hout.symm.trans hout'
      exact ⟨_, hmem, Prod.ext rfl hpos.symm⟩

/-- Whether the edge `e` stands for the move `m` to position `q`. -/
def Stands (p : Product σ w) (q : Fin w.size) (m : Move σ) (e : Edge) : Prop :=
  e.acceptance = m.acceptance ∧ p.nodes[e.target]? = some (m.state, q)

variable [BEq σ] [Hashable σ]

/-- What an exploration that came to its end has built. -/
structure Finished (p : Product σ w) (moves : σ → IndexSet → Except Fault (List (Move σ)))
    (roots : List σ) : Prop where
  size_eq : p.edges.size = p.nodes.size
  nodup : p.nodes.toList.Nodup
  nodes_eq : p.nodes.toList =
    (roots.map (·, w.first) ++ p.nodes.toList.flatMap (follow moves)).eraseDups
  reached : ∀ x ∈ p.nodes, Reached moves roots x
  expanded : ∀ {i : Nat} {x}, p.nodes[i]? = some x → ∃ out, moves x.1 (w.letter x.2) = .ok out ∧
    List.Forall₂ (p.Stands (w.next x.2)) out (p.edges[i]?.getD [])

namespace Exploration

/-! ### Meeting nodes -/

/-- The index finds the numbers of the nodes. -/
def Indexed (x : Exploration σ w) : Prop :=
  ∀ node (i : Nat), x.index[node]? = some i ↔ x.nodes[i]? = some node

/-- The numbers of the nodes from `n` on are waiting, in increasing order. -/
def WaitingFrom (x : Exploration σ w) (n : Nat) : Prop :=
  queued x.waiting = List.range' n (x.nodes.size - n)

/-- `y` is `x` after the nodes `new` were met. -/
structure Grows (x y : Exploration σ w) (new : List (σ × Fin w.size)) : Prop where
  indexed : x.Indexed → y.Indexed
  waitingFrom : ∀ {n : Nat}, n ≤ x.nodes.size → x.WaitingFrom n → y.WaitingFrom n
  edges_eq : y.edges = x.edges
  kept : ∀ {i : Nat} {node}, x.nodes[i]? = some node → y.nodes[i]? = some node
  nodes_eq : ∀ met, x.nodes.toList = met.eraseDups → y.nodes.toList = (met ++ new).eraseDups

variable {x y z : Exploration σ w} {new new' : List (σ × Fin w.size)}

theorem Grows.refl (x : Exploration σ w) : x.Grows x [] :=
  ⟨id, fun _ => id, rfl, id, fun _ h => by rwa [List.append_nil]⟩

/-- No node is lost. -/
theorem Grows.size_le (h : x.Grows y new) : x.nodes.size ≤ y.nodes.size := by
  by_contra hlt
  have hkept := h.kept (Array.getElem?_eq_getElem (Nat.lt_of_not_le hlt))
  exact Nat.lt_irrefl _ (Array.getElem?_eq_some_iff.1 hkept).1

theorem Grows.trans (hxy : x.Grows y new) (hyz : y.Grows z new') : x.Grows z (new ++ new') where
  indexed := hyz.indexed ∘ hxy.indexed
  waitingFrom hn h := hyz.waitingFrom (Nat.le_trans hn hxy.size_le) (hxy.waitingFrom hn h)
  edges_eq := hyz.edges_eq.trans hxy.edges_eq
  kept := hyz.kept ∘ hxy.kept
  nodes_eq met h := by
    rw [← List.append_assoc]
    exact hyz.nodes_eq _ (hxy.nodes_eq met h)

/-- The edges that stand for moves do so in a larger product. -/
theorem Grows.forall₂ (h : x.Grows y new) {q : Fin w.size} {ms : List (Move σ)} {es : List Edge}
    (hes : List.Forall₂ (x.Stands q) ms es) : List.Forall₂ (y.Stands q) ms es :=
  hes.imp fun _ _ he => ⟨he.1, h.kept he.2⟩

/-- No node has two numbers. -/
theorem Indexed.nodup (h : x.Indexed) : x.nodes.toList.Nodup := by
  refine List.nodup_iff_injective_getElem.2 fun i j hij => Fin.ext ?_
  have hi : x.nodes[i.1]? = some x.nodes.toList[i.1] := by simp
  have hj : x.nodes[j.1]? = some x.nodes.toList[j.1] := by simp
  have hij : x.nodes.toList[i.1] = x.nodes.toList[j.1] := hij
  rw [← hij] at hj
  exact Option.some.inj (((h _ _).2 hi).symm.trans ((h _ _).2 hj))

variable [LawfulBEq σ]

/-- Looking up a node gives its number, and adds it if it is new. -/
theorem push_grows (h : x.Indexed) (node : σ × Fin w.size) :
    x.Grows (x.push node).2 [node] ∧
      (x.push node).2.nodes[(x.push node).1]? = some node := by
  unfold push
  split
  · rename_i i hi
    have hnode := (h node i).1 hi
    refine ⟨⟨id, fun _ => id, rfl, id, fun met hmet => ?_⟩, hnode⟩
    have hmem : node ∈ met := by
      rw [← List.mem_eraseDups, ← hmet, Array.mem_toList_iff]
      exact Array.mem_of_getElem? hnode
    rw [List.eraseDups_append, hmet]
    simp [List.removeAll, hmem]
  · rename_i hnone
    have hnew : ∀ i : Nat, x.nodes[i]? ≠ some node := fun i hi => by
      rw [(h node i).2 hi] at hnone
      contradiction
    have hpush : (x.nodes.push node)[x.nodes.size]? = some node := by simp
    refine ⟨⟨fun _ node' i => ?_, fun {n} hn hwait => ?_, rfl, fun {i _} hi => ?_,
      fun met hmet => ?_⟩, hpush⟩
    · rw [Std.HashMap.getElem?_insert, Array.getElem?_push]
      by_cases hn : node = node'
      · subst hn
        rw [if_pos (beq_self_eq_true node)]
        by_cases hi : i = x.nodes.size
        · simp [hi]
        · rw [if_neg hi, Option.some.injEq]
          exact iff_of_false (Ne.symm hi) (hnew i)
      · rw [if_neg (by simpa using hn)]
        by_cases hi : i = x.nodes.size
        · rw [if_pos hi, Option.some.injEq]
          refine iff_of_false (fun hidx => ?_) hn
          have hlt := (Array.getElem?_eq_some_iff.1 ((h node' i).1 hidx)).1
          exact Nat.lt_irrefl _ (hi ▸ hlt)
        · rw [if_neg hi]
          exact h node' i
    · have hsub : x.nodes.size + 1 - n = x.nodes.size - n + 1 := by omega
      simp only [WaitingFrom, queued_enqueue, Array.size_push, hsub] at hwait ⊢
      rw [hwait, List.range'_concat]
      simp only [Nat.one_mul, Nat.add_sub_cancel' hn]
    · have hlt := (Array.getElem?_eq_some_iff.1 hi).1
      rw [Array.getElem?_push, if_neg (Nat.ne_of_lt hlt)]
      exact hi
    · have hmem : node ∉ met := fun hmem => by
        rw [← List.mem_eraseDups, ← hmet, Array.mem_toList_iff] at hmem
        obtain ⟨i, hi⟩ := Array.getElem?_of_mem hmem
        exact hnew i hi
      rw [List.eraseDups_append, Array.toList_push, hmet]
      simp [List.removeAll, hmem, List.eraseDups_cons]

/-- Adding the roots. -/
theorem addRoots_grows (roots : List σ) (h : x.Indexed) :
    x.Grows (x.addRoots roots) (roots.map (·, w.first)) := by
  induction roots generalizing x with
  | nil => exact .refl x
  | cons s roots ih =>
    have hgrow := (push_grows h (s, w.first)).1
    exact hgrow.trans (ih (hgrow.indexed h))

/-- Adding the moves to a position. -/
theorem addMoves_grows (q : Fin w.size) (ms : List (Move σ)) (h : x.Indexed) :
    x.Grows (x.addMoves q ms).2 (ms.map fun m => (m.state, q)) ∧
      List.Forall₂ ((x.addMoves q ms).2.Stands q) ms (x.addMoves q ms).1 := by
  induction ms generalizing x with
  | nil => exact ⟨.refl x, .nil⟩
  | cons m ms ih =>
    obtain ⟨hgrow, hnode⟩ := push_grows h (m.state, q)
    obtain ⟨hrest, hforall⟩ := ih (hgrow.indexed h)
    exact ⟨hgrow.trans hrest, .cons ⟨rfl, hrest.kept hnode⟩ hforall⟩

/-! ### Expanding nodes -/

/-- What is known about a product under construction: its nodes are those that were met so far, in
the order in which they were met first. -/
structure Invariant (x : Exploration σ w) (moves : σ → IndexSet → Except Fault (List (Move σ)))
    (roots : List σ) : Prop where
  indexed : x.Indexed
  waitingFrom : x.WaitingFrom x.edges.size
  edges_le : x.edges.size ≤ x.nodes.size
  nodes_eq : x.nodes.toList = (roots.map (·, w.first) ++
    (x.nodes.toList.take x.edges.size).flatMap (follow moves)).eraseDups
  reached : ∀ node ∈ x.nodes, Reached moves roots node
  expanded : ∀ {i : Nat} {node es}, x.nodes[i]? = some node → x.edges[i]? = some es →
    ∃ out, moves node.1 (w.letter node.2) = .ok out ∧
      List.Forall₂ (x.Stands (w.next node.2)) out es

variable {moves : σ → IndexSet → Except Fault (List (Move σ))} {roots : List σ}

/-- The product with its roots is the beginning. -/
theorem addRoots_invariant :
    (empty.addRoots roots : Exploration σ w).Invariant moves roots := by
  have hempty : (empty : Exploration σ w).Indexed := by
    intro node i
    simp [empty]
  have hgrow := addRoots_grows (w := w) roots hempty
  have hedges : (empty.addRoots roots : Exploration σ w).edges = #[] := hgrow.edges_eq
  have hnodes := hgrow.nodes_eq [] rfl
  refine ⟨hgrow.indexed hempty, ?_, by simp [hedges], ?_, fun node hnode => ?_, fun _ he => ?_⟩
  · rw [hedges]
    exact hgrow.waitingFrom (Nat.le_refl 0) rfl
  · rw [hedges]
    simpa using hnodes
  · rw [← Array.mem_toList_iff, hnodes, List.mem_eraseDups, List.nil_append] at hnode
    obtain ⟨s, hs, rfl⟩ := List.mem_map.1 hnode
    exact ⟨s, hs, .refl⟩
  · simp [hedges] at he

omit [LawfulBEq σ] in
/-- The node that is taken out of the queue is the next one without edges. -/
theorem exists_pop (h : x.Invariant moves roots) (hlt : x.edges.size < x.nodes.size) :
    ∃ waiting, x.pop? = some (x.edges.size, { x with waiting := waiting }) ∧
      queued waiting = List.range' (x.edges.size + 1) (x.nodes.size - (x.edges.size + 1)) := by
  have hsub : x.nodes.size - x.edges.size = x.nodes.size - (x.edges.size + 1) + 1 := by omega
  have hwait := h.waitingFrom
  rw [WaitingFrom, hsub, List.range'_succ] at hwait
  obtain ⟨waiting, hpop, hrest⟩ := dequeue?_of_queued_eq_cons hwait
  exact ⟨waiting, by rw [pop?, hpop]; rfl, hrest⟩

omit [LawfulBEq σ] in
/-- Nothing is taken out of the queue when all nodes have their edges. -/
theorem pop?_eq_none (h : x.Invariant moves roots) (hle : x.nodes.size ≤ x.edges.size) :
    x.pop? = none := by
  have hwait := h.waitingFrom
  rw [WaitingFrom, Nat.sub_eq_zero_of_le hle] at hwait
  rw [pop?, dequeue?_of_queued_eq_nil hwait]
  rfl

/-- The invariant still holds when the next node was taken out of the queue, its moves were looked
up, and its edges are put behind the others. -/
theorem Invariant.push_edges (h : x.Invariant moves roots) {node : σ × Fin w.size}
    (hnode : x.nodes[x.edges.size]? = some node) {waiting : Std.Queue Nat}
    (hwaiting : queued waiting =
      List.range' (x.edges.size + 1) (x.nodes.size - (x.edges.size + 1)))
    (hgrow : Grows { x with waiting := waiting } y (follow moves node)) {ms : List (Move σ)}
    (hms : moves node.1 (w.letter node.2) = .ok ms) {es : List Edge}
    (hes : List.Forall₂ (y.Stands (w.next node.2)) ms es) :
    Invariant { y with edges := x.edges.push es } moves roots := by
  have hlt : x.edges.size < x.nodes.size := (Array.getElem?_eq_some_iff.1 hnode).1
  have hnodes := hgrow.nodes_eq _ h.nodes_eq
  have hkept {i : Nat} {n : σ × Fin w.size} (hi : x.nodes[i]? = some n) : y.nodes[i]? = some n :=
    hgrow.kept hi
  refine ⟨hgrow.indexed h.indexed, ?_, ?_, ?_, fun n hn => ?_, fun {i n es'} hi he => ?_⟩
  · rw [Array.size_push]
    exact hgrow.waitingFrom hlt hwaiting
  · rw [Array.size_push]
    exact (Array.getElem?_eq_some_iff.1 (hkept hnode)).1
  · -- the nodes that are expanded now are those that were, and the next one
    have htake : y.nodes.toList.take (x.edges.size + 1) =
        x.nodes.toList.take x.edges.size ++ [node] := by
      obtain ⟨rest, hrest⟩ : x.nodes.toList <+: y.nodes.toList :=
        List.prefix_iff_getElem?.2 fun i hi => by
          rw [Array.getElem?_toList, Array.getElem_toList]
          exact hkept (Array.getElem?_eq_getElem hi)
      rw [← hrest, List.take_append_of_le_length hlt, List.take_add_one, Array.getElem?_toList,
        hnode, Option.toList_some]
    rw [Array.size_push, htake, List.flatMap_append, List.flatMap_singleton, ← List.append_assoc]
    exact hnodes
  · rw [← Array.mem_toList_iff, hnodes, List.mem_eraseDups, List.mem_append] at hn
    rcases hn with hn | hn
    · rw [← List.mem_eraseDups, ← h.nodes_eq, Array.mem_toList_iff] at hn
      exact h.reached n hn
    · obtain ⟨s, hs, hpath⟩ := h.reached node (Array.mem_of_getElem? hnode)
      exact ⟨s, hs, hpath.tail (mem_follow.1 hn)⟩
  · rw [Array.getElem?_push] at he
    split at he
    · rename_i hsize
      obtain rfl := Option.some.inj he
      rw [hsize, hkept hnode] at hi
      obtain rfl := Option.some.inj hi
      exact ⟨ms, hms, hes⟩
    · have hlt := Nat.lt_of_lt_of_le (Array.getElem?_eq_some_iff.1 he).1 h.edges_le
      have hold : x.nodes[i]? = some n := by
        rw [← hi, hkept (Array.getElem?_eq_getElem hlt), Array.getElem?_eq_getElem hlt]
      obtain ⟨ms', hms', hes'⟩ := h.expanded hold he
      exact ⟨ms', hms', hgrow.forall₂ hes'⟩

/-- While some node has no edges, the next one is taken out of the queue and expanded. -/
theorem exists_expand (h : x.Invariant moves roots) {node : σ × Fin w.size}
    (hnode : x.nodes[x.edges.size]? = some node)
    (hmoves : ∃ ms, moves node.1 (w.letter node.2) = .ok ms) :
    ∃ i x' y, x.pop? = some (i, x') ∧ x'.expand moves i = .ok y ∧ y.Invariant moves roots ∧
      y.edges.size = x.edges.size + 1 := by
  obtain ⟨ms, hms⟩ := hmoves
  obtain ⟨waiting, hpop, hwaiting⟩ := exists_pop h (Array.getElem?_eq_some_iff.1 hnode).1
  have hindexed : Indexed { x with waiting := waiting } := h.indexed
  obtain ⟨hgrow, hes⟩ := addMoves_grows (w.next node.2) ms hindexed
  rw [← follow_eq hms] at hgrow
  refine ⟨_, _, _, hpop, ?_, h.push_edges hnode hwaiting hgrow hms hes, Array.size_push _⟩
  simp only [expand, hnode, hms, hgrow.edges_eq, setEdges_size, bind, Except.bind, pure,
    Except.pure]

/-- A run of expansions ends with all nodes expanded, or uses up its bound. -/
theorem exists_run (hmoves : ∀ node : σ × Fin w.size, Reached moves roots node →
      ∃ ms, moves node.1 (w.letter node.2) = .ok ms)
    (bound : Nat) (h : x.Invariant moves roots) :
    ∃ y, run moves bound x = .ok y ∧ y.Invariant moves roots ∧
      (y.nodes.size ≤ y.edges.size ∨ x.edges.size + bound ≤ y.edges.size) := by
  induction bound generalizing x with
  | zero => exact ⟨x, rfl, h, .inr (Nat.le_refl _)⟩
  | succ bound ih =>
    by_cases hle : x.nodes.size ≤ x.edges.size
    · exact ⟨x, by rw [run, pop?_eq_none h hle], h, .inl hle⟩
    · have hnode := Array.getElem?_eq_getElem (Nat.lt_of_not_le hle)
      obtain ⟨i, x', y, hpop, hy, hinv, hsize⟩ :=
        exists_expand h hnode (hmoves _ (h.reached _ (Array.mem_of_getElem? hnode)))
      obtain ⟨z, hz, hinvz, hend⟩ := ih hinv
      refine ⟨z, ?_, hinvz, hend.imp_right fun hle => ?_⟩
      · rw [run, hpop]
        simp only [hy, bind, Except.bind]
        exact hz
      · omega

omit [LawfulBEq σ] in
/-- Once the queue is empty, a run does nothing, so a larger bound gives the same result. -/
theorem run_eq_of_le {bound bound' : Nat} (hle : bound ≤ bound') (h : run moves bound x = .ok y)
    (hy : y.pop? = none) : run moves bound' x = .ok y := by
  have hdone (n : Nat) : run moves n y = .ok y := by
    cases n with
    | zero => rfl
    | succ n => rw [run, hy]
  induction bound generalizing x bound' with
  | zero =>
    cases h
    exact hdone bound'
  | succ bound ih =>
    obtain ⟨m, rfl⟩ := Nat.exists_eq_add_of_le hle
    rw [Nat.add_right_comm, run]
    rw [run] at h
    split at h
    · exact h
    · rename_i i x' hpop
      cases hexpand : x'.expand moves i with
      | error f => rw [hexpand] at h; contradiction
      | ok z =>
        rw [hexpand] at h
        exact ih (Nat.le_add_right bound m) h

omit [LawfulBEq σ] in
/-- When all nodes are expanded, the exploration is finished. -/
theorem Invariant.finished (h : x.Invariant moves roots) (hx : x.nodes.size ≤ x.edges.size) :
    x.toProduct.Finished moves roots := by
  have hsize : x.edges.size = x.nodes.size := Nat.le_antisymm h.edges_le hx
  refine ⟨hsize, h.indexed.nodup, ?_, h.reached, fun {i _} hi => ?_⟩
  · have hnodes := h.nodes_eq
    rwa [hsize, ← Array.length_toList, List.take_length] at hnodes
  · have hlt : i < x.edges.size := hsize ▸ (Array.getElem?_eq_some_iff.1 hi).1
    rw [Array.getElem?_eq_getElem hlt]
    exact h.expanded hi (Array.getElem?_eq_getElem hlt)

end Exploration

variable [LawfulBEq σ] {moves : σ → IndexSet → Except Fault (List (Move σ))} {roots : List σ}

/-- **Exploration finishes** if moves never fail on the nodes that are reached, and the bound allows
for all of them.  Any larger bound gives the same product. -/
theorem exists_finished (bound : Nat)
    (hmoves : ∀ x : σ × Fin w.size, Reached moves roots x →
      ∃ out, moves x.1 (w.letter x.2) = .ok out)
    (hbound : ∀ xs : List (σ × Fin w.size), xs.Nodup → (∀ x ∈ xs, Reached moves roots x) →
      xs.length ≤ bound) :
    ∃ p : Product σ w, p.Finished moves roots ∧
      ∀ bound', bound ≤ bound' → explore w bound' roots moves = .ok p := by
  obtain ⟨x, hx, hinv, hend⟩ := Exploration.exists_run hmoves bound Exploration.addRoots_invariant
  have hlength := hbound x.nodes.toList hinv.indexed.nodup fun node hnode =>
    hinv.reached node (Array.mem_toList_iff.1 hnode)
  rw [Array.length_toList] at hlength
  have hsize : x.nodes.size ≤ x.edges.size := by omega
  refine ⟨x.toProduct, hinv.finished hsize, fun bound' hle => ?_⟩
  rw [explore, Exploration.run_eq_of_le hle hx (Exploration.pop?_eq_none hinv hsize), Except.map,
    ← Nat.le_antisymm hinv.edges_le hsize, resize_size]

omit [Hashable σ] in
/-- A finished product is an explored one. -/
theorem Finished.explored {p : Product σ w} (h : p.Finished moves roots) :
    p.Explored moves roots := by
  refine ⟨h.size_eq, fun {i j x} hi hj => ?_, fun s hs => ?_,
    fun hi => h.reached _ (Array.mem_of_getElem? hi), fun {i _} hi e he => ?_,
    fun {i _ _ _} hi hstep => ?_⟩
  · have hlt := (Array.getElem?_eq_some_iff.1 hi).1
    rw [← Array.length_toList] at hlt
    refine (List.getElem?_inj hlt h.nodup).1 ?_
    rw [Array.getElem?_toList, Array.getElem?_toList, hi, hj]
  · have hmem : (s, w.first) ∈ p.nodes := by
      rw [← Array.mem_toList_iff, h.nodes_eq, List.mem_eraseDups]
      exact List.mem_append_left _ (List.mem_map_of_mem hs)
    exact Array.getElem?_of_mem hmem
  · obtain ⟨out, hout, hes⟩ := h.expanded hi
    obtain ⟨m, hm, hacc, hnode⟩ := exists_left_of_forall₂ hes he
    exact ⟨_, hnode, rfl, out, hout, hacc ▸ hm⟩
  · obtain ⟨hpos, out, hout, hmem⟩ := hstep
    obtain ⟨out', hout', hes⟩ := h.expanded hi
    cases Except.ok.inj (hout.symm.trans hout')
    obtain ⟨e, he, hacc, hnode⟩ := exists_right_of_forall₂ hes hmem
    exact ⟨e, he, hacc, by rw [hnode, ← hpos]⟩

/-- **Exploration is complete.**  If moves never fail on the states of `domain` and lead to such
states only, and the bound allows for all pairs of a state and a position, the product is explored
to its end. -/
theorem exists_explore (w : Lasso) (moves : σ → IndexSet → Except Fault (List (Move σ)))
    (roots domain : List σ) (bound : Nat) (hroots : ∀ s ∈ roots, s ∈ domain)
    (hmoves : ∀ s ∈ domain, ∀ v, ∃ out, moves s v = .ok out ∧ ∀ m ∈ out, m.state ∈ domain)
    (hbound : domain.length * w.size ≤ bound) :
    ∃ p, explore w bound roots moves = .ok p ∧ p.Explored moves roots := by
  have hdomain {x : σ × Fin w.size} (hx : Reached moves roots x) : x.1 ∈ domain := by
    obtain ⟨s, hs, hpath⟩ := hx
    induction hpath with
    | refl => exact hroots s hs
    | tail _ hstep ih =>
      obtain ⟨a, -, out, hout, hmem⟩ := hstep
      obtain ⟨out', hout', hstates⟩ := hmoves _ ih (w.letter _)
      cases hout.symm.trans hout'
      exact hstates _ hmem
  obtain ⟨p, hp, hexplore⟩ := exists_finished (w := w) bound
    (fun x hx => (hmoves x.1 (hdomain hx) (w.letter x.2)).imp fun _ h => h.1)
    fun xs hxs hreached => by
      have hsubset : xs ⊆ domain ×ˢ List.finRange w.size := fun x hx =>
        List.mem_product.2 ⟨hdomain (hreached x hx), List.mem_finRange _⟩
      have hle := (List.subperm_of_subset hxs hsubset).length_le
      rw [List.length_product, List.length_finRange] at hle
      exact Nat.le_trans hle hbound
  exact ⟨p, hexplore bound (Nat.le_refl _), hp.explored⟩

end Product

end OmegaAutomata
