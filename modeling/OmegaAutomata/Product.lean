/-
# Products with a lasso

The product of an automaton with a lasso has the pairs of an automaton state and
a position as its nodes.  `explore` builds the part of it that can be reached from
the given states at the first position.  A node is numbered when it is met first, and
its number waits in a queue until the node is expanded: its successors are looked up,
or appended, in the order in which the automaton gives them.  That the queue always
holds the numbers of the nodes without edges, in increasing order, is proved in
`Proofs.Product.Exploration`.

A run over the word ends up in a strongly connected component of the product that
has an edge of its own.  `cycles` lists these components together with the
acceptance sets that their inner edges belong to, which is all that a run can see
infinitely often.
-/

import OmegaAutomata.Components
import OmegaAutomata.Lasso
import Std.Data.HashMap

namespace OmegaAutomata

/-- A step of an automaton: the state it leads to and the acceptance sets it belongs to. -/
structure Move (σ : Type) where
  state : σ
  acceptance : IndexSet

/-- An edge of a product: the number of the node it leads to and its acceptance sets. -/
structure Product.Edge where
  target : Nat
  acceptance : IndexSet

/-- A product of an automaton with states in `σ` with the lasso `w`: `edges[i]` lists the edges out
of `nodes[i]`. -/
structure Product (σ : Type) (w : Lasso) where
  nodes : Array (σ × Fin w.size)
  edges : Array (List Product.Edge)

/-- A strongly connected component with an inner edge: its nodes in increasing order, and the union
of the acceptance sets of its inner edges. -/
structure Cycle where
  nodes : Array Nat
  acceptance : IndexSet

/-- The cycle of a component after one more inner edge: it is there from the first one on. -/
def Cycle.addEdge (cycle : Option Cycle) (e : Product.Edge) : Cycle :=
  let cycle := cycle.getD ⟨#[], ∅⟩
  { cycle with acceptance := cycle.acceptance ∪ e.acceptance }

/-- A cycle with one more node. -/
def Cycle.addNode (cycle : Cycle) (v : Nat) : Cycle :=
  { cycle with nodes := cycle.nodes.push v }

namespace Product

variable {σ : Type} {w : Lasso}

/-- The automaton state of a node. -/
def state (p : Product σ w) (v : Nat) : Except Fault σ :=
  match p.nodes[v]? with
  | none => .error (.unknownNode v)
  | some (s, _) => .ok s

/-- The nodes that a node leads to. -/
def successors (p : Product σ w) (v : Nat) : Except Fault (List Nat) :=
  match p.edges[v]? with
  | none => .error (.unknownNode v)
  | some out => .ok (out.map Edge.target)

/-! ### Exploration -/

/-- The first `n` lists of edges, followed by empty ones if there are fewer. -/
def resize (edges : Array (List Edge)) (n : Nat) : Array (List Edge) :=
  edges.take n ++ Array.replicate (n - edges.size) []

/-- Makes room for the edges of node `i`. -/
def makeRoom (edges : Array (List Edge)) (i : Nat) : Array (List Edge) :=
  if edges.size ≤ i then resize edges (i + 1) else edges

theorem size_resize (edges : Array (List Edge)) (n : Nat) : (resize edges n).size = n := by
  simp only [resize, Array.size_append, Array.take_eq_extract, Array.size_extract,
    Array.size_replicate]
  omega

theorem lt_size_makeRoom (edges : Array (List Edge)) (i : Nat) : i < (makeRoom edges i).size := by
  unfold makeRoom
  split
  · rw [size_resize]
    exact Nat.lt_succ_self i
  · exact Nat.lt_of_not_le ‹_›

/-- Sets the edges of node `i`. -/
def setEdges (edges : Array (List Edge)) (i : Nat) (out : List Edge) : Array (List Edge) :=
  (makeRoom edges i).set i out (lt_size_makeRoom edges i)

variable [BEq σ] [Hashable σ]

/-- A product under construction, with the numbers of its nodes and the queue of those that are to
be expanded. -/
structure Exploration (σ : Type) [BEq σ] [Hashable σ] (w : Lasso) extends Product σ w where
  index : Std.HashMap (σ × Fin w.size) Nat
  waiting : Std.Queue Nat

/-- The product without nodes. -/
def Exploration.empty : Exploration σ w :=
  ⟨⟨#[], #[]⟩, ∅, .empty⟩

/-- The number of a node.  A new node is appended, and put into the queue. -/
def Exploration.push (x : Exploration σ w) (node : σ × Fin w.size) : Nat × Exploration σ w :=
  match x.index[node]? with
  | some i => (i, x)
  | none =>
    let i := x.nodes.size
    (i, ⟨⟨x.nodes.push node, x.edges⟩, x.index.insert node i, x.waiting.enqueue i⟩)

/-- Takes the first number out of the queue. -/
def Exploration.pop? (x : Exploration σ w) : Option (Nat × Exploration σ w) :=
  x.waiting.dequeue?.map fun (i, waiting) => (i, { x with waiting := waiting })

/-- Adds the states at the first position. -/
def Exploration.addRoots (x : Exploration σ w) (roots : List σ) : Exploration σ w :=
  roots.foldl (fun x s => (x.push (s, w.first)).2) x

/-- The edges for a list of moves to position `p`, in order. -/
def Exploration.addMoves (x : Exploration σ w) (p : Fin w.size) :
    List (Move σ) → List Edge × Exploration σ w
  | [] => ([], x)
  | m :: moves =>
    let (target, x) := x.push (m.state, p)
    let (edges, x) := x.addMoves p moves
    (⟨target, m.acceptance⟩ :: edges, x)

/-- Gives node number `i` its edges. -/
def Exploration.expand (moves : σ → IndexSet → Except Fault (List (Move σ)))
    (x : Exploration σ w) (i : Nat) : Except Fault (Exploration σ w) :=
  match x.nodes[i]? with
  | none => .error (.unknownNode i)
  | some (s, p) => do
    let (out, x) := x.addMoves (w.next p) (← moves s (w.letter p))
    pure { x with edges := setEdges x.edges i out }

/-- Expands the nodes in the queue until it is empty, at most `bound` of them. -/
def Exploration.run (moves : σ → IndexSet → Except Fault (List (Move σ))) :
    (bound : Nat) → Exploration σ w → Except Fault (Exploration σ w)
  | 0, x => .ok x
  | bound + 1, x =>
    match x.pop? with
    | none => .ok x
    | some (i, x) => do Exploration.run moves bound (← x.expand moves i)

/-- The product of `w` with the automaton that starts in `roots` and takes the given moves from a
state when it reads a letter.  All its nodes are expanded if no more than `bound` can be reached. -/
def explore (w : Lasso) (bound : Nat) (roots : List σ)
    (moves : σ → IndexSet → Except Fault (List (Move σ))) : Except Fault (Product σ w) :=
  (Exploration.run moves bound (Exploration.empty.addRoots roots)).map fun x =>
    ⟨x.nodes, resize x.edges x.nodes.size⟩

/-! ### Cycles -/

omit [BEq σ] [Hashable σ]

/-- Changes what is known about the cycle of a component. -/
def updateSlot (slots : Array (Option Cycle)) (c : Nat) (f : Option Cycle → Option Cycle) :
    Except Fault (Array (Option Cycle)) :=
  if h : c < slots.size then .ok (slots.set c (f slots[c])) else .error (.unknownComponent c)

/-- Adds an edge out of a node of component `c` to the cycle of its component, if it is an inner
edge. -/
def gatherEdge (cs : Components) (c : Option Nat) (slots : Array (Option Cycle)) (e : Edge) :
    Except Fault (Array (Option Cycle)) := do
  if (← cs.componentOf e.target) = c then
    match c with
    | some c => updateSlot slots c fun cycle => some (Cycle.addEdge cycle e)
    | none => pure slots
  else pure slots

/-- Adds all edges, node by node. -/
def gatherEdges (p : Product σ w) (cs : Components) (slots : Array (Option Cycle)) :
    Except Fault (Array (Option Cycle)) :=
  p.edges.toList.zipIdx.foldlM (fun slots (out, v) => do
    let c ← cs.componentOf v
    out.foldlM (gatherEdge cs c) slots) slots

/-- Adds a node to the cycle of its component, if there is one. -/
def gatherNode (cs : Components) (slots : Array (Option Cycle)) (v : Nat) :
    Except Fault (Array (Option Cycle)) := do
  match ← cs.componentOf v with
  | some c => updateSlot slots c (Option.map fun cycle => cycle.addNode v)
  | none => pure slots

/-- The strongly connected components that have an inner edge, by component number. -/
def cycles (p : Product σ w) : Except Fault (List Cycle) := do
  let n := p.nodes.size
  let cs ← strongComponents n (List.range n) p.successors
  let slots ← p.gatherEdges cs (Array.replicate cs.sizes.size none)
  let slots ← (List.range n).foldlM (gatherNode cs) slots
  pure (slots.toList.filterMap id)

end Product

end OmegaAutomata
