/-
# Strongly connected components

Decomposes the part of a finite graph that can be reached from a list of roots, by
Tarjan's algorithm with an explicit stack of calls.  Nodes are ranked in the order
in which they are met.  A node stays on a second stack until its component is
complete, and its low link is the least rank on this stack that it is known to
reach.  When all edges of a node are followed and its low link is still its own
rank, the nodes down to it on the stack are a component.

Components are numbered in the order in which they are completed, so each one is
numbered before every other component that can reach it.  The search ends because
each step meets a node, or follows an edge or a root for good, or leaves a call:
`Search.step_before`.
-/

import OmegaAutomata.Fault

namespace OmegaAutomata

/-- The components of the nodes that were reached. -/
structure Components where
  /-- The component of each node, if it was reached. -/
  component : Array (Option Nat)
  /-- The number of nodes of each component. -/
  sizes : Array Nat

/-- The component of a node of the graph, if it was reached. -/
def Components.componentOf (cs : Components) (v : Nat) : Except Fault (Option Nat) :=
  match cs.component[v]? with
  | none => .error (.unknownNode v)
  | some c => .ok c

/-- A call of the search: a node and what it leads to, of which `next` comes next. -/
structure Frame (n : Nat) where
  node : Fin n
  successors : Array Nat
  next : Nat

namespace Frame

variable {n w : Nat} {f : Frame n}

/-- The edges that are still to be followed, in order. -/
def pending (f : Frame n) : List Nat :=
  f.successors.toList.drop f.next

/-- Goes on to the next edge. -/
def advance (f : Frame n) : Frame n :=
  { f with next := f.next + 1 }

/-- The edge that comes next is the first of those that are to be followed. -/
theorem pending_eq_cons (h : f.successors[f.next]? = some w) :
    f.pending = w :: f.advance.pending := by
  obtain ⟨hlt, rfl⟩ := Array.getElem?_eq_some_iff.1 h
  exact List.drop_eq_getElem_cons (l := f.successors.toList) hlt

theorem pending_eq_nil (h : f.successors[f.next]? = none) : f.pending = [] :=
  List.drop_eq_nil_of_le (Array.getElem?_eq_none_iff.1 h)

end Frame

/-- The state of a search of a graph with `n` nodes. -/
structure Search (n : Nat) where
  /-- The number of nodes that were met before a node, if it was met. -/
  rank : Vector (Option Nat) n
  /-- The least rank on the stack that a node is known to reach, if it was met. -/
  lowlink : Vector (Option Nat) n
  /-- Whether a node is on the stack. -/
  onStack : Vector Bool n
  /-- The nodes that were met and are in no component yet, the latest first. -/
  stack : List (Fin n)
  /-- The calls that are not left yet, the current one first. -/
  calls : List (Frame n)
  component : Vector (Option Nat) n
  /-- The sizes of the completed components. -/
  sizes : Array Nat
  /-- How many nodes were met. -/
  counter : Nat
  /-- The roots that are still to be tried. -/
  roots : List Nat

namespace Search

variable {n : Nat}

/-- A search that has met no node. -/
def start (n : Nat) (roots : List Nat) : Search n :=
  ⟨.replicate n none, .replicate n none, .replicate n false, [], [], .replicate n none, #[], 0,
    roots⟩

/-- Whether nothing is left to do. -/
def done (s : Search n) : Bool :=
  s.calls.isEmpty && s.roots.isEmpty

/-- Meets a node, which leads to `out`, and calls the search for it. -/
def meet (s : Search n) (v : Fin n) (out : List Nat) : Search n :=
  { s with
    rank := s.rank.set v (some s.counter)
    lowlink := s.lowlink.set v (some s.counter)
    counter := s.counter + 1
    stack := v :: s.stack
    onStack := s.onStack.set v true
    calls := ⟨v, out.toArray, 0⟩ :: s.calls }

/-- Asks for the successors of a node and meets it. -/
def enter (successors : Nat → Except Fault (List Nat)) (s : Search n) (v : Fin n) :
    Except Fault (Search n) :=
  (successors v).map (s.meet v)

/-- Lowers the low link of a node to a rank, if it is larger. -/
def lower (s : Search n) (v : Fin n) (r : Option Nat) : Search n :=
  { s with lowlink := s.lowlink.set v (Option.merge min (s.lowlink.get v) r) }

/-- Tries a root, which is passed by if it was met. -/
def tryRoot (successors : Nat → Except Fault (List Nat)) (s : Search n) (r : Nat) :
    Except Fault (Search n) :=
  if h : r < n then
    match s.rank.get ⟨r, h⟩ with
    | none => s.enter successors ⟨r, h⟩
    | some _ => .ok s
  else .error (.unknownNode r)

/-- Follows an edge from `v` to `w`, which is passed by if it is in a component. -/
def follow (successors : Nat → Except Fault (List Nat)) (s : Search n) (v : Fin n) (w : Nat) :
    Except Fault (Search n) :=
  if h : w < n then
    match s.rank.get ⟨w, h⟩ with
    | none => s.enter successors ⟨w, h⟩
    | some r => .ok (if s.onStack.get ⟨w, h⟩ then s.lower v (some r) else s)
  else .error (.unknownNode w)

/-- Takes the uppermost node off the stack, into the component that is completed next. -/
def takeOff (s : Search n) (w : Fin n) (below : List (Fin n)) : Search n :=
  { s with
    stack := below
    onStack := s.onStack.set w false
    component := s.component.set w (some s.sizes.size) }

/-- Takes nodes off the stack, down to `v`, and makes them a component.  `size` of its nodes were
taken before. -/
def complete (v : Fin n) (s : Search n) (size : Nat) : (stack : List (Fin n)) →
    Except Fault (Search n)
  | [] => .error .emptyStack
  | w :: stack =>
    let s := s.takeOff w stack
    if w = v then .ok { s with sizes := s.sizes.push (size + 1) }
    else complete v s (size + 1) stack

/-- Lowers the low link of the node that called the search for `v` to that of `v`. -/
def lowerCaller (s : Search n) (v : Fin n) : Search n :=
  match s.calls with
  | [] => s
  | caller :: _ => s.lower caller.node (s.lowlink.get v)

/-- Ends the call for `v`, all edges of which are followed; `rest` are the calls below it. -/
def leave (s : Search n) (v : Fin n) (rest : List (Frame n)) : Except Fault (Search n) :=
  let s := lowerCaller { s with calls := rest } v
  if s.lowlink.get v = s.rank.get v then complete v s 0 s.stack else .ok s

/-- One step: follow the next edge of the current call, leave the call if there is none, or try
the next root if there is no call. -/
def step (successors : Nat → Except Fault (List Nat)) (s : Search n) : Except Fault (Search n) :=
  match s.calls with
  | [] =>
    match s.roots with
    | [] => .ok s
    | r :: roots => tryRoot successors { s with roots := roots } r
  | f :: rest =>
    match f.successors[f.next]? with
    | some w => follow successors { s with calls := f.advance :: rest } f.node w
    | none => s.leave f.node rest

/-! ### Termination -/

/-- The number of nodes that were not met. -/
def freshCount (s : Search n) : Nat :=
  s.rank.countP Option.isNone

/-- The roots and edges that are still to be followed, and the calls that are to be left. -/
def work (s : Search n) : Nat :=
  s.roots.length + (s.calls.flatMap Frame.pending).length + s.calls.length

/-- One search is closer to its end than another if it has fewer fresh nodes, or as many and less
work. -/
def Before (s t : Search n) : Prop :=
  Prod.Lex (· < ·) (· < ·) (s.freshCount, s.work) (t.freshCount, t.work)

theorem before_wf : WellFounded (Before (n := n)) :=
  InvImage.wf (fun s : Search n => (s.freshCount, s.work))
    (Prod.lex Nat.lt_wfRel Nat.lt_wfRel).wf

theorem before_of_eq {s t : Search n} (hrank : s.rank = t.rank) (hwork : s.work < t.work) :
    s.Before t := by
  unfold Before freshCount
  rw [hrank]
  exact Prod.Lex.right _ hwork

/-- Meeting a node spends it. -/
theorem enter_before {successors : Nat → Except Fault (List Nat)} {s s' t : Search n} {v : Fin n}
    (h : s.enter successors v = .ok s') (hv : s.rank.get v = none) (hrank : s.rank = t.rank) :
    s'.Before t := by
  unfold enter at h
  cases hs : successors v with
  | error f => rw [hs] at h; contradiction
  | ok out =>
    rw [hs] at h
    cases h
    refine Prod.Lex.left _ _ ?_
    have hpos : 0 < s.rank.countP Option.isNone :=
      Vector.countP_pos_iff.2 ⟨none, hv ▸ Vector.getElem_mem v.isLt, rfl⟩
    have hfresh : s.rank[v.val].isNone = true := congrArg Option.isNone hv
    simp only [freshCount, meet, ← hrank]
    rw [Vector.countP_set, if_pos hfresh, if_neg (by simp)]
    omega

theorem tryRoot_before {successors : Nat → Except Fault (List Nat)} {s s' t : Search n} {r : Nat}
    (h : s.tryRoot successors r = .ok s') (hrank : s.rank = t.rank) (hwork : s.work < t.work) :
    s'.Before t := by
  unfold tryRoot at h
  split at h
  · split at h
    · exact enter_before h ‹_› hrank
    · cases h
      exact before_of_eq hrank hwork
  · contradiction

theorem follow_before {successors : Nat → Except Fault (List Nat)} {s s' t : Search n}
    {v : Fin n} {w : Nat} (h : s.follow successors v w = .ok s') (hrank : s.rank = t.rank)
    (hwork : s.work < t.work) : s'.Before t := by
  unfold follow at h
  split at h
  · split at h
    · exact enter_before h ‹_› hrank
    · cases h
      split
      · exact before_of_eq hrank hwork
      · exact before_of_eq hrank hwork
  · contradiction

/-- Completing a component meets no node, and leaves no edge, root or call to be followed. -/
theorem complete_eq {v : Fin n} {stack : List (Fin n)} {s s' : Search n} {size : Nat}
    (h : complete v s size stack = .ok s') :
    s'.rank = s.rank ∧ s'.calls = s.calls ∧ s'.roots = s.roots := by
  induction stack generalizing s size with
  | nil => contradiction
  | cons w stack ih =>
    rw [complete] at h
    split at h
    · cases h
      exact ⟨rfl, rfl, rfl⟩
    · have heq := ih h
      exact heq

theorem lowerCaller_eq (s : Search n) (v : Fin n) : (s.lowerCaller v).rank = s.rank ∧
    (s.lowerCaller v).calls = s.calls ∧ (s.lowerCaller v).roots = s.roots := by
  unfold lowerCaller
  split
  · exact ⟨rfl, rfl, rfl⟩
  · exact ⟨rfl, rfl, rfl⟩

/-- Leaving a call meets no node. -/
theorem leave_eq {s s' : Search n} {v : Fin n} {rest : List (Frame n)}
    (h : s.leave v rest = .ok s') :
    s'.rank = s.rank ∧ s'.calls = rest ∧ s'.roots = s.roots := by
  obtain ⟨hrank, hcalls, hroots⟩ := lowerCaller_eq { s with calls := rest } v
  unfold leave at h
  dsimp only at h
  split at h
  · obtain ⟨hrank', hcalls', hroots'⟩ := complete_eq h
    exact ⟨hrank'.trans hrank, hcalls'.trans hcalls, hroots'.trans hroots⟩
  · cases h
    exact ⟨hrank, hcalls, hroots⟩

/-- Each step brings a search that is not done closer to its end. -/
theorem step_before {successors : Nat → Except Fault (List Nat)} {s s' : Search n}
    (hd : s.done = false) (h : s.step successors = .ok s') : s'.Before s := by
  unfold step at h
  split at h
  · rename_i hcalls
    split at h
    · rename_i hroots
      simp [done, hcalls, hroots] at hd
    · rename_i r roots hroots
      refine tryRoot_before h rfl ?_
      simp [work, hroots]
  · rename_i f rest hcalls
    split at h
    · rename_i w hw
      refine follow_before h rfl ?_
      simp only [work, hcalls, List.flatMap_cons, Frame.pending_eq_cons hw, List.length_cons,
        List.length_append]
      omega
    · obtain ⟨hrank, hrest, hroots⟩ := leave_eq h
      refine before_of_eq hrank ?_
      simp only [work, hcalls, hrest, hroots, List.flatMap_cons, List.length_cons,
        List.length_append]
      omega

/-- Searches until nothing is left to do. -/
def run (successors : Nat → Except Fault (List Nat)) (s : Search n) : Except Fault (Search n) :=
  if _ : s.done then .ok s
  else
    match _ : s.step successors with
    | .error f => .error f
    | .ok s' => run successors s'
termination_by before_wf.wrap s
decreasing_by exact step_before (Bool.eq_false_iff.2 ‹_›) ‹_›

end Search

/-- The strongly connected components of what can be reached from `roots` in the graph with nodes
`0 … n - 1`.  The successors of a node are asked for once, when it is first met. -/
def strongComponents (n : Nat) (roots : List Nat)
    (successors : Nat → Except Fault (List Nat)) : Except Fault Components :=
  (Search.run successors (.start n roots)).map fun s => ⟨s.component.toArray, s.sizes⟩

end OmegaAutomata
