/-
# The strong components of a graph

`Components.Decomposes` says what a decomposition is: the nodes with a component are
those that a root reaches, two of them are in one component exactly when they reach
each other, and an edge never leads to a component with a larger number.
`decomposes_of_strongComponents` shows that every result of `strongComponents` is
one, and `exists_strongComponents` that there is a result if no edge leaves the
graph.

Since no component is empty, the numbers in use are those below the number of
components (`Components.Decomposes.lt_size_iff`), and `strongComponents_decomposes`
says what the decomposition of a graph is in terms of its paths only.
-/

import OmegaAutomata.Proofs.Components.Completion
import Mathlib

namespace OmegaAutomata

namespace Search

variable {n : Nat} {successors : Nat → Except Fault (List Nat)} {roots : List Nat}
  {path : List (Part n)} {s : Search n}

/-! ### Whole searches -/

/-- **A step keeps the invariant.** -/
theorem step_invariant {s' : Search n} (h : Invariant successors roots path s)
    (hs : step successors s = .ok s') : ∃ path, Invariant successors roots path s' := by
  have hcalls := h.calls_eq
  unfold step at hs
  split at hs
  · rename_i hnil
    obtain rfl : path = [] := List.map_eq_nil_iff.1 (hcalls.symm.trans hnil)
    split at hs
    · cases hs
      exact ⟨[], h⟩
    · rename_i hroots
      exact h.tryRoot hroots hs
  · rename_i f rest hcons
    obtain ⟨g, outer, rfl, rfl, rfl⟩ := List.map_eq_cons_iff.1 (hcalls.symm.trans hcons)
    split at hs
    · rename_i hw
      exact h.follow hw hs
    · rename_i hnone
      obtain ⟨path, t, ht, hinv⟩ := h.exists_leave (Frame.pending_eq_nil hnone)
      cases ht.symm.trans hs
      exact ⟨path, hinv⟩

/-- What a search finds was known at its start or follows step by step. -/
theorem run_invariant {t : Search n} (h : Invariant successors roots path s)
    (ht : run successors s = .ok t) :
    (∃ path, Invariant successors roots path t) ∧ t.done = true := by
  induction s using run.induct successors generalizing path with
  | case1 s hd =>
    rw [run, dif_pos hd] at ht
    cases ht
    exact ⟨⟨path, h⟩, hd⟩
  | case2 s hd f hs =>
    rw [run, dif_neg hd] at ht
    split at ht
    · contradiction
    · rename_i s' hs'
      exact absurd (hs.symm.trans hs') (by simp)
  | case3 s hd s' hs ih =>
    rw [run, dif_neg hd] at ht
    split at ht
    · contradiction
    · rename_i s'' hs'
      cases Except.ok.inj (hs.symm.trans hs')
      obtain ⟨path, h'⟩ := step_invariant h hs
      exact ih h' ht

/-- A search whose steps never fail has a result. -/
theorem exists_run
    (hstep : ∀ path s, Invariant successors roots path s → ∃ s' : Search n,
      step successors s = .ok s')
    (h : Invariant successors roots path s) : ∃ t, run successors s = .ok t := by
  induction s using run.induct successors generalizing path with
  | case1 s hd => exact ⟨s, by rw [run, dif_pos hd]⟩
  | case2 s hd f hs =>
    obtain ⟨s', hs'⟩ := hstep path s h
    exact absurd (hs.symm.trans hs') (by simp)
  | case3 s hd s' hs ih =>
    obtain ⟨path, h'⟩ := step_invariant h hs
    obtain ⟨t, ht⟩ := ih h'
    refine ⟨t, ?_⟩
    rw [run, dif_neg hd]
    split
    · rename_i f hf
      exact absurd (hs.symm.trans hf) (by simp)
    · rename_i s'' hs'
      cases Except.ok.inj (hs.symm.trans hs')
      exact ht

/-- Following an edge to a node of the graph that has successors does not fail. -/
theorem exists_follow {w : Nat} {out : List Nat} (s : Search n) (v : Fin n) (hw : w < n)
    (hout : successors w = .ok out) : ∃ s', follow successors s v w = .ok s' := by
  rw [follow, dif_pos hw]
  split
  · exact ⟨_, by rw [enter, hout]; rfl⟩
  · exact ⟨_, rfl⟩

theorem exists_tryRoot {w : Nat} {out : List Nat} (s : Search n) (hw : w < n)
    (hout : successors w = .ok out) : ∃ s', tryRoot successors s w = .ok s' := by
  rw [tryRoot, dif_pos hw]
  split
  · exact ⟨_, by rw [enter, hout]; rfl⟩
  · exact ⟨_, rfl⟩

/-- **A step does not fail** as long as no edge leaves the graph.  In particular the stack is not
empty when a component is taken off it. -/
theorem exists_step (hroots : ∀ x ∈ roots, x < n)
    (hsucc : ∀ x ∈ roots, ∀ v, Reaches successors x v →
      ∃ out, successors v = .ok out ∧ ∀ w ∈ out, w < n)
    (h : Invariant successors roots path s) : ∃ s', step successors s = .ok s' := by
  have hcalls := h.calls_eq
  unfold step
  split
  · split
    · exact ⟨_, rfl⟩
    · rename_i r todo htodo
      have hr : r ∈ roots := h.reached.of_todo r (htodo ▸ List.mem_cons_self)
      obtain ⟨out, hout, -⟩ := hsucc r hr r .refl
      exact exists_tryRoot _ (hroots r hr) hout
  · rename_i f rest hcons
    obtain ⟨g, outer, rfl, rfl, rfl⟩ := List.map_eq_cons_iff.1 (hcalls.symm.trans hcons)
    split
    · rename_i w hw
      have hedge : Edge successors g.frame.node w := by
        refine (h.sound g List.mem_cons_self).pending_edge w ?_
        rw [h.pending_eq g List.mem_cons_self, Frame.pending_eq_cons hw]
        exact List.mem_cons_self
      obtain ⟨x, hx, hreach⟩ := h.reached.of_met _ _ (h.sound g List.mem_cons_self).rank_eq
      obtain ⟨out, hout, hlt⟩ := hsucc x hx _ hreach
      obtain ⟨out', hout', hmem⟩ := hedge
      cases hout.symm.trans hout'
      obtain ⟨out', hout', -⟩ := hsucc x hx w (hreach.tail ⟨out, hout, hmem⟩)
      exact exists_follow _ _ (hlt w hmem) hout'
    · rename_i hnone
      obtain ⟨-, s', hs', -⟩ := h.exists_leave (Frame.pending_eq_nil hnone)
      exact ⟨s', hs'⟩

/-- Completed components are closed under paths, which never lead to a larger number. -/
theorem Completed.of_reaches {component : Vector (Option Nat) n} {sizes : Array Nat} {v : Fin n}
    {w c : Nat} (h : Completed successors component sizes) (hv : component.get v = some c)
    (hvw : Reaches successors v w) :
    ∃ u : Fin n, u.val = w ∧ ∃ d ≤ c, component.get u = some d := by
  induction hvw with
  | refl => exact ⟨v, rfl, c, Nat.le_refl c, hv⟩
  | tail _ hxw ih =>
    obtain ⟨x, rfl, d, hd, hx⟩ := ih
    obtain ⟨u, hw, e, he, hu⟩ := h.edge x _ d hx hxw
    exact ⟨u, hw, e, Nat.le_trans he hd, hu⟩

/-- When nothing is left to do, the stack is empty: every node that was met is in a component. -/
theorem Invariant.component_of_done {v : Fin n} {r : Nat} (h : Invariant successors roots path s)
    (hd : s.done = true) (hv : s.rank.get v = some r) : ∃ c, s.component.get v = some c := by
  rw [done, Bool.and_eq_true, List.isEmpty_iff, h.calls_eq, List.map_eq_nil_iff] at hd
  refine (h.met_cases v r hv).resolve_left fun hmem => ?_
  rw [h.stack_eq, hd.1] at hmem
  exact List.not_mem_nil hmem

end Search

namespace Components

open Search

/-- The component of a node, if it has one. -/
def component? (cs : Components) (v : Nat) : Option Nat :=
  (cs.component[v]?).join

/-- What a decomposition of the graph with nodes `0 … n - 1` from `roots` says. -/
structure Decomposes (cs : Components) (successors : Nat → Except Fault (List Nat)) (n : Nat)
    (roots : List Nat) : Prop where
  size_eq : cs.component.size = n
  isSome_iff : ∀ v, (cs.component? v).isSome = true ↔ ∃ x ∈ roots, Reaches successors x v
  eq_iff : ∀ v w c d, cs.component? v = some c → cs.component? w = some d →
    (c = d ↔ Reaches successors v w ∧ Reaches successors w v)
  le_of_reaches : ∀ v w c, cs.component? v = some c → Reaches successors v w →
    ∃ d ≤ c, cs.component? w = some d
  lt_size : ∀ v c, cs.component? v = some c → c < cs.sizes.size
  sizes_eq : ∀ c k : Nat, cs.sizes[c]? = some k → 0 < k ∧
    k = ((Finset.range n).filter fun v => cs.component? v = some c).card

/-- Only nodes of the graph have a component. -/
theorem Decomposes.lt {cs : Components} {successors : Nat → Except Fault (List Nat)} {n v c : Nat}
    {roots : List Nat} (h : cs.Decomposes successors n roots) (hv : cs.component? v = some c) :
    v < n := by
  rw [← h.size_eq]
  by_contra hlt
  rw [component?, Array.getElem?_eq_none (Nat.le_of_not_lt hlt)] at hv
  contradiction

/-- **The component numbers in use** are those below the number of components. -/
theorem Decomposes.lt_size_iff {cs : Components} {successors : Nat → Except Fault (List Nat)}
    {n c : Nat} {roots : List Nat} (h : cs.Decomposes successors n roots) :
    c < cs.sizes.size ↔ ∃ v, cs.component? v = some c := by
  constructor
  · intro hc
    obtain ⟨hpos, hcard⟩ := h.sizes_eq c _ (Array.getElem?_eq_getElem hc)
    obtain ⟨v, hv⟩ := Finset.card_pos.1 (hcard ▸ hpos)
    exact ⟨v, (Finset.mem_filter.1 hv).2⟩
  · rintro ⟨v, hv⟩
    exact h.lt_size v c hv

/-- The component of a node of a vector of components. -/
theorem component?_toArray {n v c : Nat} {component : Vector (Option Nat) n} {sizes : Array Nat} :
    component? ⟨component.toArray, sizes⟩ v = some c ↔
      ∃ u : Fin n, u.val = v ∧ component.get u = some c := by
  rw [component?, Vector.getElem?_toArray]
  constructor
  · intro hv
    obtain ⟨hlt, hget⟩ := Vector.getElem?_eq_some_iff.1 (Option.join_eq_some_iff.1 hv)
    exact ⟨⟨v, hlt⟩, rfl, hget⟩
  · rintro ⟨u, rfl, hu⟩
    exact Option.join_eq_some_iff.2 (Vector.getElem?_eq_some_iff.2 ⟨u.isLt, hu⟩)

/-- The components of a search that is done decompose the graph. -/
theorem decomposes_of_invariant {n : Nat} {successors : Nat → Except Fault (List Nat)}
    {roots : List Nat} {path : List (Part n)} {s : Search n}
    (h : Invariant successors roots path s) (hd : s.done = true) :
    Decomposes ⟨s.component.toArray, s.sizes⟩ successors n roots := by
  refine ⟨s.component.size_toArray, fun v => ?_, fun v w c d hv hw => ?_,
    fun v w c hv hvw => ?_, fun v c hv => ?_, fun c k hk => ?_⟩
  · rw [Option.isSome_iff_exists]
    constructor
    · rintro ⟨c, hc⟩
      obtain ⟨u, rfl, hu⟩ := component?_toArray.1 hc
      obtain ⟨-, r, hr⟩ := h.of_component u c hu
      exact h.reached.of_met u r hr
    · rintro ⟨x, hx, hxv⟩
      have htodo : s.roots = [] := by
        rw [Search.done, Bool.and_eq_true, List.isEmpty_iff, List.isEmpty_iff] at hd
        exact hd.2
      rcases h.reached.root_cases x hx with hmem | ⟨u, rfl, r, hr⟩
      · exact absurd (htodo ▸ hmem) List.not_mem_nil
      · obtain ⟨c, hc⟩ := h.component_of_done hd hr
        obtain ⟨u', hu', d, -, hd⟩ := h.completed.of_reaches hc hxv
        exact ⟨d, component?_toArray.2 ⟨u', hu', hd⟩⟩
  · obtain ⟨x, rfl, hx⟩ := component?_toArray.1 hv
    obtain ⟨y, rfl, hy⟩ := component?_toArray.1 hw
    constructor
    · rintro rfl
      exact ⟨h.completed.reaches x y c hx hy, h.completed.reaches y x c hy hx⟩
    · rintro ⟨hxy, hyx⟩
      obtain ⟨y', hy', d', hd', hget⟩ := h.completed.of_reaches hx hxy
      obtain ⟨x', hx', c', hc', hget'⟩ := h.completed.of_reaches hy hyx
      cases Fin.ext hy'
      cases Fin.ext hx'
      cases hy.symm.trans hget
      cases hx.symm.trans hget'
      exact Nat.le_antisymm hc' hd'
  · obtain ⟨x, rfl, hx⟩ := component?_toArray.1 hv
    obtain ⟨u, hu, d, hdc, hget⟩ := h.completed.of_reaches hx hvw
    exact ⟨d, hdc, component?_toArray.2 ⟨u, hu, hget⟩⟩
  · obtain ⟨x, rfl, hx⟩ := component?_toArray.1 hv
    exact h.completed.lt_size x c hx
  · obtain ⟨hpos, hk⟩ := h.completed.sizes_eq c k hk
    have hmembers : (members s.component c).map Fin.valEmbedding =
        (Finset.range n).filter fun v => component? ⟨s.component.toArray, s.sizes⟩ v = some c := by
      ext v
      simp only [Finset.mem_map, mem_members, Finset.mem_filter, Finset.mem_range,
        component?_toArray, Fin.valEmbedding_apply]
      refine ⟨?_, fun hv => hv.2.imp fun u hu => ⟨hu.2, hu.1⟩⟩
      rintro ⟨u, hu, rfl⟩
      exact ⟨u.isLt, u, rfl, hu⟩
    rw [← hmembers, Finset.card_map]
    exact ⟨hpos, hk⟩

end Components

open Search

variable {successors : Nat → Except Fault (List Nat)} {n : Nat} {roots : List Nat}

/-- **Every result is a decomposition** into strong components. -/
theorem decomposes_of_strongComponents {cs : Components}
    (h : strongComponents n roots successors = .ok cs) : cs.Decomposes successors n roots := by
  unfold strongComponents at h
  cases hrun : run successors (start n roots) with
  | error f => rw [hrun] at h; contradiction
  | ok t =>
    rw [hrun] at h
    cases h
    obtain ⟨⟨_, hinv⟩, hdone⟩ := run_invariant (start_invariant n roots) hrun
    exact Components.decomposes_of_invariant hinv hdone

/-- **There is a result** if roots are nodes of the graph and reached nodes have successors in
it. -/
theorem exists_strongComponents (hroots : ∀ x ∈ roots, x < n)
    (hsucc : ∀ x ∈ roots, ∀ v, Reaches successors x v →
      ∃ out, successors v = .ok out ∧ ∀ w ∈ out, w < n) :
    ∃ cs, strongComponents n roots successors = .ok cs := by
  obtain ⟨t, ht⟩ := exists_run (fun _ _ => exists_step hroots hsucc) (start_invariant n roots)
  exact ⟨_, by rw [strongComponents, ht]; rfl⟩

/-- **The decomposition of a graph.**  If roots and successors are nodes of the graph, there is a
result.  The nodes with a component are those that a root reaches, and two of them are in one
component exactly when they reach each other.  The numbers in use are those below the number of
components, each component has the size that is reported, and it is numbered before every other
component that can reach it. -/
theorem strongComponents_decomposes (hroots : ∀ x ∈ roots, x < n)
    (hsucc : ∀ v < n, ∃ out, successors v = .ok out ∧ ∀ w ∈ out, w < n) :
    ∃ cs, strongComponents n roots successors = .ok cs ∧ cs.component.size = n ∧
      (∀ v, (cs.component? v).isSome = true ↔ ∃ x ∈ roots, Reaches successors x v) ∧
      (∀ v w c d, cs.component? v = some c → cs.component? w = some d →
        (c = d ↔ Reaches successors v w ∧ Reaches successors w v)) ∧
      (∀ c, c < cs.sizes.size ↔ ∃ v, cs.component? v = some c) ∧
      (∀ (c : Nat) (hc : c < cs.sizes.size),
        cs.sizes[c] = ((Finset.range n).filter fun v => cs.component? v = some c).card) ∧
      ∀ v w c, cs.component? v = some c → Reaches successors v w →
        ∃ d ≤ c, cs.component? w = some d := by
  have hreach {x v : Nat} (hx : x < n) (hxv : Reaches successors x v) : v < n := by
    induction hxv with
    | refl => exact hx
    | tail _ hvw hv =>
      obtain ⟨out, hout, hw⟩ := hvw
      obtain ⟨out', hout', hlt⟩ := hsucc _ hv
      cases hout.symm.trans hout'
      exact hlt _ hw
  obtain ⟨cs, hcs⟩ := exists_strongComponents hroots fun x hx v hxv =>
    hsucc v (hreach (hroots x hx) hxv)
  have h := decomposes_of_strongComponents hcs
  exact ⟨cs, hcs, h.size_eq, h.isSome_iff, h.eq_iff, fun c => h.lt_size_iff,
    fun c hc => (h.sizes_eq c _ (Array.getElem?_eq_getElem hc)).2, h.le_of_reaches⟩

/-- In a graph with parallel edges, a loop and a node that no root reaches, two nodes are in the
component that is completed last, since they reach each other. -/
theorem strongComponents_two_roots :
    let successors (v : Nat) : Except Fault (List Nat) :=
      .ok ([[1, 1], [0, 2], [2], [0]].getD v [])
    (∀ x ∈ [0, 2], x < 4) ∧ (∀ v < 4, ∃ out, successors v = .ok out ∧ ∀ w ∈ out, w < 4) ∧
      strongComponents 4 [0, 2] successors = .ok ⟨#[some 1, some 1, some 0, none], #[1, 2]⟩ ∧
      Reaches successors 0 1 ∧ Reaches successors 1 0 ∧
        ¬∃ x ∈ [0, 2], Reaches successors x 3 := by
  intro successors
  have hroots : ∀ x ∈ [0, 2], x < 4 := by decide
  have hsucc : ∀ v < 4, ∃ out, successors v = .ok out ∧ ∀ w ∈ out, w < 4 := by
    intro v hv
    refine ⟨_, rfl, ?_⟩
    revert v
    decide
  have hresult : strongComponents 4 [0, 2] successors =
      .ok ⟨#[some 1, some 1, some 0, none], #[1, 2]⟩ := by cbv
  obtain ⟨cs, hcs, -, hsome, hsame, -⟩ := strongComponents_decomposes hroots hsucc
  cases hresult.symm.trans hcs
  obtain ⟨h01, h10⟩ := (hsame 0 1 1 1 rfl rfl).1 rfl
  exact ⟨hroots, hsucc, hresult, h01, h10, fun h => Bool.noConfusion ((hsome 3).2 h)⟩

end OmegaAutomata
