/-
# Products are explored breadth first

A finished exploration has the nodes that are reached, each once
(`Finished.mem_nodes_iff`), and its list of nodes is the roots followed by what comes
after node 0, node 1 and so on, each node where it is met first.  Such a list is
sorted by distance: `Finished.within_of_le` says that a node never needs a longer
path than one with a larger number, by induction on the length of that path.

`explore_exact` joins this with what `cycles` makes of the product: exploration comes
to its end with this product as soon as the bound allows for the nodes that are
reached, and the cycles are the strong components with an inner edge, in the order in
which they are completed.
-/

import Mathlib
import OmegaAutomata.Proofs.Product.Cycles

namespace OmegaAutomata

namespace Product

variable {σ : Type} {w : Lasso} {moves : σ → IndexSet → Except Fault (List (Move σ))}
  {roots : List σ} {x y : σ × Fin w.size}

/-! ### Distance -/

/-- Whether a path with `n` edges leads from a root at the first position to a node. -/
def ReachedIn (moves : σ → IndexSet → Except Fault (List (Move σ))) (roots : List σ) :
    Nat → σ × Fin w.size → Prop
  | 0, y => ∃ s ∈ roots, y = (s, w.first)
  | n + 1, y => ∃ x a, ReachedIn moves roots n x ∧ Step moves x a y

/-- Whether a path with at most `n` edges leads from a root at the first position to a node. -/
def Within (moves : σ → IndexSet → Except Fault (List (Move σ))) (roots : List σ) (n : Nat)
    (y : σ × Fin w.size) : Prop :=
  ∃ m ≤ n, ReachedIn moves roots m y

theorem reached_iff : Reached moves roots y ↔ ∃ n, ReachedIn moves roots n y := by
  constructor
  · rintro ⟨s, hs, hpath⟩
    induction hpath with
    | refl => exact ⟨0, s, hs, rfl⟩
    | tail _ hstep ih =>
      obtain ⟨n, hn⟩ := ih
      obtain ⟨a, ha⟩ := hstep
      exact ⟨n + 1, _, a, hn, ha⟩
  · rintro ⟨n, hn⟩
    induction n generalizing y with
    | zero =>
      obtain ⟨s, hs, rfl⟩ := hn
      exact ⟨s, hs, .refl⟩
    | succ n ih =>
      obtain ⟨x, a, hx, hstep⟩ := hn
      obtain ⟨s, hs, hpath⟩ := ih hx
      exact ⟨s, hs, hpath.tail ⟨a, hstep⟩⟩

theorem within_zero : Within moves roots 0 y ↔ y ∈ roots.map (·, w.first) := by
  simp [Within, ReachedIn, eq_comm]

/-- A node with a short path is a root, or follows one with a shorter path. -/
theorem within_succ {n : Nat} : Within moves roots (n + 1) y ↔
    y ∈ roots.map (·, w.first) ∨ ∃ x, Within moves roots n x ∧ y ∈ follow moves x := by
  constructor
  · rintro ⟨m, hm, hy⟩
    cases m with
    | zero => exact .inl (within_zero.1 ⟨0, Nat.le_refl 0, hy⟩)
    | succ m =>
      obtain ⟨x, a, hx, hstep⟩ := hy
      exact .inr ⟨x, ⟨m, Nat.le_of_succ_le_succ hm, hx⟩, mem_follow.2 ⟨a, hstep⟩⟩
  · rintro (hy | ⟨x, ⟨m, hm, hx⟩, hy⟩)
    · obtain ⟨m, hm, hy⟩ := within_zero.2 hy
      exact ⟨m, Nat.le_trans hm (Nat.zero_le _), hy⟩
    · obtain ⟨a, hstep⟩ := mem_follow.1 hy
      exact ⟨m + 1, Nat.succ_le_succ hm, x, a, hx, hstep⟩

/-! ### The order of the nodes -/

variable [BEq σ] [LawfulBEq σ] {p : Product σ w}

/-- The elements of the first part of a list come first when it is rid of repeats. -/
theorem mem_of_getElem?_eraseDups {α : Type} [BEq α] [LawfulBEq α] {l₁ l₂ : List α} {i j : Nat}
    {a b : α} (hnodup : (l₁ ++ l₂).eraseDups.Nodup) (hij : i ≤ j)
    (hi : (l₁ ++ l₂).eraseDups[i]? = some a) (hj : (l₁ ++ l₂).eraseDups[j]? = some b)
    (hb : b ∈ l₁) : a ∈ l₁ := by
  obtain ⟨k, hk⟩ := List.getElem?_of_mem (List.mem_eraseDups.2 hb)
  have hlt : k < l₁.eraseDups.length := (List.getElem?_eq_some_iff.1 hk).1
  have hkj : k = j := by
    refine (List.getElem?_inj ?_ hnodup).1 ?_
    · rw [List.eraseDups_append, List.length_append]
      omega
    · rw [hj, List.eraseDups_append, List.getElem?_append_left hlt, hk]
  rw [List.eraseDups_append, List.getElem?_append_left (by omega)] at hi
  exact List.mem_eraseDups.1 (List.mem_of_getElem? hi)

/-- **The nodes are those that are reached.** -/
theorem Finished.mem_nodes_iff (h : p.Finished moves roots) :
    x ∈ p.nodes ↔ Reached moves roots x := by
  refine ⟨h.reached x, ?_⟩
  have hmem {x : σ × Fin w.size} : x ∈ p.nodes ↔ x ∈ roots.map (·, w.first) ∨
      ∃ y ∈ p.nodes, x ∈ follow moves y := by
    conv => lhs; rw [← Array.mem_toList_iff, h.nodes_eq]
    simp only [List.mem_eraseDups, List.mem_append, List.mem_flatMap, Array.mem_toList_iff]
  rintro ⟨s, hs, hpath⟩
  induction hpath with
  | refl => exact hmem.2 (.inl (List.mem_map_of_mem hs))
  | tail _ hstep ih => exact hmem.2 (.inr ⟨_, ih, mem_follow.2 hstep⟩)

/-- **Nodes are numbered by distance**: a node has no longer a path than one with a larger
number. -/
theorem Finished.within_of_le (h : p.Finished moves roots) {i j n : Nat} (hij : i ≤ j)
    (hi : p.nodes[i]? = some x) (hj : p.nodes[j]? = some y) (hy : Within moves roots n y) :
    Within moves roots n x := by
  -- what stands before a part of the list stands there when the list is rid of repeats
  have hfront {l₁ l₂ : List (σ × Fin w.size)} {i j : Nat} {x y : σ × Fin w.size}
      (hnodes : p.nodes.toList = (l₁ ++ l₂).eraseDups) (hij : i ≤ j)
      (hi : p.nodes[i]? = some x) (hj : p.nodes[j]? = some y) (hy : y ∈ l₁) : x ∈ l₁ := by
    rw [← Array.getElem?_toList, hnodes] at hi hj
    exact mem_of_getElem?_eraseDups (hnodes ▸ h.nodup) hij hi hj hy
  induction n generalizing i j x y with
  | zero => exact within_zero.2 (hfront h.nodes_eq hij hi hj (within_zero.1 hy))
  | succ n ih =>
    rcases within_succ.1 hy with hy | ⟨z, hz, hyz⟩
    · exact within_succ.2 (.inl (hfront h.nodes_eq hij hi hj hy))
    · have hreached : Reached moves roots z := reached_iff.2 (hz.imp fun _ hm => hm.2)
      obtain ⟨k, hk⟩ := Array.getElem?_of_mem (h.mem_nodes_iff.2 hreached)
      have hnodes : p.nodes.toList = ((roots.map (·, w.first) ++
          (p.nodes.toList.take (k + 1)).flatMap (follow moves)) ++
            (p.nodes.toList.drop (k + 1)).flatMap (follow moves)).eraseDups := by
        rw [List.append_assoc, ← List.flatMap_append, List.take_append_drop]
        exact h.nodes_eq
      have hmem {i : Nat} {x : σ × Fin w.size} :
          (p.nodes.toList.take (k + 1))[i]? = some x ↔ i ≤ k ∧ p.nodes[i]? = some x := by
        rw [List.getElem?_take, Array.getElem?_toList, Option.ite_none_right_eq_some,
          Nat.lt_succ_iff]
      have hx := hfront hnodes hij hi hj <| List.mem_append_right _ <|
        List.mem_flatMap.2 ⟨z, List.mem_of_getElem? (hmem.2 ⟨Nat.le_refl k, hk⟩), hyz⟩
      -- the nodes before `z` are as close as `z` is
      rcases List.mem_append.1 hx with hx | hx
      · exact within_succ.2 (.inl hx)
      · obtain ⟨z', hz', hx⟩ := List.mem_flatMap.1 hx
        obtain ⟨k', hk'⟩ := List.getElem?_of_mem hz'
        obtain ⟨hle, hk'⟩ := hmem.1 hk'
        exact within_succ.2 (.inr ⟨z', ih hle hk' hk hz, hx⟩)

/-! ### Products and their cycles -/

omit [LawfulBEq σ] in
/-- An edge of a finished product leads to one of its nodes. -/
theorem Finished.target_lt (h : p.Finished moves roots) {v : Nat} {e : Edge} (he : e ∈ p.out v) :
    e.target < p.nodes.size := by
  have hlt : v < p.nodes.size := h.size_eq ▸ lt_of_mem_out he
  obtain ⟨out, -, hes⟩ := h.expanded (Array.getElem?_eq_getElem hlt)
  obtain ⟨m, -, -, hnode⟩ := exists_left_of_forall₂ hes he
  exact (Array.getElem?_eq_some_iff.1 hnode).1

variable [Hashable σ]

/-- **Exploration and cycles are exact.**  Assume that finitely many states are reached, and that
moves do not fail where they are.  Then exploration comes to its end: with any bound that allows for
the nodes that are reached, the result is the same product.  Its nodes are those that are reached,
each once.  They are numbered in the order in which they are met first when the roots, and then the
moves of node after node, are gone through, so that a node never has a longer path than one with a
larger number.  The edges of a node are its moves, one by one and in order.

The cycles of this product are the strong components with an inner edge, each once, in the order in
which the components are completed, where a component is completed before all others that can reach
it.  Each has the nodes of its component in increasing order, and the sets that some inner edge
belongs to. -/
theorem explore_exact (w : Lasso) (roots : List σ)
    (moves : σ → IndexSet → Except Fault (List (Move σ)))
    (hfinite : {s | ∃ q : Fin w.size, Reached moves roots (s, q)}.Finite)
    (hmoves : ∀ (s : σ) (q : Fin w.size), Reached moves roots (s, q) →
      ∃ out, moves s (w.letter q) = .ok out) :
    ∃ p : Product σ w,
      (∀ bound, {x : σ × Fin w.size | Reached moves roots x}.ncard ≤ bound →
        explore w bound roots moves = .ok p) ∧
      p.nodes.toList.Nodup ∧ (∀ x, x ∈ p.nodes ↔ Reached moves roots x) ∧
      p.nodes.toList =
        (roots.map (·, w.first) ++ p.nodes.toList.flatMap (follow moves)).eraseDups ∧
      (∀ (i j n : Nat) x y, i ≤ j → p.nodes[i]? = some x → p.nodes[j]? = some y →
        Within moves roots n y → Within moves roots n x) ∧
      p.edges.size = p.nodes.size ∧
      (∀ (i : Nat) s q, p.nodes[i]? = some (s, q) → ∃ out es, moves s (w.letter q) = .ok out ∧
        p.edges[i]? = some es ∧ List.Forall₂ (p.Stands (w.next q)) out es) ∧
      ∃ cs numbers cycs,
        strongComponents p.nodes.size (List.range p.nodes.size) p.successors = .ok cs ∧
        p.cycles = .ok cycs ∧
        (∀ v, v < p.nodes.size ↔ ∃ c, cs.component? v = some c) ∧
        (∀ v u c d, cs.component? v = some c → cs.component? u = some d →
          (c = d ↔ Search.Reaches p.successors v u ∧ Search.Reaches p.successors u v) ∧
          (Search.Reaches p.successors v u → d ≤ c)) ∧
        numbers.Pairwise (· < ·) ∧ (∀ c, c ∈ numbers ↔ ∃ v e, p.Inner cs c v e) ∧
        List.Forall₂ (fun c cyc => cyc.nodes.toList.Pairwise (· < ·) ∧
          (∀ v, v ∈ cyc.nodes ↔ cs.component? v = some c) ∧
          ∀ j, j ∈ cyc.acceptance ↔ ∃ v e, p.Inner cs c v e ∧ j ∈ e.acceptance) numbers cycs := by
  have hnodes : {x : σ × Fin w.size | Reached moves roots x}.Finite := by
    have hpositions : (Set.univ : Set (Fin w.size)).Finite := Set.finite_univ
    exact (hfinite.prod hpositions).subset fun x hx => ⟨⟨x.2, hx⟩, Set.mem_univ x.2⟩
  have hcount : ∀ xs : List (σ × Fin w.size), xs.Nodup → (∀ x ∈ xs, Reached moves roots x) →
      xs.length ≤ {x : σ × Fin w.size | Reached moves roots x}.ncard := by
    classical
    intro xs hxs hreached
    rw [← List.toFinset_card_of_nodup hxs, ← Set.ncard_coe_finset]
    exact Set.ncard_le_ncard (fun x hx => hreached x (List.mem_toFinset.1 hx)) hnodes
  obtain ⟨p, hp, hexplore⟩ := exists_finished _ (fun x hx => hmoves x.1 x.2 hx) hcount
  obtain ⟨cs, numbers, cycs, hcs, hcycs, hsorted, hnumbers, hforall⟩ :=
    exists_numbered_cycles hp.size_eq fun v e he => hp.target_lt he
  have hdec := decomposes_of_strongComponents hcs
  refine ⟨p, hexplore, hp.nodup, fun x => hp.mem_nodes_iff, hp.nodes_eq,
    fun i j n x y hij hi hj => hp.within_of_le hij hi hj, hp.size_eq, fun i s q hi => ?_,
    cs, numbers, cycs, hcs, hcycs, fun v => ?_, fun v u c d hv hu => ⟨hdec.eq_iff v u c d hv hu, ?_⟩,
    hsorted, hnumbers, hforall.imp fun c cyc h => ⟨h.2, h.1.mem_nodes, h.1.mem_acceptance⟩⟩
  · obtain ⟨out, hout, hes⟩ := hp.expanded hi
    have hlt : i < p.edges.size := hp.size_eq ▸ (Array.getElem?_eq_some_iff.1 hi).1
    rw [Array.getElem?_eq_getElem hlt] at hes ⊢
    exact ⟨out, _, hout, rfl, hes⟩
  · refine ⟨fun hv => Option.isSome_iff_exists.1 ?_, fun ⟨c, hc⟩ => hdec.lt hc⟩
    exact (hdec.isSome_iff v).2 ⟨v, List.mem_range.2 hv, .refl⟩
  · intro hvu
    obtain ⟨e, he, hu'⟩ := hdec.le_of_reaches v u c hv hvu
    cases hu.symm.trans hu'
    exact he

/-- A repeated root, parallel edges, a loop at a node of its own and a state where moves fail, which
is not reached. -/
theorem explore_exact_repeated :
    let w : Lasso := ⟨#[∅], #[∅], Nat.one_pos⟩
    let moves (s : Fin 3) (_ : IndexSet) : Except Fault (List (Move (Fin 3))) :=
      match s with
      | 0 => .ok [⟨1, .singleton 0⟩, ⟨1, .singleton 1⟩, ⟨0, ∅⟩]
      | 1 => .ok [⟨1, .singleton 0⟩]
      | 2 => .error (.unknownNode 2)
    {s | ∃ q : Fin w.size, Reached moves [0, 0] (s, q)}.Finite ∧
      (∀ (s : Fin 3) (q : Fin w.size), Reached moves [0, 0] (s, q) →
        ∃ out, moves s (w.letter q) = .ok out) ∧
      ∃ p : Product (Fin 3) w, explore w 6 [0, 0] moves = .ok p ∧
        p.nodes = #[(0, w.first), (1, w.next w.first), (0, w.next w.first)] ∧
        p.cycles = .ok [⟨#[1], .singleton 0⟩, ⟨#[2], ∅⟩] ∧
        Reached moves [0, 0] (1, w.next w.first) ∧ ¬Reached moves [0, 0] (1, w.first) := by
  intro w moves
  have hmove : ∀ (s : Fin 3) v out, moves s v = .ok out → ∀ m ∈ out, m.state ≠ 2 := by
    intro s v out hout m hm
    match s with
    | 0 => cases hout; aesop
    | 1 => cases hout; aesop
    | 2 => cases hout
  have hnot : ∀ x : Fin 3 × Fin w.size, Reached moves [0, 0] x → x.1 ≠ 2 := by
    rintro x ⟨r, hr, hpath⟩
    rcases Relation.ReflTransGen.cases_tail hpath with rfl | ⟨y, -, a, -, out, hout, hm⟩
    · aesop
    · exact hmove y.1 (w.letter y.2) out hout _ hm
  have hmoves : ∀ (s : Fin 3) (q : Fin w.size), Reached moves [0, 0] (s, q) →
      ∃ out, moves s (w.letter q) = .ok out := fun s q hs => by
    match s, hnot (s, q) hs with
    | 0, _ => exact ⟨_, rfl⟩
    | 1, _ => exact ⟨_, rfl⟩
    | 2, h => exact absurd rfl h
  have hfinite : {s | ∃ q : Fin w.size, Reached moves [0, 0] (s, q)}.Finite := Set.toFinite _
  obtain ⟨p, hp, -, hmem, -⟩ := explore_exact w [0, 0] moves hfinite hmoves
  have hcard : {x : Fin 3 × Fin w.size | Reached moves [0, 0] x}.ncard ≤ 6 := by
    have hle := Set.ncard_le_card {x : Fin 3 × Fin w.size | Reached moves [0, 0] x}
    rwa [Nat.card_eq_fintype_card, Fintype.card_prod, Fintype.card_fin, Fintype.card_fin] at hle
  have hresult : explore w 6 [0, 0] moves = .ok
      ⟨#[(0, w.first), (1, w.next w.first), (0, w.next w.first)],
        #[[⟨1, .singleton 0⟩, ⟨1, .singleton 1⟩, ⟨2, ∅⟩], [⟨1, .singleton 0⟩],
          [⟨1, .singleton 0⟩, ⟨1, .singleton 1⟩, ⟨2, ∅⟩]]⟩ := by
    cbv
  cases hresult.symm.trans (hp 6 hcard)
  refine ⟨hfinite, hmoves, _, hresult, rfl, by cbv, (hmem _).1 ?_, fun h => ?_⟩
  · simp
  · have hfirst : w.first = w.next w.first := by simpa using (hmem _).2 h
    exact absurd (congrArg Fin.val hfirst) (by decide)

end Product

end OmegaAutomata
