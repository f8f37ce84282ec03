/-
# The pipeline never fails

What is built has a display id left for each of its states that may be renamed: there are
no more of them than pairs of a state and a counter (`build_ready`).  So building,
minimizing and any passes have results, and so has everything that is asked of them
(`pipeline_total`).
-/

import OmegaAutomata.Proofs.Automaton.Answers
import OmegaAutomata.Proofs.Automaton.Totality
import OmegaAutomata.Proofs.Consistency
import OmegaAutomata.Proofs.Degeneralize.Totality

namespace OmegaAutomata

variable {g : Generalized} {options : Options} {b : Automaton} {stats : BuildStats}

/-! ### Display ids -/

theorem Generalized.card_nodes (g : Generalized) :
    g.nodes.card = g.states.size * (g.sets + 1) + 1 := by
  rw [nodes, Finset.card_insertNone, Finset.card_product, Finset.card_range, Finset.card_range]

/-- **There are no more states with a source** than pairs. -/
theorem Arena.Registered.renamable_le {a c : Arena} {n : Nat} (h : a.Registered g)
    (hg : g.InRange) (hc : Removes n a c) (hvalid : c.Valid) (m : Int) :
    c.renamable m ≤ g.states.size * (g.sets + 1) := by
  let named := c.live.filter fun x =>
    (c.slot? x).any fun l => l.state.source.isSome && decide (l.state.identity ≤ m)
  have hnamed (x : StateId) (hx : x ∈ named) : ∃ l, a.slot? x = some l ∧
      a.nodeOf x ∈ g.nodes.erase none := by
    obtain ⟨hx, hany⟩ := List.mem_filter.1 hx
    obtain ⟨s, hs⟩ := (hvalid.mem_live x).1 hx
    obtain ⟨t, ht, hsource, -⟩ := hc.origin x s hs
    rw [hs, Option.any_some, Bool.and_eq_true, ← hsource] at hany
    obtain ⟨q, hq⟩ := Option.isSome_iff_exists.1 hany.1
    refine ⟨_, ht, Finset.mem_erase.2 ⟨?_, ?_⟩⟩
    · rw [nodeOf_eq ht, State.node, hq]
      simp
    · rw [nodeOf_eq ht]
      exact h.node_mem hg ht
  have hcard : named.toFinset.card ≤ (g.nodes.erase none).card := by
    refine Finset.card_le_card_of_injOn a.nodeOf (fun x hx => ?_) fun x hx y hy hxy => ?_
    · obtain ⟨-, -, hnode⟩ := hnamed x (List.mem_toFinset.1 hx)
      exact hnode
    · obtain ⟨l, hl, -⟩ := hnamed x (List.mem_toFinset.1 hx)
      obtain ⟨m, hm, -⟩ := hnamed y (List.mem_toFinset.1 hy)
      rw [nodeOf_eq hl, nodeOf_eq hm] at hxy
      exact h.eq_of_node hl hm hxy
  have hnone : (none : Node) ∈ g.nodes := by
    rw [Generalized.nodes]
    simp
  rw [List.toFinset_card_of_nodup (hvalid.live_nodup.filter _), Finset.card_erase_of_mem hnone,
    g.card_nodes, Nat.add_sub_cancel] at hcard
  rwa [renamable, List.countP_eq_length_filter]

/-- **What is built is ready for all passes** if there is a display id for every pair. -/
theorem build_ready (hg : g.InRange)
    (hroom : g.maxIdentity + g.states.size * (g.sets + 1) ≤ maxDisplayId)
    (h : build g options = .ok (b, stats)) : b.Ready g.maxIdentity := by
  obtain ⟨hwf, -⟩ := build_eq_ok h
  obtain ⟨a, hbuilding, hpending, -, -, hlast, -, n, hn⟩ := build_eq_redirect h
  obtain ⟨m, c, hc, hremoves⟩ := (hbuilding.valid hpending).removes_redirect (some 0)
  cases hn.symm.trans hc
  have hrooted := build_rooted h
  have hrenamable := hbuilding.registered.renamable_le hg hremoves hwf.valid g.maxIdentity
  refine ⟨hwf, hrooted, ⟨Int.le_of_eq hlast.symm, hrooted.le_last, fun x y s t hs _ hm => ?_⟩, ?_⟩
  · have hle := hrooted.le_last x s hs
    omega
  · rw [hlast]
    have : (b.arena.renamable g.maxIdentity : Int) ≤ g.states.size * (g.sets + 1) := by
      exact_mod_cast hrenamable
    omega

/-! ### The pipeline -/

/-- **Minimizing what was built never fails** either. -/
theorem exists_degeneralize {m : Int} (h : build g options = .ok (b, stats)) (hb : b.Ready m) :
    ∃ c, degeneralize g options = .ok (c, stats) ∧ c.Ready m := by
  cases hsimplify : options.simplify with
  | false =>
    exact ⟨b, bind_eq_ok.2 ⟨_, h, by rw [hsimplify]; rfl⟩, hb⟩
  | true =>
    obtain ⟨_, c, hc, hready⟩ := hb.exists_minimize options.refine
    exact ⟨c, bind_eq_ok.2 ⟨_, h, by rw [hsimplify]; dsimp only; rw [if_pos rfl, hc]; rfl⟩, hready⟩

/-- Nothing that is listed is missing when the exploration ends, nor when retired states are about
to be freed. -/
theorem intact_of_explore {id : StateId} {p : Construction.Progress} {onTheFly : Bool}
    (h : Construction.explore g onTheFly = .ok (id, p)) : p.arena.Intact ∧
      ∀ n a, p.arena.redirectRounds (some id) (p.arena.live.length + 1) = .ok (n, a) →
        a.Intact := by
  obtain ⟨-, hbuilding, hpending⟩ := Construction.explore_eq_ok h
  have hvalid := hbuilding.valid hpending
  exact ⟨hvalid.toListed.intact, fun n a ha =>
    (hvalid.redirectRounds (Nat.lt_succ_self _) ha).1.valid.toListed.intact⟩

/-- **The pipeline never fails.**  For an automaton that was collected by a builder, of a size for
which transitions and display ids can be counted, building and minimizing have results.  So has any
sequence of passes after it, and then everything that can be asked.  No lookup that has a default
ever needs it. -/
theorem pipeline_total {κ : Type} [BEq κ] {d : Builder κ} (hd : d.Collected)
    (hg : d.build = .ok g) (hcount : (g.sets + 2) * g.transitionCount < 4294967296)
    (hroom : g.maxIdentity + g.states.size * (g.sets + 1) ≤ 2147483647) (options : Options) :
    g.InRange ∧
    (∀ id p, Construction.explore g options.onTheFly = .ok (id, p) → p.arena.Intact ∧
      ∀ n a, p.arena.redirectRounds (some id) (p.arena.live.length + 1) = .ok (n, a) →
        a.Intact) ∧
    (∃ b stats, build g options = .ok (b, stats) ∧
      ∀ passes, ∃ c, b.runPasses passes = .ok c ∧ c.Answers ∧ c.Sound) ∧
    ∃ b stats, degeneralize g options = .ok (b, stats) ∧
      ∀ passes, ∃ c, b.runPasses passes = .ok c ∧ c.Answers ∧ c.Sound := by
  have hrange := hd.inRange.build hg
  have hpasses (c : Automaton) (hc : c.Ready g.maxIdentity) (passes : List Automaton.Pass) :
      ∃ e, c.runPasses passes = .ok e ∧ e.Answers ∧ e.Sound := by
    obtain ⟨e, he, hready⟩ := hc.exists_runPasses passes
    exact ⟨e, he, hready.wellFormed.answers, hready.wellFormed.sound⟩
  obtain ⟨b, stats, hb⟩ := exists_build ⟨hrange, Nat.le_of_lt_succ hcount⟩ options
  have hready := build_ready hrange hroom hb
  obtain ⟨c, hc, hready'⟩ := exists_degeneralize hb hready
  exact ⟨hrange, fun _ _ => intact_of_explore, ⟨b, stats, hb, hpasses b hready⟩,
    c, stats, hc, hpasses c hready'⟩

/-- The pipeline has results for the automaton for "infinitely often `p` and infinitely often
`q`". -/
theorem pipeline_total_fair : Builder.fair.Collected ∧ Builder.fair.build = .ok .fair ∧
    (Generalized.fair.sets + 2) * Generalized.fair.transitionCount < 4294967296 ∧
    Generalized.fair.maxIdentity +
      Generalized.fair.states.size * (Generalized.fair.sets + 1) ≤ 2147483647 ∧
    ∃ b stats c, degeneralize .fair ⟨true, true, true⟩ = .ok (b, stats) ∧
      b.runPasses [.components, .merging, .minimization false] = .ok c ∧ c.Answers ∧ c.Sound := by
  have hcount : (Generalized.fair.sets + 2) * Generalized.fair.transitionCount < 4294967296 := by
    decide
  have hroom : Generalized.fair.maxIdentity +
      Generalized.fair.states.size * (Generalized.fair.sets + 1) ≤ 2147483647 := by decide
  obtain ⟨-, -, -, b, stats, hb, hpasses⟩ :=
    pipeline_total Builder.collected_fair Builder.build_fair hcount hroom ⟨true, true, true⟩
  obtain ⟨c, hc, hanswers, hsound⟩ := hpasses [.components, .merging, .minimization false]
  exact ⟨Builder.collected_fair, Builder.build_fair, hcount, hroom, b, stats, c, hb, hc, hanswers,
    hsound⟩

end OmegaAutomata
