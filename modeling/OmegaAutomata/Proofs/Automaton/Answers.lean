/-
# What can be asked of an automaton

A well-formed automaton has an answer to everything that can be asked of it, since its
transitions lead to live states (`WellFormed.answers`).

Some lookups of the definitions cannot fail, but have a default.  `Sound` says that none
of these is ever needed: what is listed has a slot, also within a pass before retired
states are freed (`Unswept`), components have numbers in range, and so do the nodes of a
product (`WellFormed.sound`).
-/

import OmegaAutomata.Output.Document
import OmegaAutomata.Output.Graph
import OmegaAutomata.Output.Listing
import OmegaAutomata.Output.NeverClaim
import OmegaAutomata.Proofs.Automaton.Consistency
import OmegaAutomata.Proofs.LassoAcceptance
import OmegaAutomata.Proofs.NeverClaim.Reader

namespace OmegaAutomata

/-- A text has a result if each of its chunks has one. -/
theorem Chunks.exists_text {cs : Chunks} (h : ∀ c ∈ cs, ∃ s, c = .ok s) :
    ∃ t, cs.text = .ok t := by
  obtain ⟨r, hr⟩ := exists_mapM_eq_ok (f := id) h
  exact ⟨_, by rw [text, hr]; rfl⟩

namespace Automaton

variable {b : Automaton} {x : StateId} {s : State} {t : Transition} {id : StateId}

theorem WellFormed.closed (h : b.WellFormed) : b.Closed where
  target id s hs t ht := by
    obtain ⟨u, hu⟩ := h.tidy id s (liveState?_eq_some.1 hs) t ht
    exact Arena.isLive_iff.2 ⟨u, hu⟩
  initial i hi := Arena.isLive_iff.2 (h.live_initial hi)

/-- **Targets can be looked up.** -/
theorem WellFormed.exists_target (h : b.WellFormed) (hs : s ∈ b.states.map Prod.snd)
    (ht : t ∈ s.transitions) : ∃ u, b.state t.target = .ok u := by
  obtain ⟨⟨x, _⟩, hx, rfl⟩ := List.mem_map.1 hs
  obtain ⟨u, hu⟩ := h.tidy x _ (h.liveAt_of_mem_states hx) t ht
  exact ⟨u, state_eq_ok (liveState?_eq_some.2 hu)⟩

/-! ### Answers -/

/-- Whether everything that can be asked of an automaton has an answer. -/
structure Answers (b : Automaton) : Prop where
  acceptsLasso : ∀ w, ∃ r, b.acceptsLasso w = .ok r
  listing : ∃ t, Listing.render b = .ok t
  neverClaim : ∀ formula, ∃ t, NeverClaim.render formula b = .ok t
  document : ∃ d, Document.ofAutomaton b = .ok d
  graph : ∃ t, Graph.render b = .ok t

theorem WellFormed.exists_listing (h : b.WellFormed) : ∃ t, Listing.render b = .ok t := by
  refine Chunks.exists_text fun c hc => ?_
  unfold Listing.chunks at hc
  split at hc
  · exact ⟨_, List.mem_singleton.1 hc⟩
  · obtain ⟨⟨x, s⟩, hs, hc⟩ := List.mem_flatMap.1 hc
    rcases List.mem_cons.1 hc with rfl | hc
    · exact ⟨_, rfl⟩
    · obtain ⟨t, ht, rfl⟩ := List.mem_map.1 hc
      obtain ⟨u, hu⟩ := h.exists_target (List.mem_map_of_mem hs) ht
      exact ⟨_, by rw [Listing.line, hu]; rfl⟩

theorem WellFormed.exists_targetName (h : b.WellFormed) (hs : s ∈ b.states.map Prod.snd)
    (ht : t ∈ s.transitions) : ∃ n, b.targetName t = .ok n := by
  obtain ⟨u, hu⟩ := h.exists_target hs ht
  exact ⟨_, by rw [targetName, hu]; rfl⟩

theorem WellFormed.exists_body (h : b.WellFormed) (hs : s ∈ b.states.map Prod.snd) :
    ∃ r, NeverClaim.body b s = .ok r := by
  unfold NeverClaim.body
  split
  · exact ⟨_, rfl⟩
  · obtain ⟨js, hjs⟩ := exists_foldlM_eq_ok (l := s.transitions)
      (f := fun js t => do pure (NeverClaim.addGuard t.label (← b.targetName t) js))
      (fun t ht js => by
        obtain ⟨n, hn⟩ := h.exists_targetName hs ht
        exact ⟨_, by rw [hn]; rfl⟩) []
    exact ⟨_, by rw [NeverClaim.jumps, hjs]; rfl⟩

/-- **The blocks of a never claim** can all be produced. -/
theorem WellFormed.exists_blocks (h : b.WellFormed) : ∃ bs, NeverClaim.blocks b = .ok bs := by
  refine exists_mapM_eq_ok fun ⟨name, body⟩ hbody => ?_
  suffices hr : ∃ r, body = .ok r by
    obtain ⟨r, rfl⟩ := hr
    exact ⟨_, rfl⟩
  unfold NeverClaim.parts at hbody
  split at hbody
  · cases List.mem_singleton.1 hbody
    exact ⟨_, rfl⟩
  · split at hbody
    · cases List.mem_singleton.1 hbody
      exact ⟨_, rfl⟩
    · rcases List.mem_append.1 hbody with hbody | hbody
      · obtain ⟨s, hs, heq⟩ := List.mem_map.1 hbody
        cases heq
        exact h.exists_body (List.mem_filter.1 hs).1
      · split at hbody
        · cases List.mem_singleton.1 hbody
          exact ⟨_, rfl⟩
        · exact absurd hbody List.not_mem_nil

theorem WellFormed.exists_neverClaim (h : b.WellFormed) (formula : String) :
    ∃ t, NeverClaim.render formula b = .ok t := by
  obtain ⟨bs, hbs⟩ := h.exists_blocks
  exact ⟨_, NeverClaim.render_of_blocks hbs formula⟩

theorem WellFormed.exists_document (h : b.WellFormed) : ∃ d, Document.ofAutomaton b = .ok d := by
  obtain ⟨r, hr⟩ := exists_mapM_eq_ok (l := b.states.map Prod.snd)
    (f := fun s => s.transitions.mapM (Document.transitionEntry b s)) fun s hs =>
      exists_mapM_eq_ok fun t ht => by
        obtain ⟨u, hu⟩ := h.exists_target hs ht
        exact ⟨_, by rw [Document.transitionEntry, hu]; rfl⟩
  exact ⟨_, bind_eq_ok.2 ⟨r, hr, rfl⟩⟩

theorem WellFormed.exists_graph (h : b.WellFormed) : ∃ t, Graph.render b = .ok t := by
  refine Chunks.exists_text fun c hc => ?_
  rcases List.mem_append.1 hc with hc | hc
  · rcases List.mem_cons.1 hc with rfl | hc
    · exact ⟨_, rfl⟩
    · obtain ⟨s, hs, hc⟩ := List.mem_flatMap.1 hc
      obtain ⟨t, ht, rfl⟩ := List.mem_map.1 hc
      obtain ⟨n, hn⟩ := h.exists_targetName (List.mem_filter.1 hs).1 ht
      exact ⟨_, by rw [Graph.edge, hn]; rfl⟩
  · exact ⟨_, List.mem_singleton.1 hc⟩

/-- **A well-formed automaton answers** whatever is asked. -/
theorem WellFormed.answers (h : b.WellFormed) : b.Answers where
  acceptsLasso w := by
    obtain ⟨r, hr, -⟩ := h.closed.exists_acceptsLasso w
    exact ⟨r, hr⟩
  listing := h.exists_listing
  neverClaim := h.exists_neverClaim
  document := h.exists_document
  graph := h.exists_graph

/-! ### Lookups with a default -/

/-- The arenas that come up within a pass before the retired states are freed. -/
inductive Unswept (b : Automaton) : Arena → Prop
  | classify {n : Nat} {a : Arena} (h : b.arena.classify b.initial = .ok (n, a)) : Unswept b a
  | merge {n : Nat} {a : Arena}
    (h : Arena.mergeEach b.accept b.arena.live.reverse b.arena = .ok (n, a)) : Unswept b a
  | redirect {n m : Nat} {a c : Arena}
    (h : Arena.mergeEach b.accept b.arena.live.reverse b.arena = .ok (n, a))
    (hc : a.redirectRounds none (a.live.length + 1) = .ok (m, c)) : Unswept b c
  | clear {n m : Nat} {a c d : Arena}
    (h : Arena.mergeEach b.accept b.arena.live.reverse b.arena = .ok (n, a))
    (hc : a.redirect none = .ok (m, c)) (hd : c.retireAll c.live = .ok d) : Unswept b d

end Automaton

/-- Whether what is listed as live or retired has a slot of this stage, and is listed once. -/
structure Arena.Intact (a : Arena) : Prop where
  live : a.live.Nodup ∧ ∀ x ∈ a.live, ∃ s, a.slot? x = some ⟨.live, s⟩
  retired : a.retired.Nodup ∧ ∀ x ∈ a.retired, ∃ f s, a.slot? x = some ⟨.retired f, s⟩

theorem Arena.Listed.intact {a : Arena} (h : a.Listed) : a.Intact where
  live := ⟨h.live_nodup, fun x hx => (h.mem_live x).1 hx⟩
  retired := ⟨h.retired_nodup, fun x hx => (h.mem_retired x).1 hx⟩

namespace Automaton

variable {b : Automaton}

/-- Whether no lookup that has a default ever needs it. -/
structure Sound (b : Automaton) : Prop where
  /-- The states that passes go through, and the retired ones that are freed. -/
  intact : b.arena.Intact ∧ ∀ a, b.Unswept a → a.Intact
  /-- The component of a state, and the size of a component. -/
  components : ∀ cs, b.arena.components b.initial = .ok cs →
    cs.component.size = b.arena.slots.size ∧ ∀ v c, cs.component? v = some c → c < cs.sizes.size
  /-- The nodes of a product with a lasso, and their states. -/
  product : ∀ w p,
    Product.explore w (b.arena.slots.size * w.size + 1) b.initial.toList b.moves = .ok p →
      p.edges.size = p.nodes.size ∧
      (∀ (v : Nat) x, p.nodes[v]? = some x → b.arena.isLive x.1 = true ∧
        ∀ e ∈ p.edges[v]?.getD [], e.target < p.nodes.size)

theorem WellFormed.intact_of_unswept (h : b.WellFormed) {a : Arena} (ha : b.Unswept a) :
    a.Intact := by
  cases ha with
  | classify hc => exact (h.valid.classify h.tidy hc b.accept).1.toListed.intact
  | merge hm => exact (h.valid.mergeEach hm).1.toListed.intact
  | redirect hm hr =>
    have hvalid := (h.valid.mergeEach hm).1
    exact (hvalid.redirectRounds (Nat.lt_succ_self _) hr).1.valid.toListed.intact
  | clear hm hr hd =>
    have hvalid := (h.valid.mergeEach hm).1
    exact ((hvalid.redirect hr).1.valid.retireAll hd).1.toListed.intact

/-- **A well-formed automaton is sound**: no default is needed. -/
theorem WellFormed.sound (h : b.WellFormed) : b.Sound where
  intact := ⟨h.valid.toListed.intact, fun _ => h.intact_of_unswept⟩
  components cs hcs := by
    have hdec := decomposes_of_strongComponents hcs
    exact ⟨hdec.size_eq, hdec.lt_size⟩
  product w p hp := by
    obtain ⟨p', hp', hexplored, hlive⟩ := h.closed.exists_explored w
    cases Except.ok.inj (hp.symm.trans hp')
    refine ⟨hexplored.size_eq, fun v x hx => ⟨hlive v x hx, fun e he => ?_⟩⟩
    obtain ⟨y, hy, -⟩ := hexplored.edge hx e he
    exact (Array.getElem?_eq_some_iff.1 hy).1

end Automaton

end OmegaAutomata
