/-
# Without simplification the product is built

The product of a generalized automaton with a progress counter has a state for every pair that
arises, besides an initial state of its own (`Automaton.IsProduct`).  It is what every
simplification is compared with, and what a construction builds when nothing is simplified on the
fly (`isProduct_of_build`).

At the end of such a construction every state is live and has copied the edges of its node
(`Plain.liveAt`, `Plain.copies`).  So the transitions of a state lead to live states, which is why
redirecting changes nothing (`Plain.redirect_eq_self`), and a pair that a transition leads to has
a state.  By induction every pair that arises has one (`Plain.exists_key`).
-/

import OmegaAutomata.Proofs.Counting
import OmegaAutomata.Proofs.Degeneralize.Plain
import OmegaAutomata.Proofs.Termination

namespace OmegaAutomata

open Arena

/-- What becomes of transitions that are taken with the counter `start`: the order is reversed, the
labels are kept, and the targets are the states of the resulting pairs. -/
def Generalized.copies (g : Generalized) (state : Nat × Nat → StateId) (start : Nat)
    (ts : List Transition) : List OmegaAutomata.Transition :=
  (ts.map fun t => ⟨state (t.target, Counter.advance g.sets t.acceptance start), t.label⟩).reverse

/-- Whether an automaton is the product of a generalized automaton with a progress counter, where
`i` is the initial state and `state n` is the state of the pair `n`. -/
structure Automaton.IsProduct (b : Automaton) (g : Generalized) (i : StateId)
    (state : Nat × Nat → StateId) : Prop where
  initial_eq : b.initial = some i
  initial_state : ∃ s, b.arena.LiveAt i s ∧ s.source = none ∧ s.identity = initialIdentity ∧
    s.counter = 0 ∧ s.transitions = g.copies state 0 (g.initial.flatMap g.transitions)
  pair_state : ∀ n, g.Arises n → ∃ s, b.arena.LiveAt (state n) s ∧ s.source = some n.1 ∧
    s.identity = g.identity n.1 ∧ s.counter = n.2 ∧
      s.transitions = g.copies state (Counter.restart g.sets n.2) (g.transitions n.1)
  state_injective : ∀ n m, g.Arises n → g.Arises m → state n = state m → n = m
  mem_live : ∀ x, x ∈ b.arena.live ↔ x = i ∨ ∃ n, g.Arises n ∧ state n = x
  live_nodup : b.arena.live.Nodup
  all_live : ∀ x l, b.arena.slot? x = some l → l.stage = .live

namespace Construction

variable {g : Generalized} {a : Arena} {x : StateId} {s : State} {l : Slot} {n : Nat × Nat}

/-- **Every state is live** when no state is pending. -/
theorem Plain.liveAt (h : Plain g none [] a) (hvalid : a.Valid) (hl : a.slot? x = some l) :
    a.LiveAt x l.state := by
  obtain ⟨stage, s⟩ := l
  cases stage with
  | pending => exact absurd hl (hvalid.not_pending x s)
  | live => exact hl
  | retired f => exact absurd (stage?_eq hl) (h.not_retired x f)

theorem Plain.copies (h : Plain g none [] a) (hs : a.LiveAt x s) :
    a.Copies s.transitions (g.edges s.node) := by
  have hcopied := h.copied x (stage?_eq hs) (by simp)
  rwa [transitionsOf_eq hs, nodeOf_eq hs] at hcopied

/-- A pair that has a state has a live one. -/
theorem Plain.exists_liveAt (h : Plain g none [] a) (hvalid : a.Valid) (hreg : a.Registered g)
    (hx : a.keys[n]? = some x) : ∃ s, a.LiveAt x s ∧ s.node = some n := by
  obtain ⟨l, hl, hn⟩ := hreg.node n x hx
  exact ⟨l.state, h.liveAt hvalid hl, hn⟩

/-- **Redirecting changes nothing**, as no transition leads to a retired state. -/
theorem Plain.redirect_eq_self (h : Plain g none [] a) (hvalid : a.Valid) (hreg : a.Registered g)
    (spared : Option StateId) : a.redirect spared = .ok (0, a) := by
  have htidy : a.Tidy := by
    intro x s hs t ht
    obtain ⟨e, -, hkey⟩ := (h.copies hs).exists_edge ht
    obtain ⟨u, hu, -⟩ := h.exists_liveAt hvalid hreg hkey
    exact ⟨u, hu⟩
  have hretired : a.retired = [] := by
    refine List.eq_nil_iff_forall_not_mem.2 fun x hx => ?_
    obtain ⟨f, s, hs⟩ := (hvalid.mem_retired x).1 hx
    exact h.not_retired x f (stage?_eq hs)
  exact hvalid.redirect_eq_self htidy hretired spared

/-- **Every pair that arises has a state**, since a transition led to it. -/
theorem Plain.exists_key (h : Plain g none [] a) (hvalid : a.Valid) (hreg : a.Registered g)
    (hn : g.Arises n) : ∃ x, a.keys[n]? = some x := by
  induction hn with
  | @root q t hq ht =>
    obtain ⟨s, hs⟩ := hreg.initial
    have hcopies := h.copies hs
    rw [(hreg.node_initial hs).1, Generalized.edges_none] at hcopies
    exact hcopies.found (g.edge 0 t)
      (List.mem_map_of_mem (List.mem_flatMap.2 ⟨q, hq, ht⟩))
  | @next q c t _ ht ih =>
    obtain ⟨x, hx⟩ := ih
    obtain ⟨s, hs, hnode⟩ := h.exists_liveAt hvalid hreg hx
    have hcopies := h.copies hs
    rw [hnode, Generalized.edges_some] at hcopies
    exact hcopies.found (g.edge (Counter.restart g.sets c) t) (List.mem_map_of_mem ht)

/-- Copied edges are what becomes of the transitions. -/
theorem copies_eq {ts : List Transition} {us : List Generalized.Transition} {start : Nat}
    (h : a.Copies ts (us.map (g.edge start))) : ts = g.copies a.stateFor start us := by
  rw [h.eq_map, ← List.map_reverse, List.map_map, Generalized.copies, ← List.map_reverse]
  rfl

/-- **What an exploration without simplification leaves is the product.** -/
theorem Plain.isProduct (h : Plain g none [] a) (hvalid : a.Valid) (hreg : a.Registered g) :
    (Automaton.ofArena a 0 g.sets g.maxIdentity g.propositions).IsProduct g 0 a.stateFor := by
  obtain ⟨r, hr⟩ := hreg.initial
  obtain ⟨hrnode, hrcounter⟩ := hreg.node_initial hr
  have hpair (n : Nat × Nat) (hn : g.Arises n) :
      ∃ s, a.LiveAt (a.stateFor n) s ∧ s.node = some n := by
    obtain ⟨x, hx⟩ := h.exists_key hvalid hreg hn
    rw [stateFor_eq hx]
    exact h.exists_liveAt hvalid hreg hx
  refine ⟨?_, ⟨r, hr, ?_, ?_, hrcounter, ?_⟩, fun n hn => ?_, fun n m hn hm hnm => ?_,
    fun x => ⟨fun hx => ?_, ?_⟩, hvalid.live_nodup, fun x l hl => ?_⟩
  · show (some 0).filter (fun id => a.isLive id) = some (0 : StateId)
    rw [Option.filter_some, if_pos (isLive_iff.2 ⟨r, hr⟩)]
  · exact (hreg.eq_zero_iff hr).1 rfl
  · have hidentity := hreg.identity 0 _ hr
    rwa [hrnode] at hidentity
  · have hcopies := h.copies hr
    rw [hrnode, Generalized.edges_none] at hcopies
    exact copies_eq hcopies
  · obtain ⟨s, hs, hnode⟩ := hpair n hn
    obtain ⟨hsource, hcounter⟩ := State.node_eq_some hnode
    have hidentity := hreg.identity _ _ hs
    have hcopies := h.copies hs
    dsimp only at hidentity
    rw [hnode] at hidentity
    rw [hnode, Generalized.edges_some] at hcopies
    exact ⟨s, hs, hsource, hidentity, hcounter, copies_eq hcopies⟩
  · obtain ⟨s, hs, hsnode⟩ := hpair n hn
    obtain ⟨t, ht, htnode⟩ := hpair m hm
    rw [hnm] at hs
    rw [hs.unique ht, htnode] at hsnode
    exact (Option.some.inj hsnode).symm
  · obtain ⟨s, hs⟩ := (hvalid.mem_live x).1 hx
    cases hnode : s.node with
    | none => exact .inl (hreg.eq_zero_of_node hs hnode)
    | some n =>
      have hkey := hreg.built x _ hs
      dsimp only at hkey
      rw [hnode] at hkey
      exact .inr ⟨n, h.arises n x hkey, stateFor_eq hkey⟩
  · rintro (rfl | ⟨n, hn, rfl⟩)
    · exact (hvalid.mem_live 0).2 ⟨r, hr⟩
    · obtain ⟨s, hs, -⟩ := hpair n hn
      exact (hvalid.mem_live _).2 ⟨s, hs⟩
  · exact congrArg Slot.stage (Option.some.inj (hl.symm.trans (h.liveAt hvalid hl)))

end Construction

variable {g : Generalized} {options : Options}

/-- **Without simplification on the fly the product is built.**  A construction only fails if a
count leaves its range, and not at all for an automaton whose numbers are in range and whose
transitions can be counted.  What it gives has one live state for each pair that arises, besides the
initial one, and no other state.  The transitions of a state are those of its source in reverse
order, with the same labels, and lead to the states of the pairs that result; the initial state
has those of all initial states.  Nothing is merged, retired or freed. -/
theorem isProduct_of_build (hplain : options.onTheFly = false) :
    (∀ f, build g options = .error f → ∃ x, f = .incomingOverflow x) ∧
    (g.InRange → (g.sets + 2) * g.transitionCount < 4294967296 →
      ∃ b stats, build g options = .ok (b, stats)) ∧
    ∀ b stats, build g options = .ok (b, stats) → (∃ i state, b.IsProduct g i state) ∧
      stats.merged = 0 ∧ stats.dead = 0 ∧ stats.unexplored = 0 ∧ stats.cascaded = 0 := by
  refine ⟨fun f hf => ?_, fun hg hcount => exists_build ⟨hg, Nat.le_of_lt_succ hcount⟩ options,
    fun b stats hb => ?_⟩
  · rcases bind_eq_error.1 hf with hf | ⟨⟨id, p⟩, hp, -⟩
    · exact Construction.explore_countsFail g options.onTheFly f hf
    · obtain ⟨b, stats, n, hb, -⟩ := exists_build_of_explore hp
      rw [hb] at hf
      contradiction
  · have hunexplored := build_unexplored hb
    obtain ⟨⟨id, p⟩, hp, hb⟩ := bind_eq_ok.1 hb
    obtain ⟨q, hq, hb⟩ := bind_eq_ok.1 hb
    obtain ⟨⟨n, a⟩, ha, hq⟩ := bind_eq_ok.1 hq
    rw [hplain] at hp
    obtain ⟨rfl, hbuilding, hpending⟩ := Construction.explore_eq_ok hp
    obtain ⟨h, hmerged, hdead⟩ := Construction.explore_plain hp
    have hvalid := hbuilding.valid hpending
    cases ha.symm.trans (h.redirect_eq_self hvalid hbuilding.registered (some 0))
    cases hq
    cases hb
    exact ⟨⟨0, _, h.isProduct hvalid hbuilding.registered⟩, hmerged, hdead, hunexplored, rfl⟩

/-- The generalized automaton with one state and one acceptance set, which loops on every letter
and, in the set, on letters without proposition `1`. -/
def Generalized.recurring : Generalized where
  states := #[⟨1, [⟨0, .always, ∅⟩, ⟨0, ⟨∅, .singleton 1, rfl⟩, .singleton 0⟩]⟩]
  initial := [0]
  sets := 1
  propositions := #["p", "q"]

/-- The state comes up with each of the two counters, and the transitions to the pairs that result
are the same for both. -/
theorem isProduct_recurring : (⟨false, true, true⟩ : Options).onTheFly = false ∧
    ∃ (b : Automaton) (stats : BuildStats) (i : StateId) (state : Nat × Nat → StateId),
      build .recurring ⟨false, true, true⟩ = .ok (b, stats) ∧ b.initial = some i ∧
        (∀ x, x ∈ b.arena.live ↔ x = i ∨ x = state (0, 0) ∨ x = state (0, 1)) ∧
        ∀ c ≤ 1, ∃ s, b.arena.LiveAt (state (0, c)) s ∧ s.counter = c ∧ s.transitions =
          [⟨state (0, 1), ⟨∅, .singleton 1, rfl⟩⟩, ⟨state (0, 0), .always⟩] := by
  have hrange : Generalized.recurring.InRange := by
    refine ⟨by decide, by decide, fun q t ht => ?_⟩
    match q with
    | 0 =>
      rcases List.mem_pair.1 ht with rfl | rfl
      · exact Nat.one_pos
      · exact Nat.one_pos
    | _ + 1 => contradiction
  have htarget (q : Nat) (t : Generalized.Transition)
      (ht : t ∈ Generalized.recurring.transitions q) :
      (t.target, Counter.advance 1 t.acceptance 0) ∈ [(0, 0), (0, 1)] := by
    match q with
    | 0 => rcases List.mem_pair.1 ht with rfl | rfl <;> decide
    | _ + 1 => contradiction
  have harises (n : Nat × Nat) : Generalized.recurring.Arises n ↔ n ∈ [(0, 0), (0, 1)] := by
    constructor
    · intro hn
      induction hn with
      | root _ ht => exact htarget _ _ ht
      | next _ ht ih =>
        -- a complete counter restarts from zero
        rcases List.mem_pair.1 ih with heq | heq
        · cases heq
          exact htarget _ _ ht
        · cases heq
          exact htarget _ _ ht
    · intro hn
      rcases List.mem_pair.1 hn with rfl | rfl
      · exact .root (q := 0) (t := ⟨0, .always, ∅⟩) (by decide) (by decide)
      · exact .root (q := 0) (t := ⟨0, ⟨∅, .singleton 1, rfl⟩, .singleton 0⟩) (by decide)
          (by decide)
  have hplain : (⟨false, true, true⟩ : Options).onTheFly = false := rfl
  obtain ⟨-, htotal, hproduct⟩ := isProduct_of_build (g := .recurring) hplain
  obtain ⟨b, stats, hb⟩ := htotal hrange (by decide)
  obtain ⟨⟨i, state, h⟩, -⟩ := hproduct b stats hb
  refine ⟨hplain, b, stats, i, state, hb, h.initial_eq, fun x => ?_, fun c hc => ?_⟩
  · rw [h.mem_live]
    simp [harises, eq_comm]
  · have hpair : (0, c) ∈ [(0, 0), (0, 1)] := by
      simpa using Nat.le_one_iff_eq_zero_or_eq_one.1 hc
    obtain ⟨s, hs, -, -, hcounter, htransitions⟩ := h.pair_state (0, c) ((harises _).2 hpair)
    refine ⟨s, hs, hcounter, htransitions.trans ?_⟩
    rcases Nat.le_one_iff_eq_zero_or_eq_one.1 hc with rfl | rfl
    · rfl
    · rfl

end OmegaAutomata
