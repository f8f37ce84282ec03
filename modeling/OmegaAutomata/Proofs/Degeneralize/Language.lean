/-
# A construction keeps the language

When every state was dealt with, the system of the arena and the unfolded system
simulate each other: a node is related to the state to which transitions to it lead
(`Represents`).  A node without edges may be represented by no state, and a run
never needs it.

At last the transitions are redirected, which keeps the language as it does during a
minimization, and the result is a well-formed automaton (`build_eq_ok`).  It accepts
what the generalized automaton accepts (`accepts_of_build`).
-/

import OmegaAutomata.Proofs.Automaton.Passes
import OmegaAutomata.Proofs.Degeneralize.Exploration
import OmegaAutomata.Proofs.Generalized.Collected
import Mathlib

namespace OmegaAutomata

open Arena

namespace Construction

variable {g : Generalized} {a : Arena} {x y z : StateId} {n m : Node} {v : IndexSet} {w : Word}

/-- Whether transitions to what was built for a node lead to a state. -/
def Represents (a : Arena) (n : Node) (y : StateId) : Prop :=
  ∃ x, a.built? n = some x ∧ a.destination? x = some y

/-- **An arena without pending states is valid.** -/
theorem Building.valid (h : Building g none none [] a) (hpending : a.pending = []) : a.Valid where
  toListed := h.registered.toListed
  not_pending x s hs := by
    rcases h.pending_mem x s hs with hx | hx
    · rw [hpending] at hx
      exact List.not_mem_nil hx
    · contradiction
  transient x s hs hflex := by
    rw [State.isFlexible, h.registered.unknown x _ hs] at hflex
    contradiction

/-- Everything that was built was dealt with. -/
theorem Building.settled (h : Building g none none [] a) (hpending : a.pending = [])
    (hn : a.built? n = some x) : a.Settled g none x n := by
  have hslot : ∃ l, a.slot? x = some l ∧ l.state.node = n := by
    cases n with
    | none =>
      cases hn
      obtain ⟨s, hs⟩ := h.registered.initial
      exact ⟨_, hs, (h.registered.node_initial hs).1⟩
    | some n => exact h.registered.node n x hn
  obtain ⟨⟨stage, s⟩, hl, rfl⟩ := hslot
  refine h.faithful x _ hl ?_ (by simp)
  rintro rfl
  exact (h.valid hpending).not_pending x s hl

/-- What represents a node is live, has its marking and lists its edges. -/
theorem Building.represents (h : Building g none none [] a) (hpending : a.pending = [])
    (hn : Represents a n y) : ∃ s, a.LiveAt y s ∧ (s.counter = g.sets ↔ n.counter = g.sets) ∧
      a.Lists s.transitions (g.edges n) := by
  obtain ⟨x, hx, hy⟩ := hn
  rcases h.settled hpending hx with ⟨hnone, -⟩ | ⟨y', s, hy', -, hs⟩
  · rw [hnone] at hy
    contradiction
  · cases hy.symm.trans hy'
    exact ⟨s, hs⟩

/-- A step between nodes is one between states that represent them, if the second node has an
edge. -/
theorem Building.step_of_unfolded (h : Building g none none [] a) (hpending : a.pending = [])
    (hn : Represents a n y) (hstep : g.unfolded.step v n m) (hgoes : ∃ m', g.unfolded.Edge m m') :
    ∃ z, (a.system g.sets).step v y z ∧ Represents a m z := by
  obtain ⟨s, hs, -, hlists⟩ := h.represents hpending hn
  obtain ⟨e, he, hholds, rfl⟩ := hstep
  obtain ⟨t, ht, himplies, -, x, hx, hdest⟩ := hlists.complete e he
  rcases h.settled (n := some e.2) hpending hx with ⟨-, hnil⟩ | ⟨z, _, hz, -⟩
  · obtain ⟨m', v', e', he', -⟩ := hgoes
    rw [hnil] at he'
    exact absurd he' List.not_mem_nil
  · exact ⟨z, ⟨s, hs, t, ht, hdest.trans hz, Label.holds_of_implies himplies hholds⟩, x, hx, hz⟩

/-- A step between states is one between nodes that they represent. -/
theorem Building.step_unfolded (h : Building g none none [] a) (hpending : a.pending = [])
    (hn : Represents a n y) (hstep : (a.system g.sets).step v y z) :
    ∃ m, g.unfolded.step v n m ∧ Represents a m z := by
  obtain ⟨s, hs, -, hlists⟩ := h.represents hpending hn
  obtain ⟨s', hs', t, ht, hz, hholds⟩ := hstep
  cases hs.unique hs'
  obtain ⟨e, he, hlabel, -, x, hx, hdest⟩ := hlists.sound t ht
  exact ⟨some e.2, ⟨e, he, hlabel ▸ hholds, rfl⟩, x, hx, hdest.symm.trans hz⟩

/-- **A state accepts** what a node accepts that it represents. -/
theorem Building.acceptsFrom_iff_of_represents (h : Building g none none [] a)
    (hpending : a.pending = []) (hn : Represents a n y) :
    (a.system g.sets).AcceptsFrom y w ↔ g.unfolded.AcceptsFrom n w := by
  have haccepting {n : Node} {y : StateId} (hn : Represents a n y) :
      (a.system g.sets).accepting y ↔ n.counter = g.sets := by
    obtain ⟨s, hs, hcounter, -⟩ := h.represents hpending hn
    rw [hs.accepting_iff, hcounter]
  constructor
  · intro hacc
    exact hacc.simulate (R := fun y n => Represents a n y)
      (fun hn hstep _ => h.step_unfolded hpending hn hstep)
      (fun hn hy => (haccepting hn).1 hy) hn
  · intro hacc
    exact hacc.simulate (R := fun n y => Represents a n y)
      (fun hn hstep hgoes => h.step_of_unfolded hpending hn hstep hgoes)
      (fun hn hy => (haccepting hn).2 hy) hn

/-- A live state represents the node that it was built for. -/
theorem Building.represents_node (h : Building g none none [] a) {s : State}
    (hs : a.LiveAt x s) : Represents a s.node x :=
  ⟨x, h.registered.built x _ hs, hs.destination?_eq⟩

/-- **The initial state accepts** what the generalized automaton accepts. -/
theorem Building.acceptsFrom_iff (h : Building g none none [] a) (hpending : a.pending = []) :
    (a.system g.sets).AcceptsFrom 0 w ↔ g.Accepts w := by
  obtain ⟨s, hs⟩ := h.registered.initial
  have hinitial := h.represents_node hs
  rw [(h.registered.node_initial hs).1] at hinitial
  rw [h.acceptsFrom_iff_of_represents hpending hinitial, Generalized.acceptsFrom_unfolded_iff]

end Construction

variable {g : Generalized} {options : Options} {b : Automaton} {stats : BuildStats}

/-- **What is built is well-formed** and accepts what the initial state of the construction does. -/
theorem build_eq_ok (h : build g options = .ok (b, stats)) :
    b.WellFormed ∧ b.accept = g.sets ∧ ∀ w, b.Accepts w ↔ g.Accepts w := by
  obtain ⟨⟨x, p⟩, hp, h⟩ := bind_eq_ok.1 h
  obtain ⟨q, hq, h⟩ := bind_eq_ok.1 h
  cases h
  obtain ⟨rfl, hbuilding, hpending⟩ := Construction.explore_eq_ok hp
  obtain ⟨⟨n, c⟩, hc, hq⟩ := bind_eq_ok.1 hq
  cases hq
  obtain ⟨s, hs⟩ := hbuilding.registered.initial
  obtain ⟨hr, htidy⟩ := (hbuilding.valid hpending).redirect hc
  obtain ⟨t, ht⟩ := hr.spared_live 0 s rfl hs
  have hoption : (some 0).filter (fun id => c.isLive id) = some (0 : StateId) := by
    rw [Option.filter_some, if_pos (isLive_iff.2 ⟨t, ht⟩)]
  obtain ⟨rest, hrest⟩ : ∃ rest, p.arena.live = 0 :: rest :=
    List.head?_eq_some_iff.1 hbuilding.registered.oldest
  obtain ⟨rest', hrest'⟩ := Automaton.live_eq_cons hrest hbuilding.registered.live_nodup
    (hr.keeps g.sets).sublist ((hr.valid.mem_live 0).2 ⟨t, ht⟩)
  refine ⟨⟨hr.valid, htidy, .inr ⟨0, rest', hoption, hrest'⟩⟩, rfl, fun w => ?_⟩
  have hacc : (c.system g.sets).AcceptsFrom 0 w ↔ g.Accepts w := by
    rw [(hr.keeps g.sets).accepts 0 t ht, hbuilding.acceptsFrom_iff hpending]
  rw [← hacc]
  constructor
  · rintro ⟨i, hi, hw⟩
    cases hoption.symm.trans hi
    exact (Automaton.acceptsFrom_iff htidy).1 hw
  · intro hw
    exact ⟨0, hoption, (Automaton.acceptsFrom_iff htidy).2 hw⟩

/-- **Degeneralization keeps the language.**  A run of the Büchi automaton that visits complete
counters infinitely often is a run of the generalized automaton that sees every acceptance set
infinitely often, and conversely. -/
theorem accepts_of_build (h : build g options = .ok (b, stats)) (w : Word) :
    b.accept = g.sets ∧ (b.Accepts w ↔ g.Accepts w) := by
  obtain ⟨-, haccept, hw⟩ := build_eq_ok h
  exact ⟨haccept, hw w⟩

/-- The label that requires some propositions. -/
def Label.requires (ps : List Nat) : Label :=
  ⟨.ofList ps, ∅, IndexSet.isDisjoint_iff.2 fun x _ => IndexSet.not_mem_empty x⟩

/-- The automaton for "infinitely often `p` and infinitely often `q`".  A transition belongs to the
acceptance sets of the propositions that it requires.  Its first state leads to two states with the
same transitions. -/
def Generalized.fair : Generalized where
  states := #[⟨1, [⟨1, .always, ∅⟩, ⟨2, .always, ∅⟩]⟩,
    ⟨2, [[], [0], [1], [0, 1]].map fun ps => ⟨1, .requires ps, .ofList ps⟩⟩,
    ⟨3, [[], [0], [1], [0, 1]].map fun ps => ⟨1, .requires ps, .ofList ps⟩⟩]
  initial := [0]
  sets := 2
  propositions := #["p", "q"]

theorem Generalized.acceptance_fair {q : Nat} {t : Transition} (ht : t ∈ fair.transitions q) :
    t.acceptance = t.label.pos := by
  match q with
  | 0 => rcases List.mem_pair.1 ht with rfl | rfl <;> rfl
  | 1 | 2 =>
    obtain ⟨ps, -, rfl⟩ := List.mem_map.1 ht
    rfl
  | _ + 3 => contradiction

/-- The run that requires as many of the two propositions as it can. -/
def Generalized.fairRun (w : Word) : fair.Run w where
  state
    | 0 => 0
    | _ + 1 => 1
  taken
    | 0 => ⟨1, .always, ∅⟩
    | i + 1 =>
      ⟨1, .requires ([0, 1].filter (· ∈ w (i + 1))), .ofList ([0, 1].filter (· ∈ w (i + 1)))⟩
  start := List.mem_singleton_self 0
  taken_mem
    | 0 => List.mem_cons_self
    | i + 1 => by
      refine List.mem_map.2 ⟨[0, 1].filter (· ∈ w (i + 1)), ?_, rfl⟩
      by_cases h₀ : 0 ∈ w (i + 1) <;> by_cases h₁ : 1 ∈ w (i + 1) <;> simp [h₀, h₁]
  holds
    | 0 => rfl
    | i + 1 => by
      refine Label.holds_iff.2 ⟨fun x hx => ?_, fun x hx => absurd hx (IndexSet.not_mem_empty x)⟩
      exact of_decide_eq_true (List.mem_filter.1 (IndexSet.mem_ofList.1 hx)).2
  next
    | 0 => rfl
    | _ + 1 => rfl

/-- **It accepts the words with both propositions infinitely often.** -/
theorem Generalized.fair_accepts (w : Word) : fair.Accepts w ↔
    (InfinitelyOften fun i => 0 ∈ w i) ∧ InfinitelyOften fun i => 1 ∈ w i := by
  constructor
  · rintro ⟨r, hr⟩
    have hseen {j : Nat} (hj : j < 2) : InfinitelyOften fun i => j ∈ w i := fun n => by
      obtain ⟨m, hm, hacc⟩ := hr j hj n
      rw [acceptance_fair (r.taken_mem m)] at hacc
      exact ⟨m, hm, (Label.holds_iff.1 (r.holds m)).1 j hacc⟩
    exact ⟨hseen Nat.two_pos, hseen Nat.one_lt_two⟩
  · rintro ⟨h₀, h₁⟩
    refine ⟨fairRun w, fun j hj n => ?_⟩
    have hpair : j = 0 ∨ j = 1 := by
      have hj : j < 2 := hj
      omega
    -- the transition at the first position belongs to no set
    obtain ⟨m, hm, hmem⟩ : ∃ m, n + 1 ≤ m ∧ j ∈ w m := by
      rcases hpair with rfl | rfl
      · exact h₀ (n + 1)
      · exact h₁ (n + 1)
    obtain ⟨m, rfl⟩ := Nat.exists_eq_add_of_le' (Nat.le_trans (Nat.le_add_left 1 n) hm)
    exact ⟨m + 1, by omega, IndexSet.mem_ofList.2
      (List.mem_filter.2 ⟨List.mem_pair.2 hpair, decide_eq_true hmem⟩)⟩

/-- Collects this automaton. -/
def Builder.fair : Builder Nat :=
  let declared := (((Builder.empty 2).addProposition "p").2.addProposition "q").2
  let start := ((declared.markInitial 0).addTransition 0 ∅ ∅ ∅ 1).addTransition 0 ∅ ∅ ∅ 2
  let moves := [1, 2].flatMap fun q => [[], [0], [1], [0, 1]].map (Prod.mk q)
  moves.foldl (fun b (q, ps) => b.addTransition q (.ofList ps) ∅ (.ofList ps) 1) start

theorem Builder.collected_fair : Builder.fair.Collected :=
  List.foldlRecOn _ _ (.addTransition 0 ∅ ∅ ∅ 2 (.addTransition 0 ∅ ∅ ∅ 1 (.markInitial 0
    (.addProposition "q" (.addProposition "p" (.empty 2)))))) fun _ hb _ _ =>
      .addTransition _ _ _ _ _ hb

theorem Builder.build_fair : Builder.fair.build = .ok .fair := by
  have hdeclared : (((Builder.empty 2).addProposition "p").2.addProposition "q").2 =
      (⟨2, #["p", "q"], #[], []⟩ : Builder Nat) := rfl
  rw [Builder.fair, hdeclared]
  cbv

/-- What is built for it has five states, and the same language. -/
theorem build_fair_accepts : ∃ b stats, build .fair ⟨false, true, true⟩ = .ok (b, stats) ∧
    b.arena.live = [0, 2, 4, 3, 1] ∧ b.accept = 2 ∧
      ∀ w, b.Accepts w ↔ (InfinitelyOften fun i => 0 ∈ w i) ∧ InfinitelyOften fun i => 1 ∈ w i := by
  have hrun : (build .fair ⟨false, true, true⟩ >>= fun r => pure r.1.arena.live) =
      .ok [0, 2, 4, 3, 1] := by cbv
  obtain ⟨⟨b, stats⟩, hb, hlive⟩ := bind_eq_ok.1 hrun
  exact ⟨b, stats, hb, Except.ok.inj hlive, (accepts_of_build hb fun _ => ∅).1,
    fun w => (accepts_of_build hb w).2.trans (Generalized.fair_accepts w)⟩

end OmegaAutomata
