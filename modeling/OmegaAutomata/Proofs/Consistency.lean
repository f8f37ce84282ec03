/-
# Consistency of what was built

What a construction gives is rooted: its states were registered with the display ids
and counters of their nodes, and the initial state is the one that was built for no pair
(`build_rooted`).  Passes keep this, so an automaton is consistent at every point between
two of them (`consistent_of_build`).
-/

import OmegaAutomata.Proofs.Automaton.Consistency
import OmegaAutomata.Proofs.Minimization

namespace OmegaAutomata

namespace Generalized

theorem le_foldl_max {states : List State} {m n : Int} (h : m ≤ n) :
    m ≤ states.foldl (fun m s => max m s.identity) n := by
  induction states generalizing n with
  | nil => exact h
  | cons s states ih => exact ih (Int.le_trans h (Int.le_max_left _ _))

theorem identity_le_foldl_max {states : List State} {s : State} (hs : s ∈ states) (n : Int) :
    s.identity ≤ states.foldl (fun m s => max m s.identity) n := by
  induction states generalizing n with
  | nil => exact absurd hs List.not_mem_nil
  | cons t states ih =>
    rw [List.foldl_cons]
    rcases List.mem_cons.1 hs with rfl | hs
    · exact le_foldl_max (Int.le_max_right _ _)
    · exact ih hs _

/-- The largest display id is not negative. -/
theorem maxIdentity_nonneg (g : Generalized) : 0 ≤ g.maxIdentity := by
  rw [maxIdentity, ← Array.foldl_toList]
  exact le_foldl_max (Int.le_refl 0)

/-- **No display id exceeds the largest one.** -/
theorem identity_le_maxIdentity (g : Generalized) (q : Nat) : g.identity q ≤ g.maxIdentity := by
  unfold identity
  cases h : g.states[q]? with
  | none => exact g.maxIdentity_nonneg
  | some s =>
    rw [maxIdentity, ← Array.foldl_toList]
    exact identity_le_foldl_max (Array.mem_toList_iff.2 (Array.mem_of_getElem? h)) 0

end Generalized

variable {g : Generalized} {options : Options} {b c : Automaton} {stats : BuildStats}

/-- What the arena of a construction comes to: its states, less those that died at the end. -/
theorem build_eq_redirect (h : build g options = .ok (b, stats)) :
    ∃ p, Construction.Building g none none [] p ∧ p.pending = [] ∧ b.initial = some 0 ∧
      b.accept = g.sets ∧ b.lastIdentity = g.maxIdentity ∧ b.propositions = g.propositions ∧
        ∃ n, p.redirect (some 0) = .ok (n, b.arena) := by
  obtain ⟨hwf, -⟩ := build_eq_ok h
  obtain ⟨⟨x, p⟩, hp, h⟩ := bind_eq_ok.1 h
  obtain ⟨q, hq, h⟩ := bind_eq_ok.1 h
  cases h
  obtain ⟨rfl, hbuilding, hpending⟩ := Construction.explore_eq_ok hp
  obtain ⟨⟨n, a⟩, ha, hq⟩ := bind_eq_ok.1 hq
  cases hq
  obtain ⟨s, hs⟩ := hbuilding.registered.initial
  obtain ⟨t, ht⟩ := ((hbuilding.valid hpending).redirect ha).1.spared_live 0 s rfl hs
  refine ⟨p.arena, hbuilding, hpending, ?_, rfl, rfl, rfl, n, ha⟩
  show (some 0).filter (fun id => a.isLive id) = some 0
  rw [Option.filter_some, if_pos (Arena.isLive_iff.2 ⟨t, ht⟩)]

/-- **What is built is rooted.** -/
theorem build_rooted (h : build g options = .ok (b, stats)) : b.Rooted := by
  obtain ⟨hwf, -⟩ := build_eq_ok h
  obtain ⟨p, hbuilding, hpending, hinitial, haccept, hlast, -, n, hn⟩ := build_eq_redirect h
  have hreg := hbuilding.registered
  obtain ⟨m, a, ha, hremoves⟩ := (hbuilding.valid hpending).removes_redirect (some 0)
  cases hn.symm.trans ha
  refine ⟨hremoves.pending_eq.trans hpending, Arena.retired_redirect hn, fun x s hs => ?_,
    fun x s hs => ?_, fun i s hi hs => ?_, fun x s hs hsource => ?_⟩
  · obtain ⟨y, t, ht, hcounter⟩ := hremoves.counter x s hs
    rw [← hcounter, haccept]
    exact hreg.counter_le ht
  · obtain ⟨t, ht, -, hidentity⟩ := hremoves.origin x s hs
    rw [← hidentity, hlast, hreg.identity x _ ht]
    cases t.node with
    | none =>
      have hnonneg := g.maxIdentity_nonneg
      simp only [Generalized.nodeIdentity, initialIdentity]
      omega
    | some n => exact g.identity_le_maxIdentity n.1
  · cases hinitial.symm.trans hi
    obtain ⟨t, ht, hsource, hidentity⟩ := hremoves.origin 0 s hs
    rw [← hsource, ← hidentity, hreg.identity 0 _ ht, (hreg.node_initial ht).1]
    exact ⟨rfl, (hreg.eq_zero_iff ht).1 rfl⟩
  · obtain ⟨t, ht, hsource', -⟩ := hremoves.origin x s hs
    rw [hinitial, (hreg.eq_zero_iff ht).2 (hsource'.trans hsource)]

namespace Automaton

/-- Whether an automaton is as it may be used and passed on: no state is left pending or retired,
transitions lead to live states, counters are at most `k`, and the initial state is the first
one, has the display id that is kept for it, and is the only one without a source. -/
structure Consistent (k : Nat) (b : Automaton) : Prop where
  pending : b.arena.pending = [] ∧ ∀ x s, b.arena.slot? x ≠ some ⟨.pending, s⟩
  retired : b.arena.retired = [] ∧ ∀ x f s, b.arena.slot? x ≠ some ⟨.retired f, s⟩
  target_live : ∀ x s, b.liveState? x = some s → ∀ t ∈ s.transitions,
    ∃ u, b.liveState? t.target = some u
  counter_le : ∀ x s, b.liveState? x = some s → s.counter ≤ k
  initial : b.initial = none ∧ b.states = [] ∧ (∀ x, b.liveState? x = none) ∨
    ∃ i s rest, b.initial = some i ∧ b.states = (i, s) :: rest ∧ b.liveState? i = some s ∧
      s.identity = initialIdentity ∧ s.source = none ∧
        ∀ x t, b.liveState? x = some t → t.source = none → x = i

/-- **An automaton that is well-formed and rooted is consistent.** -/
theorem Rooted.consistent (h : b.Rooted) (hwf : b.WellFormed) : b.Consistent b.accept where
  pending := ⟨h.pending_eq, hwf.valid.not_pending⟩
  retired := by
    refine ⟨h.retired_eq, fun x f s hs => ?_⟩
    have hmem := (hwf.valid.mem_retired x).2 ⟨f, s, hs⟩
    rw [h.retired_eq] at hmem
    exact List.not_mem_nil hmem
  target_live x s hs t ht := by
    obtain ⟨u, hu⟩ := hwf.tidy x s (liveState?_eq_some.1 hs) t ht
    exact ⟨u, liveState?_eq_some.2 hu⟩
  counter_le x s hs := h.counter_le x s (liveState?_eq_some.1 hs)
  initial := by
    rcases hwf.initial with ⟨hnone, hnil⟩ | ⟨i, rest, hi, hlive⟩
    · refine .inl ⟨hnone, by rw [states, Arena.liveStates, hnil]; rfl, fun x => ?_⟩
      refine Option.eq_none_iff_forall_ne_some.2 fun s hs => ?_
      have hmem := (hwf.valid.mem_live x).2 ⟨s, liveState?_eq_some.1 hs⟩
      rw [hnil] at hmem
      exact List.not_mem_nil hmem
    · obtain ⟨s, hs⟩ := hwf.live_initial hi
      obtain ⟨hidentity, hsource⟩ := h.initial i s hi hs
      refine .inr ⟨i, s, rest.filterMap fun id => (b.arena.slot? id).map fun s => (id, s.state),
        hi, ?_, liveState?_eq_some.2 hs, hidentity, hsource, fun x t ht hnone => ?_⟩
      · rw [states, Arena.liveStates, hlive, List.filterMap_cons, hs]
        rfl
      · have hx := h.sourceless x t (liveState?_eq_some.1 ht) hnone
        exact Option.some.inj (hx.symm.trans hi)

end Automaton

/-- **Consistency at every point between passes.**  Whatever comes up while passes run on what was
built is consistent, and has the initial state that was built or none. -/
theorem consistent_of_build (h : build g options = .ok (b, stats)) :
    (∀ passes c, b.runPasses passes = .ok c →
      c.Consistent g.sets ∧ ∀ i, c.initial = some i → b.initial = some i) ∧
    ∀ c, Automaton.ComesUp b c →
      c.Consistent g.sets ∧ ∀ i, c.initial = some i → b.initial = some i := by
  obtain ⟨hwf, haccept, -⟩ := build_eq_ok h
  have hcomesUp (c : Automaton) (hc : Automaton.ComesUp b c) :
      c.Consistent g.sets ∧ ∀ i, c.initial = some i → b.initial = some i := by
    obtain ⟨hcwf, hkeeps⟩ := hwf.comesUp hc
    obtain ⟨hrooted, hinitial⟩ := (build_rooted h).comesUp hwf hc
    have hconsistent := hrooted.consistent hcwf
    rw [hkeeps.accept_eq, haccept] at hconsistent
    exact ⟨hconsistent, hinitial⟩
  exact ⟨fun passes c hc => hcomesUp c (Automaton.comesUp_of_runPasses hc), hcomesUp⟩

/-- What is left of the automaton for "infinitely often `p` and infinitely often `q`" after its
states were classified and merged is consistent. -/
theorem build_fair_consistent : ∃ b stats c, build .fair ⟨false, true, true⟩ = .ok (b, stats) ∧
    b.runPasses [.components, .merging] = .ok c ∧ c.initial = some 0 ∧
      c.arena.live = [0, 2, 4, 3] ∧ c.Consistent 2 := by
  have hrun : (build .fair ⟨false, true, true⟩ >>= fun r =>
      (fun c => (c.initial, c.arena.live)) <$> r.1.runPasses [.components, .merging]) =
      .ok (some 0, [0, 2, 4, 3]) := by cbv
  obtain ⟨⟨b, stats⟩, hb, hrun⟩ := bind_eq_ok.1 hrun
  obtain ⟨c, hc, hrun⟩ := map_eq_ok.1 hrun
  obtain ⟨hinitial, hlive⟩ := Prod.mk.inj hrun
  exact ⟨b, stats, c, hb, hc, hinitial, hlive, ((consistent_of_build hb).1 _ c hc).1⟩

end OmegaAutomata
