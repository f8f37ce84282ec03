/-
# Minimizing what was built

What a construction gives is well-formed, so all passes keep its languages: that of
the automaton, and that of every state which is left (`accepts_of_runPasses`).

A state marked as transient lies on no cycle, however long ago it was marked
(`SoundMarks`).  A merging pass relies on this each time it overwrites a counter, and
it does so in the middle of the pass, when other states were merged already.  So what
matters is the graph of that moment, in which transitions go on to replacements
(`SoundOverwrites`).
-/

import OmegaAutomata.Proofs.Degeneralize.Language

namespace OmegaAutomata

namespace Automaton

variable {b c d : Automaton} {x y : StateId}

/-! ### Marks and counters -/

/-- Whether a transition of the live state `x` leads to `y`. -/
def Leads (b : Automaton) (x y : StateId) : Prop :=
  ∃ s, b.liveState? x = some s ∧ y ∈ s.targets

/-- Whether some non-empty path leads from a state back to it. -/
def OnCycle (b : Automaton) (x : StateId) : Prop :=
  Relation.TransGen b.Leads x x

/-- Whether the live states marked as transient lie on no cycle. -/
def SoundMarks (b : Automaton) : Prop :=
  ∀ x s, b.liveState? x = some s → s.recurrence = .transient → ¬b.OnCycle x

/-- Whether merging the states of `b` overwrites a counter only where no cycle passes at that time.
A merging pass visits the states step by step; in each step any counter stays that is not
overwritten.  What follows after the last visit overwrites none. -/
structure SoundOverwrites (b : Automaton) : Prop where
  overwritten : ∀ id older a, Relation.ReflTransGen (Arena.MergeStep b.accept)
    (b.arena.live.reverse, b.arena) (id :: older, a) →
      ∀ x, a.Overwrites b.accept id older x → ¬a.OnCycle x
  kept : ∀ id older a, Relation.ReflTransGen (Arena.MergeStep b.accept)
    (b.arena.live.reverse, b.arena) (id :: older, a) →
      ∀ gone a', a.mergeOne b.accept id older = .ok (gone, a') →
        ∀ x l, a.slot? x = some l → ¬a.Overwrites b.accept id older x →
          ∃ l', a'.slot? x = some l' ∧ l'.state.counter = l.state.counter
  after : ∀ n c, b.mergeStates = .ok (n, c) → ∃ a, Relation.ReflTransGen (Arena.MergeStep b.accept)
    (b.arena.live.reverse, b.arena) ([], a) ∧ Arena.KeepsCounters a c.arena

/-- In a tidy automaton every edge is one of the graph of its arena. -/
theorem leads_arena (h : b.arena.Tidy) (hxy : b.Leads x y) : b.arena.Leads x y := by
  obtain ⟨s, hs, hy⟩ := hxy
  exact h.leads_iff.2 ⟨s, liveState?_eq_some.1 hs, hy⟩

theorem WellFormed.soundMarks (h : b.WellFormed) : b.SoundMarks := by
  intro x s hs htransient hcycle
  refine h.valid.transient x s (liveState?_eq_some.1 hs) ?_
    (Relation.TransGen.mono (fun _ _ => leads_arena h.tidy) _ _ hcycle)
  rw [State.isFlexible, htransient]
  rfl

/-- **Merging overwrites counters off cycles only**, since each step keeps the arena valid. -/
theorem WellFormed.soundOverwrites (h : b.WellFormed) : b.SoundOverwrites where
  overwritten _ _ _ hsteps _ hx :=
    ((h.valid.merging b.accept).steps hsteps).valid.not_onCycle_of_overwrites hx
  kept _ _ _ hsteps _ _ hb _ _ hl hx := by
    have hmerging := (h.valid.merging b.accept).steps hsteps
    obtain ⟨s, hs⟩ := hmerging.live _ List.mem_cons_self
    exact hmerging.valid.counter_eq_of_not_overwrites hs hb hx hl
  after _ _ hc := by
    obtain ⟨-, m, a, ha, hcounters⟩ := h.mergeStates hc
    exact ⟨a, Arena.mergeSteps_of_mergeEach ha, hcounters⟩

/-- **A counter that a merging changes** was overwritten in one of its steps, off all cycles. -/
theorem SoundOverwrites.exists_overwrites (h : b.SoundOverwrites) {r : Nat × Automaton}
    (hr : b.mergeStates = .ok r) {s t : State} (hs : b.liveState? x = some s)
    (ht : r.2.liveState? x = some t) (hne : s.counter ≠ t.counter) :
    ∃ id older a, Relation.ReflTransGen (Arena.MergeStep b.accept)
      (b.arena.live.reverse, b.arena) (id :: older, a) ∧
        a.Overwrites b.accept id older x ∧ ¬a.OnCycle x := by
  obtain ⟨a, hsteps, hcounters⟩ := h.after r.1 r.2 hr
  obtain ⟨u, hu, hut⟩ := hcounters x t (liveState?_eq_some.1 ht)
  by_contra hnone
  -- as long as no step overwrites the counter, it is the one from before
  have hkept : ∀ q, Relation.ReflTransGen (Arena.MergeStep b.accept)
      (b.arena.live.reverse, b.arena) q →
        ∃ l, q.2.slot? x = some l ∧ l.state.counter = s.counter := by
    intro q hq
    induction hq with
    | refl => exact ⟨_, liveState?_eq_some.1 hs, rfl⟩
    | tail hq hstep ih =>
      obtain ⟨l, hl, hls⟩ := ih
      cases hstep with
      | visit hb =>
        obtain ⟨m, hm, hml⟩ := h.kept _ _ _ hq _ _ hb x l hl fun hover =>
          hnone ⟨_, _, _, hq, hover, h.overwritten _ _ _ hq x hover⟩
        exact ⟨m, hm, hml.trans hls⟩
  obtain ⟨l, hl, hls⟩ := hkept _ hsteps
  cases hu.symm.trans hl
  exact hne (hls.symm.trans hut)

end Automaton

/-! ### Passes on what was built -/

variable {g : Generalized} {options : Options} {b c : Automaton} {stats : BuildStats}

/-- **Every sequence of passes keeps the languages.**  The automaton accepts what it accepted when
it was built, and each state that is left was there and accepted the same words. -/
theorem accepts_of_runPasses (h : build g options = .ok (b, stats))
    {passes : List Automaton.Pass} (hc : b.runPasses passes = .ok c) :
    c.accept = b.accept ∧ (∀ w, c.Accepts w ↔ b.Accepts w) ∧
      ∀ x, c.arena.isLive x = true →
        b.arena.isLive x = true ∧ ∀ w, c.AcceptsFrom x w ↔ b.AcceptsFrom x w := by
  obtain ⟨hb, -, -⟩ := build_eq_ok h
  obtain ⟨hwf, hkeeps⟩ := hb.comesUp (Automaton.comesUp_of_runPasses hc)
  refine ⟨hkeeps.accept_eq, hkeeps.accepts, fun x hx => ⟨?_, hkeeps.acceptsFrom_iff hb hwf hx⟩⟩
  obtain ⟨s, hs⟩ := Arena.isLive_iff.1 hx
  exact Arena.isLive_iff.2 (hkeeps.arena.live x s hs)

/-- Two states of the automaton for "infinitely often `p` and infinitely often `q`" are merged, which
keeps its language and those of the states that are left. -/
theorem build_fair_passes : ∃ b stats c, build .fair ⟨false, true, true⟩ = .ok (b, stats) ∧
    b.runPasses [.subsumption, .components, .merging] = .ok c ∧ c.arena.live = [0, 2, 4, 3] ∧
      (∀ w, c.Accepts w ↔ b.Accepts w) ∧ ∀ w, c.AcceptsFrom 2 w ↔ b.AcceptsFrom 2 w := by
  have hrun : (build .fair ⟨false, true, true⟩ >>= fun r =>
      (fun c => (c.arena.live, c.arena.isLive 2)) <$>
        r.1.runPasses [.subsumption, .components, .merging]) = .ok ([0, 2, 4, 3], true) := by cbv
  obtain ⟨⟨b, stats⟩, hb, hrun⟩ := bind_eq_ok.1 hrun
  obtain ⟨c, hc, hrun⟩ := map_eq_ok.1 hrun
  obtain ⟨hlive, htwo⟩ := Prod.mk.inj hrun
  obtain ⟨-, hword, hstate⟩ := accepts_of_runPasses hb hc
  exact ⟨b, stats, c, hb, hc, hlive, hword, (hstate 2 htwo).2⟩

/-- **Marks stay sound** through every sequence of passes, and every merging pass on the way
overwrites counters only in states that lie on no cycle. -/
theorem soundMarks_of_build (h : build g options = .ok (b, stats)) :
    (∀ passes c, b.runPasses passes = .ok c → c.SoundMarks) ∧
      ∀ c, Automaton.ComesUp b c → c.SoundOverwrites := by
  obtain ⟨hb, -, -⟩ := build_eq_ok h
  refine ⟨fun passes c hc => ?_, fun c hc => ?_⟩
  · exact (hb.comesUp (Automaton.comesUp_of_runPasses hc)).1.soundMarks
  · exact (hb.comesUp hc).1.soundOverwrites

/-- An automaton with two acceptance sets.  After its states were classified, a merging has the
state for source 2 and counter 1 take over the counter 0 of the state for source 1. -/
def Generalized.overwriting : Generalized where
  states := #[⟨1, [⟨1, .always, ∅⟩, ⟨2, .always, ∅⟩, ⟨3, .always, .singleton 0⟩,
      ⟨2, .always, .singleton 0⟩]⟩,
    ⟨2, [⟨4, .requires [0], .singleton 0⟩]⟩, ⟨3, [⟨4, .requires [0], ∅⟩]⟩,
    ⟨4, [⟨4, .requires [0], ∅⟩]⟩, ⟨5, [⟨4, .always, ∅⟩]⟩]
  initial := [0]
  sets := 2
  propositions := #["p"]

/-- Its classification marks the state as transient, and the merging that follows overwrites the
counter of this state at a time when no cycle passes through it. -/
theorem build_overwriting_sound : ∃ b stats c d,
    build .overwriting ⟨false, true, true⟩ = .ok (b, stats) ∧
    b.runPasses [.components] = .ok c ∧ c.SoundMarks ∧
      (∃ s, c.liveState? 4 = some s ∧ s.recurrence = .transient ∧ s.counter = 1) ∧
    c.mergeStates = .ok d ∧ (∃ s, d.2.liveState? 4 = some s ∧ s.counter = 0) ∧
      ∃ id older a, Relation.ReflTransGen (Arena.MergeStep c.accept)
        (c.arena.live.reverse, c.arena) (id :: older, a) ∧
          a.Overwrites c.accept id older 4 ∧ ¬a.OnCycle 4 := by
  have hrun : (build .overwriting ⟨false, true, true⟩ >>= fun r =>
      r.1.runPasses [.components] >>= fun c =>
        (fun d => ((c.liveState? 4).map fun s => (s.recurrence, s.counter),
          (d.2.liveState? 4).map State.counter)) <$> c.mergeStates) =
      .ok (some (.transient, 1), some 0) := by cbv
  obtain ⟨⟨b, stats⟩, hb, hrun⟩ := bind_eq_ok.1 hrun
  obtain ⟨c, hc, hrun⟩ := bind_eq_ok.1 hrun
  obtain ⟨d, hd, hrun⟩ := map_eq_ok.1 hrun
  obtain ⟨hbefore, hafter⟩ := Prod.mk.inj hrun
  obtain ⟨s, hs, hmark⟩ := Option.map_eq_some_iff.1 hbefore
  obtain ⟨t, ht, hcounter⟩ := Option.map_eq_some_iff.1 hafter
  obtain ⟨htransient, hone⟩ := Prod.mk.inj hmark
  obtain ⟨hmarks, hoverwrites⟩ := soundMarks_of_build hb
  have hsound := hoverwrites c (Automaton.comesUp_of_runPasses hc)
  exact ⟨b, stats, c, d, hb, hc, hmarks _ c hc, ⟨s, hs, htransient, hone⟩, hd, ⟨t, ht, hcounter⟩,
    hsound.exists_overwrites hd hs ht (by rw [hone, hcounter]; decide)⟩

end OmegaAutomata
