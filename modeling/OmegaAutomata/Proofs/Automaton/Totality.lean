/-
# Passes never fail

A well-formed automaton has everything that a pass looks up, so the only way for a pass
to fail is to run out of display ids.  `Ready` says that there is one left for each state
that may still have to be renamed.  Every state is renamed at most once, whatever passes
follow, so an automaton that is ready stays so (`Ready.exists_run`).
-/

import OmegaAutomata.Proofs.Automaton.Consistency

namespace OmegaAutomata

namespace Automaton

variable {b c d : Automaton} {m : Int} {n : Nat} {i x : StateId} {s : State}

/-- Whether all passes may be run on an automaton, where display ids above `m` are fresh numbers. -/
structure Ready (m : Int) (b : Automaton) : Prop where
  wellFormed : b.WellFormed
  rooted : b.Rooted
  fresh : b.arena.Fresh m b.lastIdentity
  room : b.lastIdentity + b.arena.renamable m ≤ maxDisplayId

theorem Reduces.fresh (h : Reduces n b c) (hb : b.arena.Fresh m b.lastIdentity) :
    c.arena.Fresh m c.lastIdentity where
  le := h.lastIdentity_eq ▸ hb.le
  le_last x s hs := by
    obtain ⟨t, ht, -, hidentity⟩ := h.removes.origin x s hs
    rw [← hidentity, h.lastIdentity_eq]
    exact hb.le_last x t ht
  unique x y s t hs ht hm hst := by
    obtain ⟨s', hs', -, hsi⟩ := h.removes.origin x s hs
    obtain ⟨t', ht', -, hti⟩ := h.removes.origin y t ht
    exact hb.unique x y s' t' hs' ht' (hsi ▸ hm) (by rw [hsi, hti, hst])

/-- States that are left may still be renamed if they might before. -/
theorem Reduces.renamable_le (h : Reduces n b c) (m : Int) :
    c.arena.renamable m ≤ b.arena.renamable m := by
  rw [Arena.renamable, List.countP_congr fun x hx => ?_]
  · exact h.keeps.arena.sublist.countP_le
  · obtain ⟨s, hs⟩ := (h.wellFormed.valid.mem_live x).1 hx
    obtain ⟨t, ht, hsource, hidentity⟩ := h.removes.origin x s hs
    rw [hs, ht]
    simp only [Option.any_some, hsource, hidentity]

/-- **What only removes states** leaves an automaton ready. -/
theorem Ready.of_reduces (h : Ready m b) (hc : Reduces n b c) : Ready m c where
  wellFormed := hc.wellFormed
  rooted := h.rooted.of_reduces hc
  fresh := hc.fresh h.fresh
  room := by
    have hle := hc.renamable_le m
    have hroom := h.room
    rw [hc.lastIdentity_eq]
    omega

/-- All states but the oldest one have a source. -/
theorem Rooted.isSome_source (h : b.Rooted) (hwf : b.WellFormed)
    (hx : x ∈ b.arena.live.reverse.dropLast) (hs : b.arena.LiveAt x s) :
    s.source.isSome = true := by
  by_contra hnone
  have hi := h.sourceless x s hs (Option.not_isSome_iff_eq_none.1 hnone)
  rcases hwf.initial with ⟨hnone, -⟩ | ⟨j, rest, hj, hlive⟩
  · rw [hnone] at hi
    contradiction
  · cases hi.symm.trans hj
    have hnodup := hwf.valid.live_nodup
    rw [hlive] at hx hnodup
    rw [List.reverse_cons, List.dropLast_concat, List.mem_reverse] at hx
    exact (List.nodup_cons.1 hnodup).1 hx

/-- **Fresh display ids do not run out.** -/
theorem Ready.exists_separate (h : Ready m b) :
    ∃ last a, b.arena.separate b.lastIdentity = .ok (last, a) ∧
      Ready m { b with arena := a, lastIdentity := last } := by
  obtain ⟨last, a, ha, hfresh, hsum⟩ := (h.rooted.separable h.wellFormed).exists_separateEach
    h.fresh h.wellFormed.valid.live_nodup (fun x => List.mem_reverse.1)
    (fun x hx s hs => h.rooted.isSome_source h.wellFormed hx hs) h.room
  have hroom := h.room
  obtain ⟨⟨hwf, -⟩, -⟩ := h.wellFormed.separate
    (c := { b with arena := a, lastIdentity := last }) ha rfl rfl rfl
  exact ⟨last, a, ha, hwf, h.rooted.separate h.wellFormed ha, hfresh, by dsimp only; omega⟩

/-! ### Passes -/

theorem Ready.exists_classify (h : Ready m b) : ∃ n c, b.classify = .ok (n, c) ∧ Ready m c := by
  obtain ⟨n, c, hc, hreduces⟩ := h.wellFormed.reduces_classify
  exact ⟨n, c, hc, h.of_reduces hreduces⟩

theorem Ready.exists_mergeStates (h : Ready m b) :
    ∃ n c, b.mergeStates = .ok (n, c) ∧ Ready m c := by
  obtain ⟨n, d, hreduces, heq⟩ := h.wellFormed.mergeStates_eq
  obtain ⟨last, a, ha, hready⟩ := (h.of_reduces hreduces).exists_separate
  exact ⟨n, _, by rw [heq, ha]; rfl, hready⟩

theorem Ready.exists_minimizeRound (h : Ready m b) (refine : Bool) :
    ∃ n k c, b.minimizeRound refine = .ok (n, k, c) ∧ Ready m c := by
  have hdrop := h.of_reduces h.wellFormed.reduces_dropSubsumed
  obtain ⟨u, c, hc, hready⟩ : ∃ u c, (if refine then b.dropSubsumed.2.classify else
      .ok (0, b.dropSubsumed.2)) = .ok (u, c) ∧ Ready m c := by
    cases refine with
    | false => exact ⟨0, _, rfl, hdrop⟩
    | true => exact hdrop.exists_classify
  obtain ⟨v, d, hd, hready'⟩ := hready.exists_mergeStates
  exact ⟨_, _, d, minimizeRound_eq_ok.2 ⟨u, c, v, hc, hd, rfl, rfl⟩, hready'⟩

theorem Ready.exists_minimizeRounds (h : Ready m b) (refine : Bool) (bound : Nat)
    (stats : MinimizeStats) :
    ∃ stats' c, minimizeRounds refine bound stats b = .ok (stats', c) ∧ Ready m c := by
  induction bound generalizing b stats with
  | zero => exact ⟨stats, b, rfl, h⟩
  | succ bound ih =>
    obtain ⟨n, k, c, hc, hready⟩ := h.exists_minimizeRound refine
    rw [minimizeRounds, hc]
    dsimp only [bind_ok]
    split
    · exact ⟨_, c, rfl, hready⟩
    · exact ih hready _

theorem Ready.exists_minimize (h : Ready m b) (refine : Bool) :
    ∃ stats c, b.minimize refine = .ok (stats, c) ∧ Ready m c :=
  h.exists_minimizeRounds refine _ _

/-- **No pass fails**, and each leaves the automaton ready for the next one. -/
theorem Ready.exists_run (h : Ready m b) (p : Pass) : ∃ c, p.run b = .ok c ∧ Ready m c := by
  cases p with
  | subsumption => exact ⟨_, rfl, h.of_reduces h.wellFormed.reduces_dropSubsumed⟩
  | components =>
    obtain ⟨n, c, hc, hready⟩ := h.exists_classify
    exact ⟨c, by rw [Pass.run, hc]; rfl, hready⟩
  | merging =>
    obtain ⟨n, c, hc, hready⟩ := h.exists_mergeStates
    exact ⟨c, by rw [Pass.run, hc]; rfl, hready⟩
  | minimization refine =>
    obtain ⟨stats, c, hc, hready⟩ := h.exists_minimize refine
    exact ⟨c, by rw [Pass.run, hc]; rfl, hready⟩

/-- **No sequence of passes fails.** -/
theorem Ready.exists_runPasses (h : Ready m b) (passes : List Pass) :
    ∃ c, b.runPasses passes = .ok c ∧ Ready m c := by
  induction passes generalizing b with
  | nil => exact ⟨b, rfl, h⟩
  | cons p passes ih =>
    obtain ⟨c, hc, hready⟩ := h.exists_run p
    obtain ⟨d, hd, hready'⟩ := ih hready
    exact ⟨d, runPasses_cons.2 ⟨c, hc, hd⟩, hready'⟩

end Automaton

end OmegaAutomata
