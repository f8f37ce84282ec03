/-
# Passes with a log

Display ids change only when merging tells states apart.  The logged passes do the same as the
passes and return the renamings with their results (`runPassesLogged_snd`).

A built automaton shows no display id above its largest one, so the numbers above it tell which
states were renamed.  `Tracked` says what the log of any passes knows: nothing that removes states
matters to it (`Tracked.of_reduces`), and telling states apart keeps it
(`Arena.Separable.tracks`), so all passes do (`Tracked.runPasses`).  Two states can clash after
merging but not after states were told apart.
-/

import OmegaAutomata.Proofs.Automaton.Totality

namespace OmegaAutomata

open Arena (Renaming)

namespace Automaton

variable {b c d : Automaton} {log new : List Renaming} {n m bound : Nat} {refine : Bool} {p : Pass}
  {passes : List Pass} {stats stats' : MinimizeStats}

/-! ### Logs -/

/-- `mergeStates`, with the renamings in order. -/
def mergeStatesLogged (b : Automaton) : Except Fault (List Renaming × Nat × Automaton) := do
  let (n, b) ← b.condense
  let (log, lastIdentity, arena) ← b.arena.separateLogged b.lastIdentity
  pure (log, n, { b with arena, lastIdentity })

/-- `minimizeRound`, with the renamings in order. -/
def minimizeRoundLogged (refine : Bool) (b : Automaton) :
    Except Fault (List Renaming × Nat × Nat × Automaton) := do
  let (dropped, b) := b.dropSubsumed
  let (unreached, b) ← if refine then b.classify else pure (0, b)
  let (log, merged, b) ← b.mergeStatesLogged
  pure (log, dropped, unreached + merged, b)

/-- `minimizeRounds`, with the renamings in order. -/
def minimizeRoundsLogged (refine : Bool) : (bound : Nat) → MinimizeStats → Automaton →
    Except Fault (List Renaming × MinimizeStats × Automaton)
  | 0, stats, b => pure ([], stats, b)
  | bound + 1, stats, b => do
    let (new, dropped, gone, b) ← b.minimizeRoundLogged refine
    let stats := ⟨stats.rounds + 1, stats.transitionsRemoved + dropped, stats.statesRemoved + gone⟩
    if gone = 0 then pure (new, stats, b)
    else do
      let (log, r) ← minimizeRoundsLogged refine bound stats b
      pure (new ++ log, r)

/-- `Pass.run`, with the renamings in order. -/
def Pass.runLogged (b : Automaton) : Pass → Except Fault (List Renaming × Automaton)
  | .subsumption => pure ([], b.dropSubsumed.2)
  | .components => do pure ([], (← b.classify).2)
  | .merging => do
    let (log, _, b) ← b.mergeStatesLogged
    pure (log, b)
  | .minimization refine => do
    let (log, _, b) ← minimizeRoundsLogged refine (b.arena.live.length + 1) ⟨0, 0, 0⟩ b
    pure (log, b)

/-- `runPasses`, with the renamings in order. -/
def runPassesLogged (b : Automaton) : List Pass → Except Fault (List Renaming × Automaton)
  | [] => pure ([], b)
  | p :: passes => do
    let (new, b) ← p.runLogged b
    let (log, b) ← runPassesLogged b passes
    pure (new ++ log, b)

theorem mergeStatesLogged_snd (b : Automaton) :
    Prod.snd <$> b.mergeStatesLogged = b.mergeStates := by
  simp only [mergeStatesLogged, mergeStates_eq_condense, ← Arena.separateLogged_snd, map_bind,
    map_pure, bind_map_left]

theorem minimizeRoundLogged_snd (refine : Bool) (b : Automaton) :
    Prod.snd <$> b.minimizeRoundLogged refine = b.minimizeRound refine := by
  cases refine with
  | false =>
    simp only [minimizeRoundLogged, minimizeRound, ← mergeStatesLogged_snd, map_bind, map_pure,
      bind_map_left, Bool.false_eq_true, if_false]
  | true =>
    simp only [minimizeRoundLogged, minimizeRound, ← mergeStatesLogged_snd, map_bind, map_pure,
      bind_map_left, if_true]

theorem minimizeRoundsLogged_snd (refine : Bool) (bound : Nat) (stats : MinimizeStats)
    (b : Automaton) : Prod.snd <$> minimizeRoundsLogged refine bound stats b =
      minimizeRounds refine bound stats b := by
  induction bound generalizing stats b with
  | zero => rfl
  | succ bound ih =>
    simp only [minimizeRoundsLogged, minimizeRounds, ← minimizeRoundLogged_snd, ← ih, map_bind,
      map_pure, bind_map_left, apply_ite, bind_pure_comp, Functor.map_map]

theorem Pass.runLogged_snd (b : Automaton) (p : Pass) : Prod.snd <$> p.runLogged b = p.run b := by
  cases p with
  | subsumption => rfl
  | components => simp only [runLogged, run, map_bind, map_pure]
  | merging =>
    simp only [runLogged, run, ← mergeStatesLogged_snd, map_bind, map_pure, bind_map_left]
  | minimization refine =>
    simp only [runLogged, run, minimize, ← minimizeRoundsLogged_snd, map_bind, map_pure,
      bind_map_left]

/-- **Logged passes do what passes do.** -/
theorem runPassesLogged_snd (b : Automaton) (passes : List Pass) :
    Prod.snd <$> b.runPassesLogged passes = b.runPasses passes := by
  induction passes generalizing b with
  | nil => rfl
  | cons p passes ih =>
    have hcons : b.runPasses (p :: passes) = p.run b >>= fun c => c.runPasses passes := by
      rw [runPasses, List.foldlM_cons]
      rfl
    simp only [hcons, runPassesLogged, ← ih, ← p.runLogged_snd, map_bind, bind_map_left,
      bind_pure_comp, Functor.map_map]

/-! ### What the log knows -/

/-- What is known of the renamings between `b` and what comes up after it. -/
structure Tracked (b : Automaton) (log : List Renaming) (c : Automaton) : Prop where
  wellFormed : c.WellFormed
  rooted : c.Rooted
  tracks : b.arena.Tracks b.lastIdentity log c.lastIdentity c.arena
  initial : ∀ i, c.initial = some i → b.initial = some i

/-- At first nothing was renamed. -/
theorem Rooted.tracked (h : b.Rooted) (hwf : b.WellFormed) : Tracked b [] b :=
  ⟨hwf, h, .refl _ _, fun _ hi => hi⟩

/-- **What only removes states** is not in the log. -/
theorem Tracked.of_reduces (h : Tracked b log c) (hd : Reduces n c d) : Tracked b log d where
  wellFormed := hd.wellFormed
  rooted := h.rooted.of_reduces hd
  tracks :=
    { nodup := h.tracks.nodup
      after_eq := h.tracks.after_eq
      last_eq := hd.lastIdentity_eq.trans h.tracks.last_eq
      before := h.tracks.before
      shown := fun x s hs => by
        obtain ⟨t, ht, hsource, hidentity⟩ := hd.removes.origin x s hs
        obtain ⟨u, hu, hshown⟩ := h.tracks.shown x t ht
        exact ⟨u, hu, by rwa [← hsource, ← hidentity]⟩ }
  initial i hi := h.initial i (hd.initial i hi)

/-- **Telling states apart** is, and then no two states clash. -/
theorem Tracked.mergeStates (hb : b.Rooted) (h : Tracked b log c)
    (hd : c.mergeStatesLogged = .ok (new, n, d)) :
    Tracked b (log ++ new) d ∧ d.arena.Distinct := by
  obtain ⟨⟨m, e⟩, he, hd⟩ := bind_eq_ok.1 hd
  obtain ⟨⟨_, last, a⟩, ha, hd⟩ := bind_eq_ok.1 hd
  cases hd
  obtain ⟨_, _, he', hreduces⟩ := h.wellFormed.reduces_condense
  cases he.symm.trans he'
  have hkept := h.of_reduces hreduces
  have hsep := hkept.rooted.separable hkept.wellFormed
  have hsnd : e.arena.separate e.lastIdentity = .ok (last, a) := by
    rw [← Arena.separateLogged_snd, ha]
    rfl
  obtain ⟨⟨hwf, -⟩, -⟩ := hkept.wellFormed.separate
    (c := { e with arena := a, lastIdentity := last }) hsnd rfl rfl rfl
  exact ⟨⟨hwf, hkept.rooted.separate hkept.wellFormed hsnd, hsep.tracks hkept.tracks hb.le_last
    (fun x hx s hs => hkept.rooted.isSome_source hkept.wellFormed hx hs) ha, hkept.initial⟩,
    hsep.distinct (fun x s hs => List.mem_reverse.2 ((hkept.wellFormed.valid.mem_live x).2 ⟨s, hs⟩))
      hsnd⟩

theorem Tracked.classify (h : Tracked b log c) (hd : c.classify = .ok (n, d)) : Tracked b log d := by
  obtain ⟨_, _, hd', hreduces⟩ := h.wellFormed.reduces_classify
  cases hd.symm.trans hd'
  exact h.of_reduces hreduces

theorem Tracked.minimizeRound (hb : b.Rooted) (h : Tracked b log c)
    (hd : c.minimizeRoundLogged refine = .ok (new, n, m, d)) :
    Tracked b (log ++ new) d ∧ d.arena.Distinct := by
  have hdrop := h.of_reduces h.wellFormed.reduces_dropSubsumed
  cases refine with
  | false =>
    simp only [minimizeRoundLogged, Bool.false_eq_true, if_false, pure_bind] at hd
    obtain ⟨⟨_, v, f⟩, hf, hd⟩ := bind_eq_ok.1 hd
    cases hd
    exact hdrop.mergeStates hb hf
  | true =>
    obtain ⟨⟨u, e⟩, he, hd⟩ := bind_eq_ok.1 hd
    obtain ⟨⟨_, v, f⟩, hf, hd⟩ := bind_eq_ok.1 hd
    cases hd
    exact (hdrop.classify he).mergeStates hb hf

/-- The states are told apart at the end of a minimization, as there is at least one round. -/
theorem Tracked.minimizeRounds (hb : b.Rooted) (h : Tracked b log c)
    (hdistinct : bound = 0 → c.arena.Distinct)
    (hd : minimizeRoundsLogged refine bound stats c = .ok (new, stats', d)) :
    Tracked b (log ++ new) d ∧ d.arena.Distinct := by
  induction bound generalizing log new c stats with
  | zero =>
    cases hd
    rw [List.append_nil]
    exact ⟨h, hdistinct rfl⟩
  | succ bound ih =>
    rw [minimizeRoundsLogged] at hd
    obtain ⟨⟨round, dropped, gone, e⟩, he, hd⟩ := bind_eq_ok.1 hd
    obtain ⟨htracked, hround⟩ := h.minimizeRound hb he
    dsimp only at hd
    split at hd
    · cases hd
      exact ⟨htracked, hround⟩
    · obtain ⟨⟨rest, r⟩, hr, hd⟩ := bind_eq_ok.1 hd
      cases hd
      rw [← List.append_assoc]
      exact ih htracked (fun _ => hround) hr

/-- Whether a pass ends by telling states apart. -/
def Pass.Separates (p : Pass) : Prop :=
  p = .merging ∨ ∃ refine, p = .minimization refine

/-- **The log of a pass** goes on with what was known before. -/
theorem Tracked.run (hb : b.Rooted) (h : Tracked b log c) (hd : p.runLogged c = .ok (new, d)) :
    Tracked b (log ++ new) d ∧ (p.Separates → d.arena.Distinct) := by
  cases p with
  | subsumption =>
    cases hd
    rw [List.append_nil]
    exact ⟨h.of_reduces h.wellFormed.reduces_dropSubsumed, by simp [Pass.Separates]⟩
  | components =>
    obtain ⟨⟨n, e⟩, he, hd⟩ := bind_eq_ok.1 hd
    cases hd
    rw [List.append_nil]
    exact ⟨h.classify he, by simp [Pass.Separates]⟩
  | merging =>
    obtain ⟨⟨_, n, e⟩, he, hd⟩ := bind_eq_ok.1 hd
    cases hd
    exact (h.mergeStates hb he).imp id fun hdistinct _ => hdistinct
  | minimization refine =>
    obtain ⟨⟨_, stats, e⟩, he, hd⟩ := bind_eq_ok.1 hd
    cases hd
    exact (h.minimizeRounds hb (by simp) he).imp id fun hdistinct _ => hdistinct

/-- **So does that of any passes.** -/
theorem Tracked.runPasses (hb : b.Rooted) (h : Tracked b log c)
    (hd : c.runPassesLogged passes = .ok (new, d)) : Tracked b (log ++ new) d ∧
      ∀ p, passes.getLast? = some p → p.Separates → d.arena.Distinct := by
  induction passes generalizing log new c with
  | nil =>
    cases hd
    rw [List.append_nil]
    exact ⟨h, fun p hp => by simp at hp⟩
  | cons p passes ih =>
    obtain ⟨⟨first, e⟩, he, hd⟩ := bind_eq_ok.1 hd
    obtain ⟨⟨rest, f⟩, hf, hd⟩ := bind_eq_ok.1 hd
    cases hd
    obtain ⟨htracked, hdistinct⟩ := h.run hb he
    obtain ⟨hend, hlast⟩ := ih htracked hf
    rw [← List.append_assoc]
    refine ⟨hend, fun q hq => ?_⟩
    cases passes with
    | nil =>
      cases hf
      rw [List.getLast?_singleton, Option.some.injEq] at hq
      exact hq ▸ hdistinct
    | cons q' passes =>
      rw [List.getLast?_cons_cons] at hq
      exact hlast q hq

/-- **Passes that do not fail have a log**, and it is known what it says. -/
theorem Rooted.exists_tracked (h : b.Rooted) (hwf : b.WellFormed)
    (hc : b.runPasses passes = .ok c) :
    ∃ log, b.runPassesLogged passes = .ok (log, c) ∧ Tracked b log c ∧
      ∀ p, passes.getLast? = some p → p.Separates → c.arena.Distinct := by
  rw [← runPassesLogged_snd] at hc
  obtain ⟨⟨log, d⟩, hlog, hd⟩ := map_eq_ok.1 hc
  cases hd
  exact ⟨log, hlog, (h.tracked hwf).runPasses h hlog⟩

end Automaton

end OmegaAutomata
