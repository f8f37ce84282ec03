/-
# Minimization is idempotent

A minimization ends with a round that removes no state.  That round may still drop
transitions, change marks and rename states, but then it leaves an automaton at rest
(`AtRest`): its lists are pruned, no state would be merged, and no two states clash; and
if the round classified the states, they are still classified.  Pruning does not depend
on marks or display ids, nor do cycles, and matching does not depend on display ids, so
nothing that comes later in the round undoes what came before.

A round changes nothing about an automaton at rest (`AtRest.minimizeRound_eq_self`).  The
bound on the number of rounds is never what ends a minimization, because each round but
the last one removes a state (`WellFormed.exists_last_round`).
-/

import OmegaAutomata.Proofs.Arena.Rest
import OmegaAutomata.Proofs.Totality

namespace OmegaAutomata

namespace Arena

variable {a b : Arena} {k : Nat} {last : Int} {ids : List StateId} {x y : StateId} {s : State}
  {root : Option StateId}

namespace Renames

/-- Every live state is still there, with some display id. -/
theorem exists_liveAt (h : Renames last a b) (ha : a.Listed) (hb : b.Listed)
    (hs : a.LiveAt x s) : ∃ i, b.LiveAt x { s with identity := i } := by
  obtain ⟨t, ht⟩ := (hb.mem_live x).1 (h.live_eq ▸ (ha.mem_live x).2 ⟨s, hs⟩)
  obtain ⟨i, hi, -⟩ := h.liveAt x t ht
  cases hs.unique hi
  exact ⟨t.identity, ht⟩

/-- Matching does not depend on display ids. -/
theorem unmergeable (h : Renames last a b) (hids : Unmergeable k ids a) :
    Unmergeable k ids b where
  nonempty x hx s hs := by
    obtain ⟨i, hi, -⟩ := h.liveAt x s hs
    have hne := hids.nonempty x hx _ hi
    exact hne
  unmatched := hids.unmatched.imp fun hxy s t hs ht => by
    obtain ⟨i, hi, -⟩ := h.liveAt _ s hs
    obtain ⟨j, hj, -⟩ := h.liveAt _ t ht
    have hmatch := hxy _ _ hi hj
    exact hmatch

/-- Nor do edges. -/
theorem leads_iff (h : Renames last a b) (ha : a.Valid) (hb : b.Valid) (hatidy : a.Tidy)
    (hbtidy : b.Tidy) : b.Leads x y ↔ a.Leads x y := by
  rw [hatidy.leads_iff, hbtidy.leads_iff]
  constructor
  · rintro ⟨s, hs, hy⟩
    obtain ⟨i, hi, -⟩ := h.liveAt x s hs
    exact ⟨_, hi, hy⟩
  · rintro ⟨s, hs, hy⟩
    obtain ⟨i, hi⟩ := h.exists_liveAt ha.toListed hb.toListed hs
    exact ⟨_, hi, hy⟩

theorem classified (h : Renames last a b) (ha : a.Valid) (hb : b.Valid) (hatidy : a.Tidy)
    (hbtidy : b.Tidy) (hclassified : a.Classified root) : b.Classified root where
  reached x s hs := by
    obtain ⟨i, hi, -⟩ := h.liveAt x s hs
    obtain ⟨r, t, hr, ht, hrx⟩ := hclassified.reached x _ hi
    obtain ⟨j, hj⟩ := h.exists_liveAt ha.toListed hb.toListed ht
    exact ⟨r, _, hr, hj, Relation.ReflTransGen.mono
      (fun _ _ => (h.leads_iff ha hb hatidy hbtidy).2) _ _ hrx⟩
  marked x s hs := by
    obtain ⟨i, hi, -⟩ := h.liveAt x s hs
    exact (hclassified.marked x _ hi).imp id fun hm => ⟨hm.1, fun hcycle =>
      hm.2 (hcycle.mono fun _ _ => (h.leads_iff ha hb hatidy hbtidy).1)⟩

end Renames

end Arena

namespace Automaton

variable {b c d : Automaton} {n m : Nat} {refine : Bool} {stats stats' : MinimizeStats}

/-! ### Passes that change nothing -/

/-- The initial state of a well-formed automaton is live. -/
theorem WellFormed.refreshInitial_eq_self (h : b.WellFormed) : refreshInitial b = b := by
  have hinitial : b.initial.filter (fun id => b.arena.isLive id) = b.initial := by
    cases hi : b.initial with
    | none => rfl
    | some i => rw [Option.filter_some, if_pos (Arena.isLive_iff.2 (h.live_initial hi))]
  rw [refreshInitial, hinitial]

/-- **If no state would be removed**, merging only tells states apart. -/
theorem Rooted.mergeStates_of_unmergeable (h : b.Rooted) (hwf : b.WellFormed)
    (hids : Arena.Unmergeable b.accept b.arena.live.reverse b.arena) :
    b.mergeStates = (b.arena.separate b.lastIdentity).map
      fun r => (0, { b with arena := r.2, lastIdentity := r.1 }) := by
  have hclear : b.clearWithoutInitial = .ok (0, b) := by
    rw [clearWithoutInitial]
    split
    · rfl
    · rename_i hnone
      rcases hwf.initial with ⟨-, hnil⟩ | ⟨i, rest, hi, -⟩
      · rw [hnil, Arena.retireAll, List.foldlM_nil, pure_eq_ok, bind_ok,
          Arena.sweep_eq_self h.retired_eq]
        rfl
      · exact absurd (hi ▸ rfl) hnone
  rw [Automaton.mergeStates, (hwf.valid.merging b.accept).mergeEach_eq_self hids]
  dsimp only [bind_ok]
  rw [hwf.valid.redirect_eq_self hwf.tidy h.retired_eq]
  dsimp only [bind_ok]
  rw [hwf.refreshInitial_eq_self, hclear]
  dsimp only [bind_ok]
  cases b.arena.separate b.lastIdentity with
  | error e => rfl
  | ok r => rfl

/-- A merging pass that removes no state found none to remove. -/
theorem WellFormed.unmergeable (h : b.WellFormed) (hd : b.mergeStates = .ok (0, d)) :
    Arena.Unmergeable b.accept b.arena.live.reverse b.arena := by
  rw [Automaton.mergeStates] at hd
  obtain ⟨⟨merged, a₁⟩, ha₁, hd⟩ := bind_eq_ok.1 hd
  obtain ⟨⟨dead, a₂⟩, -, hd⟩ := bind_eq_ok.1 hd
  obtain ⟨⟨cleared, e⟩, -, hd⟩ := bind_eq_ok.1 hd
  obtain ⟨⟨last, a₃⟩, -, hd⟩ := bind_eq_ok.1 hd
  have hsum := congrArg Prod.fst (Except.ok.inj hd)
  obtain rfl : merged = 0 := by
    dsimp only at hsum
    omega
  exact ((h.valid.merging b.accept).mergeEach_eq_zero ha₁).2

/-- Whether subsumption and merging would change nothing. -/
structure AtRest (b : Automaton) : Prop where
  pruned : ∀ x s, b.arena.LiveAt x s → Transition.prune s.transitions = s.transitions
  unmergeable : Arena.Unmergeable b.accept b.arena.live.reverse b.arena
  distinct : b.arena.Distinct

/-- **Merging changes nothing** about an automaton at rest. -/
theorem AtRest.mergeStates_eq_self (h : b.AtRest) (hr : b.Rooted) (hwf : b.WellFormed) :
    b.mergeStates = .ok (0, b) := by
  rw [hr.mergeStates_of_unmergeable hwf h.unmergeable, Arena.separate,
    (hr.separable hwf).separateEach_of_distinct h.distinct]
  rfl

/-- A classification that would change nothing changes nothing. -/
theorem Rooted.classify_eq_self (h : b.Rooted) (hwf : b.WellFormed)
    (hclassified : b.arena.Classified b.initial) : b.classify = .ok (0, b) := by
  rw [Automaton.classify, hclassified.classify_eq_self hwf.valid hwf.tidy, bind_ok]
  dsimp only
  rw [Arena.sweep_eq_self h.retired_eq, bind_ok, pure_eq_ok, hwf.refreshInitial_eq_self]

/-- **A round changes nothing** about an automaton at rest, if it does not classify states or these
are classified. -/
theorem AtRest.minimizeRound_eq_self (h : b.AtRest) (hr : b.Rooted) (hwf : b.WellFormed)
    (hclassified : refine = true → b.arena.Classified b.initial) :
    b.minimizeRound refine = .ok (0, 0, b) := by
  have hdrop : b.dropSubsumed = (0, b) := by
    rw [Automaton.dropSubsumed, Arena.dropSubsumed_eq_self
      (fun x => (hwf.valid.mem_live x).1) h.pruned]
  refine minimizeRound_eq_ok.2 ⟨0, b, 0, ?_, h.mergeStates_eq_self hr hwf, by rw [hdrop], rfl⟩
  rw [hdrop]
  split
  · exact hr.classify_eq_self hwf (hclassified ‹_›)
  · rfl

/-- So a minimization of it ends after one round. -/
theorem AtRest.minimize_eq_self (h : b.AtRest) (hr : b.Rooted) (hwf : b.WellFormed)
    (hclassified : refine = true → b.arena.Classified b.initial) :
    b.minimize refine = .ok (⟨1, 0, 0⟩, b) := by
  rw [minimize, minimizeRounds, h.minimizeRound_eq_self hr hwf hclassified]
  rfl

/-! ### The last round -/

/-- **A round reports** how many states it removed. -/
theorem WellFormed.length_minimizeRound (h : b.WellFormed)
    (hd : b.minimizeRound refine = .ok (n, m, d)) :
    d.arena.live.length + m = b.arena.live.length := by
  obtain ⟨u, c, v, hc, hmerge, -, rfl⟩ := minimizeRound_eq_ok.1 hd
  have hdrop := h.reduces_dropSubsumed.removes.length_eq
  obtain ⟨hcwf, hclassify⟩ : c.WellFormed ∧
      c.arena.live.length + u = b.dropSubsumed.2.arena.live.length := by
    cases refine with
    | false =>
      cases hc
      exact ⟨h.dropSubsumed.1, rfl⟩
    | true =>
      obtain ⟨_, _, hc', hreduces⟩ := h.dropSubsumed.1.reduces_classify
      cases hc.symm.trans hc'
      exact ⟨hreduces.wellFormed, hreduces.removes.length_eq⟩
  obtain ⟨e, last, a, hreduces, ha, rfl⟩ := hcwf.reduces_mergeStates hmerge
  have hlive := (hreduces.wellFormed.valid.separateEach hreduces.wellFormed.tidy ha 0).2.2.2.2
  have hlength := hreduces.removes.length_eq
  rw [← hlive] at hlength
  dsimp only
  omega

/-- **The last round removes no state.**  Each of the others does, so that the bound is not reached
before. -/
theorem WellFormed.exists_last_round (h : b.WellFormed) {bound : Nat}
    (hbound : b.arena.live.length < bound)
    (hd : minimizeRounds refine bound stats b = .ok (stats', d)) :
    ∃ c n, ComesUp b c ∧ c.minimizeRound refine = .ok (n, 0, d) := by
  induction bound generalizing b stats with
  | zero => exact absurd hbound (Nat.not_lt_zero _)
  | succ bound ih =>
    rw [minimizeRounds] at hd
    obtain ⟨⟨n, m, c⟩, hc, hd⟩ := bind_eq_ok.1 hd
    dsimp only at hd
    have hround := ComesUp.start.minimizeRound hc
    split at hd
    · rename_i hm
      cases hd
      exact ⟨b, n, .start, hm ▸ hc⟩
    · have hlength := h.length_minimizeRound hc
      obtain ⟨e, n', he, hlast⟩ := ih (h.comesUp hround).1 (by omega) hd
      exact ⟨e, n', hround.trans he, hlast⟩

/-- Merging that removes no state leaves the automaton at rest, if it was pruned. -/
theorem Rooted.atRest_of_mergeStates (hr : b.Rooted) (h : b.WellFormed)
    (hpruned : ∀ x s, b.arena.LiveAt x s → Transition.prune s.transitions = s.transitions)
    (hd : b.mergeStates = .ok (0, d)) :
    d.AtRest ∧ (b.arena.Classified b.initial → d.arena.Classified d.initial) := by
  have hids := h.unmergeable hd
  have hdwf := (h.mergeStates hd).1.1
  rw [hr.mergeStates_of_unmergeable h hids] at hd
  obtain ⟨⟨last, a⟩, ha, hd⟩ := map_eq_ok.1 hd
  cases hd
  have hsep := hr.separable h
  obtain ⟨-, -, hren⟩ := hsep.renames ha
  refine ⟨⟨fun x s hs => ?_, ?_, ?_⟩, hren.classified h.valid hdwf.valid h.tidy hdwf.tidy⟩
  · obtain ⟨i, hi, -⟩ := hren.liveAt x s hs
    have hsame := hpruned x _ hi
    exact hsame
  · show Arena.Unmergeable b.accept a.live.reverse a
    rw [hren.live_eq]
    exact hren.unmergeable hids
  · exact hsep.distinct (fun x s hs => List.mem_reverse.2 ((h.valid.mem_live x).2 ⟨s, hs⟩)) ha

/-- A classification that removes no state leaves the automaton classified, and changes marks
only. -/
theorem WellFormed.classified_of_classify (h : b.WellFormed) (hc : b.classify = .ok (0, c)) :
    c.arena.Classified c.initial ∧
      ∀ x s, c.arena.LiveAt x s → ∃ r, b.arena.LiveAt x { s with recurrence := r } := by
  obtain ⟨a, ha, rfl⟩ := classify_eq_ok hc
  obtain ⟨hvalid, htidy, -⟩ := h.valid.classify h.tidy ha b.accept
  obtain ⟨hclassified, hlive⟩ := h.valid.classified_of_classify h.tidy ha
  have hswept := hclassified.sweepNow hvalid htidy
  refine ⟨⟨fun x s hs => ?_, hswept.marked⟩, fun x s hs => hlive x s (hvalid.liveAt_sweepNow.1 hs)⟩
  obtain ⟨i, t, hi, ht, hix⟩ := hswept.reached x s hs
  refine ⟨i, t, ?_, ht, hix⟩
  show b.initial.filter (fun id => a.sweepNow.isLive id) = some i
  rw [hi, Option.filter_some, if_pos (Arena.isLive_iff.2 ⟨t, ht⟩)]

/-- **A round that removes no state** leaves the automaton at rest, and classified if it classified
the states. -/
theorem Rooted.atRest (hr : b.Rooted) (h : b.WellFormed)
    (hd : b.minimizeRound refine = .ok (n, 0, d)) :
    d.AtRest ∧ (refine = true → d.arena.Classified d.initial) := by
  obtain ⟨u, c, v, hc, hmerge, -, hsum⟩ := minimizeRound_eq_ok.1 hd
  obtain ⟨rfl, rfl⟩ : u = 0 ∧ v = 0 := by omega
  have hdrop := hr.of_reduces h.reduces_dropSubsumed
  have hpruned (x : StateId) (s : State) (hs : b.dropSubsumed.2.arena.LiveAt x s) :
      Transition.prune s.transitions = s.transitions := by
    obtain ⟨t, -, rfl⟩ := (h.valid.rewires_mapTransitions Transition.prune).liveAt_iff.1 hs
    exact Transition.prune_prune t.transitions
  cases refine with
  | false =>
    cases hc
    obtain ⟨hrest, -⟩ := hdrop.atRest_of_mergeStates h.dropSubsumed.1 hpruned hmerge
    exact ⟨hrest, by simp⟩
  | true =>
    obtain ⟨_, _, hc', hreduces⟩ := h.dropSubsumed.1.reduces_classify
    cases hc.symm.trans hc'
    obtain ⟨hclassified, hlive⟩ := h.dropSubsumed.1.classified_of_classify hc
    obtain ⟨hrest, hkeeps⟩ := (hdrop.of_reduces hreduces).atRest_of_mergeStates
      hreduces.wellFormed (fun x s hs => by
        obtain ⟨r, ht⟩ := hlive x s hs
        have hsame := hpruned x _ ht
        exact hsame) hmerge
    exact ⟨hrest, fun _ => hkeeps hclassified⟩

/-- **What a minimization leaves is at rest**, and classified if it classified the states. -/
theorem Rooted.atRest_of_minimize (hr : b.Rooted) (h : b.WellFormed)
    (hd : b.minimize refine = .ok (stats, d)) :
    ComesUp b d ∧ d.AtRest ∧ (refine = true → d.arena.Classified d.initial) := by
  obtain ⟨c, n, hc, hlast⟩ := h.exists_last_round (Nat.lt_succ_self _) hd
  exact ⟨hc.minimizeRound hlast, (hr.comesUp h hc).1.atRest (h.comesUp hc).1 hlast⟩

end Automaton

variable {g : Generalized} {options : Options} {b c d : Automaton} {stats : BuildStats}
  {passes : List Automaton.Pass} {refine : Bool} {first : Automaton.MinimizeStats}

/-- **Minimization is idempotent.**  After a minimization another one of the same kind takes one
round, removes nothing and leaves the automaton as it is, and so does one without classification
after one with it. -/
theorem minimize_idempotent (h : build g options = .ok (b, stats))
    (hc : b.runPasses passes = .ok c) (hd : c.minimize refine = .ok (first, d)) :
    d.minimize refine = .ok (⟨1, 0, 0⟩, d) ∧
      (refine = true → d.minimize false = .ok (⟨1, 0, 0⟩, d)) := by
  obtain ⟨hwf, -⟩ := build_eq_ok h
  have hcomesUp := Automaton.comesUp_of_runPasses hc
  obtain ⟨hcwf, -⟩ := hwf.comesUp hcomesUp
  obtain ⟨hcr, -⟩ := (build_rooted h).comesUp hwf hcomesUp
  obtain ⟨hcd, hrest, hclassified⟩ := hcr.atRest_of_minimize hcwf hd
  obtain ⟨hdr, -⟩ := hcr.comesUp hcwf hcd
  obtain ⟨hdwf, -⟩ := hcwf.comesUp hcd
  exact ⟨hrest.minimize_eq_self hdr hdwf hclassified,
    fun _ => hrest.minimize_eq_self hdr hdwf (by simp)⟩

/-- What is built for "infinitely often `p` and infinitely often `q`" has the same minimization
twice. -/
theorem build_fair_idempotent : ∃ b stats d, build .fair ⟨false, true, true⟩ = .ok (b, stats) ∧
    b.runPasses [] = .ok b ∧ b.minimize true = .ok (⟨2, 6, 1⟩, d) ∧
      d.minimize true = .ok (⟨1, 0, 0⟩, d) ∧ d.minimize false = .ok (⟨1, 0, 0⟩, d) := by
  have hrun : (build .fair ⟨false, true, true⟩ >>= fun r => Prod.fst <$> r.1.minimize true) =
      .ok ⟨2, 6, 1⟩ := by cbv
  obtain ⟨⟨b, stats⟩, hb, hrun⟩ := bind_eq_ok.1 hrun
  obtain ⟨⟨first, d⟩, hd, rfl⟩ := map_eq_ok.1 hrun
  have hpasses : b.runPasses [] = .ok b := rfl
  obtain ⟨hsame, hplain⟩ := minimize_idempotent hb hpasses hd
  exact ⟨b, stats, d, hb, hpasses, hd, hsame, hplain rfl⟩

end OmegaAutomata
