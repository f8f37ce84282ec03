/-
# The normal form of a minimization

A minimization goes on with rounds until one removes no state (`Rounds`).  Each of the others
removes a state, so the loop ends by itself, after at most one round more than states are
removed, and the bound that the definition gives it is never what ends it
(`WellFormed.minimizeRounds_eq_ok_iff`).  Every state that is gone was counted by the round that
removed it (`Rounds.length_add`).

What is left is minimal (`Minimal`): no two live states match, no live state is without
transitions, and of two transitions of a state to the same target neither label implies the
other.  All of this is what "at rest" means, without the order in which states are visited
(`AtRest.minimal`).

The only fault that may come up is that display ids run out, and only if they do
(`Rooted.minimize_eq_error`).
-/

import OmegaAutomata.Proofs.Idempotence

namespace OmegaAutomata

/-- Matching does not depend on the order of the states. -/
theorem State.matchesIn_comm (k : Nat) (s t : State) : s.matchesIn k t = t.matchesIn k s := by
  have hsymm {s t : State} (h : s.matchesIn k t = true) : t.matchesIn k s = true := by
    obtain ⟨hmark, hts⟩ := State.matchesIn_iff.1 h
    exact State.matchesIn_iff.2 ⟨hmark.imp Iff.symm Or.symm, fun r => (hts r).symm⟩
  exact Bool.eq_iff_iff.2 ⟨hsymm, hsymm⟩

namespace Arena

variable {a : Arena} {k : Nat} {ids : List StateId} {last : Int} {x y : StateId} {s t : State}
  {f : Fault}

/-- Comparing live states never fails. -/
theorem LiveAt.statesMatch_eq (hs : a.LiveAt x s) (ht : a.LiveAt y t) (k : Nat) :
    a.statesMatch k x y = .ok (s.matchesIn k t) := by
  rw [statesMatch, hs.state_eq_ok, bind_ok, ht.state_eq_ok]
  rfl

/-- **No two states match** if none matches a later one of a list that has all of them. -/
theorem Unmergeable.matchesIn_eq_false (h : Unmergeable k ids a) (hx : x ∈ ids) (hy : y ∈ ids)
    (hxy : x ≠ y) (hs : a.LiveAt x s) (ht : a.LiveAt y t) : s.matchesIn k t = false := by
  have : Std.Symm fun x y => ∀ s t, a.LiveAt x s → a.LiveAt y t → s.matchesIn k t = false :=
    ⟨fun x y hxy s t hs ht => State.matchesIn_comm k s t ▸ hxy t s ht hs⟩
  exact h.unmatched.forall hx hy hxy s t hs ht

/-- **Fresh display ids run out** or are given to all states that need them. -/
theorem Separable.separateEach_eq_error (h : Separable ids last a)
    (hf : separateEach ids last a = .error f) : f = .identityOverflow := by
  induction ids generalizing last a with
  | nil => cases hf
  | cons id older ih =>
    rw [h.separateEach_cons] at hf
    split at hf
    · unfold nextIdentity at hf
      split at hf
      · exact ih h.rename hf
      · cases hf
        rfl
    · exact ih h.tail hf

end Arena

namespace Automaton

variable {b c d : Automaton} {n m : Nat} {refine : Bool} {stats stats' : MinimizeStats} {f : Fault}

/-! ### The loop -/

/-- A minimization as a loop without a bound, which goes on from `stats` until a round removes no
state. -/
inductive Rounds (refine : Bool) :
    MinimizeStats → Automaton → MinimizeStats → Automaton → Prop where
  | last {stats : MinimizeStats} {b c : Automaton} {n : Nat} :
      b.minimizeRound refine = .ok (n, 0, c) →
        Rounds refine stats b
          ⟨stats.rounds + 1, stats.transitionsRemoved + n, stats.statesRemoved⟩ c
  | next {stats stats' : MinimizeStats} {b c d : Automaton} {n m : Nat} :
      b.minimizeRound refine = .ok (n, m, c) → m ≠ 0 →
        Rounds refine ⟨stats.rounds + 1, stats.transitionsRemoved + n, stats.statesRemoved + m⟩ c
          stats' d → Rounds refine stats b stats' d

/-- A round leaves an automaton on which all passes may be run. -/
theorem Rooted.minimizeRound (hr : b.Rooted) (h : b.WellFormed)
    (hc : b.minimizeRound refine = .ok (n, m, c)) : c.Rooted ∧ c.WellFormed :=
  have hcomesUp := ComesUp.start.minimizeRound hc
  ⟨(hr.comesUp h hcomesUp).1, (h.comesUp hcomesUp).1⟩

/-- **The bound is never what ends a minimization**: with a bound above the number of states it is
the loop without a bound. -/
theorem WellFormed.minimizeRounds_eq_ok_iff (h : b.WellFormed) {bound : Nat}
    (hbound : b.arena.live.length < bound) :
    minimizeRounds refine bound stats b = .ok (stats', d) ↔ Rounds refine stats b stats' d := by
  induction bound generalizing b stats with
  | zero => exact absurd hbound (Nat.not_lt_zero _)
  | succ bound ih =>
    have hlater {n m : Nat} {c : Automaton} (hc : b.minimizeRound refine = .ok (n, m, c))
        (hm : m ≠ 0) {stats : MinimizeStats} :
        minimizeRounds refine bound stats c = .ok (stats', d) ↔ Rounds refine stats c stats' d := by
      have hlength := h.length_minimizeRound hc
      exact ih (h.comesUp (ComesUp.start.minimizeRound hc)).1 (by omega)
    rw [minimizeRounds]
    constructor
    · intro hd
      obtain ⟨⟨n, m, c⟩, hc, hd⟩ := bind_eq_ok.1 hd
      dsimp only at hd
      split at hd
      · rename_i hm
        cases hd
        subst hm
        exact .last hc
      · exact .next hc ‹_› ((hlater hc ‹_›).1 hd)
    · intro hrounds
      cases hrounds with
      | last hc =>
        rw [hc]
        rfl
      | next hc hm hrest =>
        rw [hc]
        dsimp only [bind_ok]
        rw [if_neg hm]
        exact (hlater hc hm).2 hrest

/-- **What the rounds report**: the states that are gone, and at most one round more. -/
theorem Rounds.length_add (hrounds : Rounds refine stats b stats' d) (h : b.WellFormed) :
    d.arena.live.length + stats'.statesRemoved = b.arena.live.length + stats.statesRemoved ∧
      stats'.rounds + stats.statesRemoved ≤ stats.rounds + stats'.statesRemoved + 1 := by
  induction hrounds with
  | last hc =>
    have hlength := h.length_minimizeRound hc
    dsimp only
    omega
  | next hc hm _ ih =>
    have hlength := h.length_minimizeRound hc
    obtain ⟨hstates, hrounds⟩ := ih (h.comesUp (ComesUp.start.minimizeRound hc)).1
    dsimp only at hstates hrounds
    omega

/-! ### Faults -/

theorem Rooted.mergeStates_eq_error (hr : b.Rooted) (h : b.WellFormed)
    (hf : b.mergeStates = .error f) : f = .identityOverflow := by
  obtain ⟨n, d, hreduces, heq⟩ := h.mergeStates_eq
  rw [heq] at hf
  cases ha : d.arena.separate d.lastIdentity with
  | ok r =>
    rw [ha] at hf
    cases hf
  | error e =>
    rw [ha] at hf
    cases hf
    exact ((hr.of_reduces hreduces).separable hreduces.wellFormed).separateEach_eq_error ha

theorem Rooted.minimizeRound_eq_error (hr : b.Rooted) (h : b.WellFormed)
    (hf : b.minimizeRound refine = .error f) : f = .identityOverflow := by
  have hdrop := hr.of_reduces h.reduces_dropSubsumed
  -- what is left to fail after the states were classified, if they are
  have hmerge {c : Automaton} {u : Nat} (hr : c.Rooted) (h : c.WellFormed)
      (hf : (c.mergeStates >>= fun r => pure (b.dropSubsumed.1, u + r.1, r.2) :
        Except Fault (Nat × Nat × Automaton)) = .error f) : f = .identityOverflow := by
    rcases bind_eq_error.1 hf with hf | ⟨r, -, hf⟩
    · exact hr.mergeStates_eq_error h hf
    · cases hf
  rw [Automaton.minimizeRound] at hf
  cases refine with
  | false => exact hmerge hdrop h.dropSubsumed.1 hf
  | true =>
    obtain ⟨u, c, hc, hreduces⟩ := h.dropSubsumed.1.reduces_classify
    dsimp only at hf
    rw [if_pos rfl, hc] at hf
    exact hmerge (hdrop.of_reduces hreduces) hreduces.wellFormed hf

theorem Rooted.minimizeRounds_eq_error (hr : b.Rooted) (h : b.WellFormed) {bound : Nat}
    (hf : minimizeRounds refine bound stats b = .error f) : f = .identityOverflow := by
  induction bound generalizing b stats with
  | zero => cases hf
  | succ bound ih =>
    rw [minimizeRounds] at hf
    rcases bind_eq_error.1 hf with hf | ⟨⟨n, m, c⟩, hc, hf⟩
    · exact hr.minimizeRound_eq_error h hf
    · dsimp only at hf
      split at hf
      · cases hf
      · obtain ⟨hcr, hcwf⟩ := hr.minimizeRound h hc
        exact ih hcr hcwf hf

/-- What is between two passes is ready for more if there is a display id for every state. -/
theorem Rooted.ready (hr : b.Rooted) (h : b.WellFormed)
    (hroom : b.lastIdentity + b.arena.live.length ≤ maxDisplayId) : b.Ready b.lastIdentity where
  wellFormed := h
  rooted := hr
  fresh := ⟨Int.le_refl _, hr.le_last, fun x y s t hs _ hm => absurd hm (by
    have hle := hr.le_last x s hs
    omega)⟩
  room := by
    have hle : b.arena.renamable b.lastIdentity ≤ b.arena.live.length := List.countP_le_length
    omega

/-- **A minimization fails only if display ids run out.** -/
theorem Rooted.minimize_eq_error (hr : b.Rooted) (h : b.WellFormed)
    (hf : b.minimize refine = .error f) :
    f = .identityOverflow ∧ maxDisplayId < b.lastIdentity + b.arena.live.length := by
  refine ⟨hr.minimizeRounds_eq_error h hf, ?_⟩
  by_contra hroom
  obtain ⟨stats, d, hd, -⟩ := (hr.ready h (Int.not_lt.1 hroom)).exists_minimize refine
  cases hf.symm.trans hd

/-! ### The normal form -/

/-- Whether a minimization has nothing left to do about states and transitions: no two live states
match, each has a transition, and no label implies that of another transition of the same state to
the same target. -/
structure Minimal (b : Automaton) : Prop where
  unmatched : ∀ x y, b.arena.isLive x = true → b.arena.isLive y = true → x ≠ y →
    b.arena.statesMatch b.accept x y = .ok false
  nonempty : ∀ x s, b.liveState? x = some s → s.transitions ≠ []
  unsubsumed : ∀ x s, b.liveState? x = some s → ∀ (i j : Nat) (t u : Transition), i ≠ j →
    s.transitions[i]? = some t → s.transitions[j]? = some u → t.target = u.target →
      t.label.implies u.label = false

/-- **An automaton at rest is minimal.** -/
theorem AtRest.minimal (h : b.AtRest) (hwf : b.WellFormed) : b.Minimal where
  unmatched x y hx hy hxy := by
    obtain ⟨s, hs⟩ := Arena.isLive_iff.1 hx
    obtain ⟨t, ht⟩ := Arena.isLive_iff.1 hy
    have hmem {x : StateId} {s : State} (hs : b.arena.LiveAt x s) : x ∈ b.arena.live.reverse :=
      List.mem_reverse.2 ((hwf.valid.mem_live x).2 ⟨s, hs⟩)
    rw [hs.statesMatch_eq ht, h.unmergeable.matchesIn_eq_false (hmem hs) (hmem ht) hxy hs ht]
  nonempty x s hs :=
    have hlive := liveState?_eq_some.1 hs
    h.unmergeable.nonempty x (List.mem_reverse.2 ((hwf.valid.mem_live x).2 ⟨s, hlive⟩)) s hlive
  unsubsumed x s hs i j t u hij ht hu htarget := by
    have hpairwise := Transition.pairwise_prune s.transitions
    rw [h.pruned x s (liveState?_eq_some.1 hs)] at hpairwise
    obtain ⟨hi, rfl⟩ := List.getElem?_eq_some_iff.1 ht
    obtain ⟨hj, rfl⟩ := List.getElem?_eq_some_iff.1 hu
    rw [List.pairwise_iff_getElem] at hpairwise
    have hnot : s.transitions[i].subsumedBy s.transitions[j] = false := by
      rcases Nat.lt_or_gt_of_ne hij with hlt | hlt
      · exact (hpairwise i j hi hj hlt).1
      · exact (hpairwise j i hj hi hlt).2
    refine Bool.eq_false_iff.2 fun himplies => ?_
    rw [Transition.subsumedBy_iff.2 ⟨htarget, himplies⟩] at hnot
    contradiction

end Automaton

variable {g : Generalized} {options : Options} {b c : Automaton} {stats : BuildStats}
  {passes : List Automaton.Pass}

/-- **What a minimization guarantees.**  After any passes on what was built it ends by itself,
unless display ids run out.  Then it has reported all states that are gone and has taken at most
one round more than that, what is left is minimal, and if it classified states, none is left
unclassified. -/
theorem minimal_of_minimize (h : build g options = .ok (b, stats))
    (hc : b.runPasses passes = .ok c) (refine : Bool) :
    c.minimize refine = .error .identityOverflow ∧
        maxDisplayId < c.lastIdentity + c.arena.live.length ∨
      ∃ s d, c.minimize refine = .ok (s, d) ∧ Automaton.Rounds refine ⟨0, 0, 0⟩ c s d ∧
        d.arena.live.length + s.statesRemoved = c.arena.live.length ∧
          s.rounds ≤ s.statesRemoved + 1 ∧ d.Minimal ∧
            (refine = true → ∀ x t, d.liveState? x = some t → t.recurrence ≠ .unknown) := by
  obtain ⟨hwf, -⟩ := build_eq_ok h
  have hcomesUp := Automaton.comesUp_of_runPasses hc
  obtain ⟨hcwf, -⟩ := hwf.comesUp hcomesUp
  obtain ⟨hcr, -⟩ := (build_rooted h).comesUp hwf hcomesUp
  cases hd : c.minimize refine with
  | error f =>
    obtain ⟨rfl, hroom⟩ := hcr.minimize_eq_error hcwf hd
    exact .inl ⟨rfl, hroom⟩
  | ok r =>
    obtain ⟨s, d⟩ := r
    have hrounds := (hcwf.minimizeRounds_eq_ok_iff (Nat.lt_succ_self _)).1 hd
    obtain ⟨hlength, hcount⟩ := hrounds.length_add hcwf
    obtain ⟨hdc, hrest, hclassified⟩ := hcr.atRest_of_minimize hcwf hd
    refine .inr ⟨s, d, rfl, hrounds, hlength, ?_, hrest.minimal (hcwf.comesUp hdc).1,
      fun hrefine x t ht hunknown => ?_⟩
    · dsimp only at hcount
      omega
    · have hmarked := (hclassified hrefine).marked x t (Automaton.liveState?_eq_some.1 ht)
      rw [hunknown] at hmarked
      simp at hmarked

/-- Of the five states that are built for "infinitely often `p` and infinitely often `q`" a
minimization leaves four. -/
theorem build_fair_minimal : ∃ b stats s d, build .fair ⟨false, true, true⟩ = .ok (b, stats) ∧
    b.runPasses [] = .ok b ∧ b.minimize true = .ok (s, d) ∧
      d.arena.live.length + s.statesRemoved = 5 ∧ s.statesRemoved = 1 ∧ s.rounds ≤ 2 ∧
        d.Minimal := by
  have hrun : (build .fair ⟨false, true, true⟩ >>= fun r =>
      (fun m => (r.1.arena.live.length, m.1.statesRemoved)) <$> r.1.minimize true) =
      .ok (5, 1) := by cbv
  obtain ⟨⟨b, stats⟩, hb, hrun⟩ := bind_eq_ok.1 hrun
  obtain ⟨⟨s, d⟩, hd, hrun⟩ := map_eq_ok.1 hrun
  obtain ⟨hlive, hremoved⟩ := Prod.mk.inj hrun
  have htwo : s.statesRemoved + 1 = 2 := congrArg (· + 1) hremoved
  have hpasses : b.runPasses [] = .ok b := rfl
  rcases minimal_of_minimize hb hpasses true with
    ⟨hfail, -⟩ | ⟨_, _, hd', -, hlength, hrounds, hmin, -⟩
  · cases hd.symm.trans hfail
  · cases hd.symm.trans hd'
    exact ⟨b, stats, s, d, hb, hpasses, hd, hlength.trans hlive, hremoved,
      htwo ▸ hrounds, hmin⟩

end OmegaAutomata
