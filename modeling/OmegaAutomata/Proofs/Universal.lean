/-
# States that accept every word

The display id `0` is kept for states that accept every word.  If this is so in the
generalized automaton, it is so in what is built, whatever the counter of a state is
(`build_honest`).  Passes keep it: a state keeps its language and its display id, or it
gets a fresh one, and these are positive (`Honest.comesUp`).

`Honest` also says that all labels satisfy a predicate, since labels are only dropped.
-/

import OmegaAutomata.Proofs.Consistency
import OmegaAutomata.Proofs.Degeneralize.Budget

namespace OmegaAutomata

namespace Automaton

variable {b c : Automaton} {P : Label → Prop} {n : Nat}

/-- Whether states with the display id that is kept for it accept every word, and all labels
satisfy `P`. -/
structure Honest (P : Label → Prop) (b : Automaton) : Prop where
  nonneg : 0 ≤ b.lastIdentity
  universal : ∀ x s, b.arena.LiveAt x s → s.identity = universalIdentity → ∀ w, b.AcceptsFrom x w
  labelled : b.arena.Labelled P

/-- **What only removes states** leaves an automaton honest. -/
theorem Honest.of_reduces (h : b.Honest P) (hb : b.WellFormed) (hc : Reduces n b c) :
    c.Honest P where
  nonneg := hc.lastIdentity_eq ▸ h.nonneg
  universal x s hs hidentity w := by
    obtain ⟨t, ht, -, hti⟩ := hc.removes.origin x s hs
    rw [hc.keeps.acceptsFrom_iff hb hc.wellFormed (Arena.isLive_iff.2 ⟨s, hs⟩)]
    exact h.universal x t ht (hti.trans hidentity) w
  labelled := hc.removes.labelled P h.labelled

/-- **Fresh display ids** are never the one that is kept. -/
theorem Honest.separate (h : b.Honest P) (hr : b.Rooted) (hb : b.WellFormed) {last : Int}
    {a : Arena} (ha : b.arena.separate b.lastIdentity = .ok (last, a)) :
    ({ b with arena := a, lastIdentity := last } : Automaton).Honest P := by
  obtain ⟨-, hle, hren⟩ := (hr.separable hb).renames ha
  obtain ⟨⟨hwf, hkeeps⟩, -⟩ := hb.separate
    (c := { b with arena := a, lastIdentity := last }) ha rfl rfl rfl
  refine ⟨Int.le_trans h.nonneg hle, fun x s hs hidentity w => ?_, fun x s hs t ht => ?_⟩
  · obtain ⟨i, hi, hsame | hfresh⟩ := hren.liveAt x s hs
    · rw [hkeeps.acceptsFrom_iff hb hwf (Arena.isLive_iff.2 ⟨s, hs⟩)]
      exact h.universal x _ hi (hsame.symm.trans hidentity) w
    · have hnonneg := h.nonneg
      rw [hidentity, universalIdentity] at hfresh
      omega
  · obtain ⟨i, hi, -⟩ := hren.liveAt x s hs
    exact h.labelled x _ hi t ht

/-- **Passes keep an automaton honest**, and the names of its propositions. -/
theorem Honest.comesUp (h : b.Honest P) (hr : b.Rooted) (hb : b.WellFormed) (hc : ComesUp b c) :
    c.Honest P ∧ c.propositions = b.propositions := by
  induction hc with
  | start => exact ⟨h, rfl⟩
  | dropSubsumed hc ih =>
    have hcb := (hb.comesUp hc).1
    exact ⟨ih.1.of_reduces hcb hcb.reduces_dropSubsumed, ih.2⟩
  | classify hc hd ih =>
    have hcb := (hb.comesUp hc).1
    obtain ⟨m, e, he, hreduces⟩ := hcb.reduces_classify
    cases hd.symm.trans he
    exact ⟨ih.1.of_reduces hcb hreduces, hreduces.propositions_eq.trans ih.2⟩
  | mergeStates hc hd ih =>
    have hcb := (hb.comesUp hc).1
    obtain ⟨e, last, a, hreduces, ha, rfl⟩ := hcb.reduces_mergeStates hd
    exact ⟨(ih.1.of_reduces hcb hreduces).separate
      ((hr.comesUp hb hc).1.of_reduces hreduces) hreduces.wellFormed ha,
      hreduces.propositions_eq.trans ih.2⟩

end Automaton

namespace Construction

open Arena

variable {g : Generalized} {a : Arena} {P : Label → Prop} {x : StateId} {s : State}

/-- The labels of a construction are those of the generalized automaton. -/
theorem Building.labelled (h : Building g none none [] a) (hpending : a.pending = [])
    (hP : ∀ q, ∀ t ∈ g.transitions q, P t.label) : a.Labelled P := by
  intro x s hs t ht
  obtain ⟨s', hs', -, hlists⟩ := h.represents hpending (h.represents_node hs)
  cases hs.unique hs'
  obtain ⟨e, he, hlabel, -⟩ := hlists.sound t ht
  obtain ⟨u, hu, rfl⟩ := List.mem_map.1 he
  obtain ⟨q, -, hu⟩ := List.mem_flatMap.1 hu
  exact hlabel ▸ hP q u hu

/-- **A state with the display id of one that accepts every word** accepts every word. -/
theorem Building.universal (h : Building g none none [] a) (hpending : a.pending = [])
    (hg : g.InRange) (huniversal : ∀ q < g.states.size, g.identity q = universalIdentity →
      ∀ w, ({ g with initial := [q] } : Generalized).Accepts w)
    (hs : a.LiveAt x s) (hidentity : s.identity = universalIdentity) (w : Word) :
    (a.system g.sets).AcceptsFrom x w := by
  rw [h.acceptsFrom_iff_of_represents hpending (h.represents_node hs)]
  have hnode := h.registered.identity x _ hs
  have hmem := h.registered.node_mem hg hs
  rw [hidentity] at hnode
  cases hn : s.node with
  | none =>
    rw [hn] at hnode
    contradiction
  | some n =>
    rw [hn] at hnode hmem
    obtain ⟨hq, hc⟩ := Finset.mem_product.1 (Finset.mem_insertNone.1 hmem n rfl)
    exact Generalized.acceptsFrom_unfolded_of_accepts
      (Nat.le_of_lt_succ (Finset.mem_range.1 hc))
      (huniversal n.1 (Finset.mem_range.1 hq) hnode.symm w)

end Construction

variable {g : Generalized} {options : Options} {b : Automaton} {stats : BuildStats}
  {P : Label → Prop}

/-- **What is built is honest** if the generalized automaton is. -/
theorem build_honest (hg : g.InRange) (huniversal : ∀ q < g.states.size,
      g.identity q = universalIdentity →
        ∀ w, ({ g with initial := [q] } : Generalized).Accepts w)
    (hP : ∀ q, ∀ t ∈ g.transitions q, P t.label) (h : build g options = .ok (b, stats)) :
    b.Honest P := by
  obtain ⟨hwf, -⟩ := build_eq_ok h
  obtain ⟨a, hbuilding, hpending, -, haccept, hlast, -, n, hn⟩ := build_eq_redirect h
  have hvalid := hbuilding.valid hpending
  obtain ⟨m, c, hc, hremoves⟩ := hvalid.removes_redirect (some 0)
  cases hn.symm.trans hc
  obtain ⟨hredirects, -⟩ := hvalid.redirect hn
  refine ⟨hlast ▸ g.maxIdentity_nonneg, fun x s hs hidentity w => ?_,
    hremoves.labelled P (hbuilding.labelled hpending hP)⟩
  obtain ⟨t, ht, -, hti⟩ := hremoves.origin x s hs
  rw [Automaton.acceptsFrom_iff hwf.tidy, haccept, (hredirects.keeps g.sets).accepts x s hs]
  exact hbuilding.universal hpending hg huniversal ht (hti.trans hidentity) w

end OmegaAutomata
