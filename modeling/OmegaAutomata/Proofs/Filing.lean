/-
# The table of pairs after passes

A construction files each state under its pair, so what is built has an exact table
(`build_keyed`).  Passes may spoil it: a merging may have a state take over the counter of another
one and does not file it anew.  Then two states may have the same pair, and an entry may lead to a
state that was freed (`filed_overwriting`).

What is left of the table says for which pair each state was built, and that no state was lost
(`filed_of_build`).  It is exact if no merging on the way overwrites a counter by a different one,
and so it always is without acceptance sets.
-/

import OmegaAutomata.Proofs.Automaton.Parts
import OmegaAutomata.Proofs.DisplayIds

namespace OmegaAutomata

open Automaton (Pass)

variable {g : Generalized} {options : Options} {b c d : Automaton} {stats : BuildStats}
  {passes before : List Pass}

/-- **During a construction** the table is exact. -/
theorem Arena.Registered.keyed {a : Arena} (h : a.Registered g) : a.Keyed := by
  refine fun n x => ⟨fun hn => ?_, fun hn => ?_⟩
  · obtain ⟨l, hl, hnode⟩ := h.node n x hn
    rw [nodeOf_eq hl, hnode]
  · obtain ⟨l, hl, hnode⟩ := Option.bind_eq_some_iff.1 hn
    have hbuilt := h.built x l hl
    rwa [hnode] at hbuilt

/-- **What is built has an exact table**: the states that died at the end took their entries with
them. -/
theorem build_keyed (h : build g options = .ok (b, stats)) : b.arena.Keyed := by
  obtain ⟨p, hbuilding, -, -, -, -, -, n, hn⟩ := build_eq_redirect h
  exact Arena.persists_keyed.redirect hbuilding.registered.keyed hn

/-- Without acceptance sets no merging recounts. -/
theorem not_recounts_of_build (h : build g options = .ok (b, stats)) (hsets : g.sets = 0)
    (hd : b.runPasses before = .ok d) : ¬d.Recounts := by
  obtain ⟨hwf, haccept, -⟩ := build_eq_ok h
  have hup := Automaton.comesUp_of_runPasses hd
  obtain ⟨hdwf, hkeeps⟩ := hwf.comesUp hup
  exact ((build_rooted h).comesUp hwf hup).1.not_recounts hdwf
    (hkeeps.accept_eq.trans (haccept.trans hsets))

/-- **What the table says after passes.**  It is exact before the first one.  After any passes each
state that is left is filed under the pair that it was built for, and has the source of this pair,
and no entry is under another pair.  The table is exact if and only if each of its entries leads to
a state that still has the counter of the entry.  Resolving a pair creates a state if there is no
entry, gives the state of the entry, which has the source of the pair, or fails, which it only does
if the state of the entry was freed.

If no merging on the way overwrites a counter by a different one then the table is exact, and
resolving a pair always gives a state of this source and this counter. -/
theorem filed_of_build (h : build g options = .ok (b, stats)) (hc : b.runPasses passes = .ok c) :
    b.arena.Keyed ∧ c.arena.Filed b.arena.nodeOf ∧
    (c.arena.Keyed ↔ ∀ (n : Nat × Nat) x, c.arena.keys[n]? = some x →
      ∃ l, c.arena.slot? x = some l ∧ l.state.counter = n.2) ∧
    (∀ q i k,
      (c.arena.keys[(q, k)]? = none ∧ c.arena.resolve q i k = .ok (c.arena.addPending q i k)) ∨
      (∃ x l, b.arena.nodeOf x = some (q, k) ∧ c.arena.slot? x = some l ∧
        l.state.source = some q ∧ c.arena.resolve q i k = .ok (x, c.arena)) ∨
      ∃ x, c.arena.keys[(q, k)]? = some x ∧ c.arena.slot? x = none ∧
        c.arena.resolve q i k = .error (.freed x)) ∧
    ((∀ before after d, b.parts passes = before ++ .merging :: after →
        b.runPasses before = .ok d → ¬d.Recounts) →
      c.arena.Keyed ∧ ∀ q i k, ∃ x a l, c.arena.resolve q i k = .ok (x, a) ∧
        a.slot? x = some l ∧ l.state.source = some q ∧ l.state.counter = k) := by
  obtain ⟨hwf, -⟩ := build_eq_ok h
  have hkeyed := build_keyed h
  have hup := Automaton.comesUp_of_runPasses hc
  have hfiled := hkeyed.filed.comesUp hwf hup
  have hretired := ((consistent_of_build h).2 c hup).1.retired.2
  refine ⟨hkeyed, hfiled, hfiled.keyed_iff, hfiled.resolve hretired, fun hrecount => ?_⟩
  obtain ⟨hparts, hnone⟩ := Automaton.runPasses_parts hc
  have htolerates (before after : List Pass) (d : Automaton)
      (heq : b.parts passes = before ++ .merging :: after) (hd : b.runPasses before = .ok d) :
      Automaton.Tolerates Arena.Keyed d :=
    Automaton.tolerates_of_not_recounts (hrecount before after d heq hd)
  have hexact : c.arena.Keyed :=
    Arena.persists_keyed.runPasses hwf hkeyed hnone htolerates hparts
  exact ⟨hexact, hexact.resolve hretired⟩

/-- The table of the automaton with two states that show the same display id is still exact after
it was merged and minimized. -/
theorem filed_twins : ∃ b stats c, build .twins ⟨true, true, true⟩ = .ok (b, stats) ∧
    b.runPasses [.merging, .minimization true] = .ok c ∧ c.arena.Keyed ∧
      ∀ q i k, ∃ x a l, c.arena.resolve q i k = .ok (x, a) ∧ a.slot? x = some l ∧
        l.state.source = some q ∧ l.state.counter = k := by
  have hrun : (build .twins ⟨true, true, true⟩ >>= fun r =>
      Automaton.lastIdentity <$> r.1.runPasses [.merging, .minimization true]) = .ok 3 := by cbv
  obtain ⟨⟨b, stats⟩, hb, hrun⟩ := bind_eq_ok.1 hrun
  obtain ⟨c, hc, -⟩ := map_eq_ok.1 hrun
  obtain ⟨-, -, -, -, hexact⟩ := filed_of_build hb hc
  have hkept := hexact fun _ _ _ _ hd => not_recounts_of_build hb rfl hd
  exact ⟨b, stats, c, hb, hc, hkept.1, hkept.2⟩

/-- **A merging may spoil the table.**  Here it leaves two live states for source 2 and counter 0,
of which only one can be found, and the entry for source 3 and counter 1 leads to a state that was
freed, so resolving this pair fails. -/
theorem filed_overwriting : ∃ b stats c, build .overwriting ⟨false, true, true⟩ = .ok (b, stats) ∧
    b.runPasses [.components, .merging] = .ok c ∧
      c.arena.isLive 2 = true ∧ c.arena.nodeOf 2 = some (2, 0) ∧
      c.arena.isLive 4 = true ∧ c.arena.nodeOf 4 = some (2, 0) ∧ ¬c.arena.Keyed ∧
      c.arena.resolve 3 4 1 = .error (.freed 3) := by
  have hrun : (build .overwriting ⟨false, true, true⟩ >>= fun r =>
      (fun c => (c.arena.isLive 2, c.arena.nodeOf 2, c.arena.isLive 4, c.arena.nodeOf 4,
        (c.arena.resolve 3 4 1).map Prod.fst)) <$> r.1.runPasses [.components, .merging]) =
      .ok (true, some (2, 0), true, some (2, 0), .error (.freed 3)) := by cbv
  obtain ⟨⟨b, stats⟩, hb, hrun⟩ := bind_eq_ok.1 hrun
  obtain ⟨c, hc, hrun⟩ := map_eq_ok.1 hrun
  simp only [Prod.mk.injEq] at hrun
  obtain ⟨hlive₂, hnode₂, hlive₄, hnode₄, hresolve⟩ := hrun
  refine ⟨b, stats, c, hb, hc, hlive₂, hnode₂, hlive₄, hnode₄, fun hkeyed => ?_, ?_⟩
  · have hfound₂ := (hkeyed _ _).2 hnode₂
    have hfound₄ := (hkeyed _ _).2 hnode₄
    rw [hfound₂] at hfound₄
    contradiction
  · cases heq : c.arena.resolve 3 4 1 with
    | error e =>
      rw [heq] at hresolve
      cases hresolve
      rfl
    | ok r =>
      rw [heq] at hresolve
      contradiction

end OmegaAutomata
