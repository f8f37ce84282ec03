/-
# The language of an automaton and of its arena

In an automaton whose live states only lead to live states, the runs are those of the
system of its arena (`acceptsFrom_iff`).
-/

import OmegaAutomata.Automaton.Language
import OmegaAutomata.Proofs.Arena.Graph

namespace OmegaAutomata

namespace Automaton

variable {b : Automaton} {id x y : StateId} {s : State} {v : IndexSet} {w : Word}

theorem liveState?_eq_some : b.liveState? id = some s ↔ b.arena.LiveAt id s := by
  unfold liveState?
  split
  · rename_i s' hs
    rw [Arena.LiveAt, hs, Option.some.injEq, Option.some.injEq]
    exact ⟨fun h => h ▸ rfl, fun h => (Slot.mk.inj h).2⟩
  · rename_i hother
    exact iff_of_false (by simp) (hother s)

/-- The state of a live id. -/
theorem state_eq_ok (h : b.liveState? id = some s) : b.state id = .ok s := by
  have hlive := liveState?_eq_some.1 h
  rw [state, if_pos (Arena.isLive_iff.2 ⟨s, hlive⟩), hlive.state_eq_ok]

theorem step_iff (h : b.arena.Tidy) :
    b.Step v x y ↔ (b.arena.system b.accept).step v x y := by
  constructor
  · rintro ⟨s, hs, t, ht, rfl, hholds⟩
    have hs := liveState?_eq_some.1 hs
    obtain ⟨u, hu⟩ := h x s hs t ht
    exact ⟨s, hs, t, ht, hu.destination?_eq, hholds⟩
  · rintro ⟨s, hs, t, ht, hdest, hholds⟩
    obtain ⟨u, hu⟩ := h x s hs t ht
    rw [hu.destination?_eq, Option.some.injEq] at hdest
    exact ⟨s, liveState?_eq_some.2 hs, t, ht, hdest, hholds⟩

theorem acceptingId_iff : b.AcceptingId x ↔ (b.arena.system b.accept).accepting x := by
  simp only [AcceptingId, liveState?_eq_some, isAccepting, beq_iff_eq, Arena.system]

/-- **The runs of a tidy automaton are those of its arena.** -/
theorem acceptsFrom_iff (h : b.arena.Tidy) :
    b.AcceptsFrom x w ↔ (b.arena.system b.accept).AcceptsFrom x w := by
  constructor
  · rintro ⟨r, hr⟩
    exact ⟨r.state, r.starts, fun i => (step_iff h).1 (r.step i),
      hr.mono fun i => acceptingId_iff.1⟩
  · rintro ⟨r, h0, hr, hio⟩
    exact ⟨⟨r, h0, fun i => (step_iff h).2 (hr i)⟩, hio.mono fun i => acceptingId_iff.2⟩

end Automaton

end OmegaAutomata
