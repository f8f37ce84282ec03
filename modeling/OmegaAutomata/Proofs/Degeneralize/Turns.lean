/-
# Constructions turn by turn

After the initial state has got its transitions, a construction takes one pending state after
another; a turn deals with one of them (`Turn`).  A state that is taken is always led to, so no turn
frees it (`Building.turn`).

The exploration is made of turns and ends when no state is left (`explore_turns`).
-/

import OmegaAutomata.Proofs.Degeneralize.Exploration

namespace OmegaAutomata

open Arena

namespace Construction

variable {g : Generalized} {id : StateId} {n : Nat} {onTheFly : Bool} {p q result : Progress}

/-- One turn of a construction: the latest pending state is taken and dealt with. -/
def Turn (g : Generalized) (onTheFly : Bool) (p q : Progress) : Prop :=
  ∃ id a, p.arena.popPending = some (id, a) ∧ visit g onTheFly ⟨a, p.stats⟩ id = .ok q

/-! ### One turn -/

/-- **A turn keeps what holds** between two turns, and frees no state. -/
theorem Building.turn (h : Building g none none [] p.arena) (hpq : Turn g onTheFly p q) :
    Building g none none [] q.arena ∧ q.stats.unexplored = p.stats.unexplored := by
  obtain ⟨id, a, hpop, hq⟩ := hpq
  obtain ⟨ha, ⟨s, hs, hincoming⟩, -⟩ := h.popPending hpop
  obtain ⟨hbuilding, -⟩ := Building.visit (p := ⟨a, p.stats⟩) ha hs hincoming hq
  obtain ⟨r, b, -, hb, hsettle⟩ := visit_eq_ok (p := ⟨a, p.stats⟩) hs hincoming hq
  obtain ⟨hadded, hextends⟩ := ha.addMoves hb
  obtain ⟨⟨_, t⟩, ht, rfl, -⟩ := hextends.slot id _ hs
  have hpooled : b.Pooled := hadded.registered.toListed.pooled
  exact ⟨hbuilding, (settle_eq_ok (p := ⟨b, p.stats⟩) hpooled ht hsettle).1⟩

/-! ### All turns -/

/-- **Any number of turns** keep what holds between two of them, and free no state. -/
theorem Building.turns (h : Building g none none [] p.arena)
    (hpq : Relation.ReflTransGen (Turn g onTheFly) p q) :
    Building g none none [] q.arena ∧ q.stats.unexplored = p.stats.unexplored := by
  induction hpq with
  | refl => exact ⟨h, rfl⟩
  | tail _ hstep ih =>
    obtain ⟨hbuilding, hstats⟩ := ih.1.turn hstep
    exact ⟨hbuilding, hstats.trans ih.2⟩

theorem drain_turns (hr : drain g onTheFly n p = .ok result) :
    Relation.ReflTransGen (Turn g onTheFly) p result := by
  induction n generalizing p with
  | zero =>
    cases hr
    exact .refl
  | succ n ih =>
    unfold drain at hr
    split at hr
    · cases hr
      exact .refl
    · rename_i id a hpop
      obtain ⟨q, hq, hr⟩ := bind_eq_ok.1 hr
      exact .head ⟨id, a, hpop, hq⟩ (ih hr)

/-- **An exploration is made of turns.** -/
theorem explore_turns (hr : explore g onTheFly = .ok (id, result)) :
    ∃ start, begin g onTheFly = .ok (id, start) ∧
      Relation.ReflTransGen (Turn g onTheFly) start result := by
  obtain ⟨⟨x, start⟩, hstart, hr⟩ := bind_eq_ok.1 hr
  obtain ⟨_, hdrain, hr⟩ := bind_eq_ok.1 hr
  cases hr
  exact ⟨start, hstart, drain_turns hdrain⟩

end Construction

end OmegaAutomata
