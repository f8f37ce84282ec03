/-
# Constructions end

What a construction looks up is always there, so a count that would leave its range is the only
fault that it can have (`explore_countsFail`), however large the generalized automaton is.
Without such a fault the exploration ends with no state pending, after it has explored each pair
of a state and a counter at most once, and redirecting never fails after it.

The statistics add up (`explores_once`): every state but the initial one that was counted as live,
merged or dead was explored once, and the states of the automaton are those that became live, less
those that died at the end.
-/

import OmegaAutomata.Proofs.Automaton.Consistency
import OmegaAutomata.Proofs.Degeneralize.Explored
import OmegaAutomata.Proofs.Idempotence

namespace OmegaAutomata

open Arena

namespace Construction

variable {α β σ : Type} {g : Generalized} {a b : Arena} {id x : StateId} {s : State} {l m : Slot}
  {t : Transition} {onTheFly : Bool} {p result : Progress} {start q : Nat}
  {es : List (Label × Nat × Nat)}

/-! ### Faults -/

/-- Whether an operation can only fail because a count would leave its range. -/
def CountsFail (r : Except Fault α) : Prop :=
  ∀ f, r = .error f → ∃ id, f = .incomingOverflow id

theorem CountsFail.of_ok {r : Except Fault α} (h : ∃ a, r = .ok a) : CountsFail r := by
  rintro f rfl
  obtain ⟨a, ha⟩ := h
  contradiction

theorem CountsFail.bind {r : Except Fault α} {f : α → Except Fault β} (hr : CountsFail r)
    (hf : ∀ a, r = .ok a → CountsFail (f a)) : CountsFail (r >>= f) := by
  intro e he
  rcases bind_eq_error.1 he with he | ⟨a, ha, he⟩
  · exact hr e he
  · exact hf a ha e he

theorem CountsFail.foldlM {f : σ → α → Except Fault σ} {P : List α → σ → Prop} {xs : List α}
    {a : σ} (h0 : P xs a)
    (hstep : ∀ x rest a, P (x :: rest) a → CountsFail (f a x) ∧ ∀ b, f a x = .ok b → P rest b) :
    CountsFail (xs.foldlM f a) := by
  induction xs generalizing a with
  | nil => exact .of_ok ⟨a, rfl⟩
  | cons x rest ih =>
    rw [List.foldlM_cons]
    obtain ⟨hf, hb⟩ := hstep x rest a h0
    exact hf.bind fun b hfb => ih (hb b hfb)

theorem release_countsFail (hl : a.slot? id = some l) (n : Nat) : CountsFail (release a id n) := by
  rw [release, state_eq_ok.2 ⟨l.stage, hl⟩, bind_ok]
  split
  · rintro f ⟨⟩
    exact ⟨id, rfl⟩
  · exact .of_ok ⟨_, rfl⟩

theorem retain_countsFail (hl : a.slot? id = some l) : CountsFail (retain a id) := by
  rw [retain, state_eq_ok.2 ⟨l.stage, hl⟩, bind_ok]
  split
  · exact .of_ok ⟨_, rfl⟩
  · rintro f ⟨⟩
    exact ⟨id, rfl⟩

theorem link_countsFail (hsource : a.slot? x = some l) (htarget : a.slot? t.target = some m) :
    CountsFail (link onTheFly a x t) := by
  rw [link, state_eq_ok.2 ⟨l.stage, hsource⟩, bind_ok]
  dsimp only
  split
  · refine (release_countsFail htarget _).bind fun b hb => ?_
    split
    · exact .of_ok ⟨_, rfl⟩
    · obtain ⟨k, -, -, rfl⟩ := release_eq_ok hb
      have hkept := slot?_modify_self a t.target fun s => { s with incoming := s.incoming -
        (l.state.transitions.length - (t.notSubsumed l.state.transitions).length) }
      rw [htarget, Option.map_some] at hkept
      exact (retain_countsFail hkept).bind fun _ _ => .of_ok ⟨_, rfl⟩
  · exact (retain_countsFail htarget).bind fun _ _ => .of_ok ⟨_, rfl⟩

/-- Transitions of a state can be added as long as counts stay in range. -/
theorem Building.addMoves_countsFail (h : Building g (some x) none es a)
    (hstart : start ≤ g.sets) (onTheFly : Bool) (q : Nat) :
    CountsFail (Construction.addMoves g onTheFly x start a q) := by
  refine CountsFail.foldlM (P := fun ts a => (∀ t ∈ ts, t ∈ g.transitions q) ∧
    ∃ es, Building g (some x) none es a) ⟨fun _ ht => ht, es, h⟩ fun t rest a hP => ?_
  obtain ⟨hts, es, h⟩ := hP
  have ht := hts t List.mem_cons_self
  refine ⟨?_, fun b hb => ⟨fun u hu => hts u (List.mem_cons_of_mem t hu), _, (h.addMove ht hb).1⟩⟩
  obtain ⟨⟨y, c⟩, hc⟩ := exists_resolve h.registered t.target (g.identity t.target)
    (Counter.advance g.sets t.acceptance start)
  obtain ⟨-, hstands, hextends⟩ :=
    h.resolve (Generalized.mem_pairs ht (Counter.advance_le t.acceptance hstart)) hc
  obtain ⟨-, k, hk, -⟩ := h.lists x rfl
  obtain ⟨l, hl, -⟩ := hextends.slot x k hk
  obtain ⟨m, hm⟩ := Option.isSome_iff_exists.1 hstands.1
  rw [Construction.addMove, Counter.advance?_eq_ok.2 ⟨hstart, rfl⟩, bind_ok, hc, bind_ok]
  exact link_countsFail hl hm

/-- **A turn can only fail with a count.** -/
theorem Building.visit_countsFail (h : Building g (some id) none [] p.arena)
    (hid : p.arena.slot? id = some ⟨.pending, s⟩) (hs : s.incoming ≠ 0) (onTheFly : Bool) :
    CountsFail (Construction.visit g onTheFly p id) := by
  obtain ⟨q, hq⟩ := h.exists_source hid
  rw [visit_eq_exploreState hid hs, exploreState, state_eq_ok.2 ⟨_, hid⟩, bind_ok, hq]
  refine (h.addMoves_countsFail (Counter.restart_le (h.registered.counter_le hid)) onTheFly q).bind
    fun b hb => ?_
  obtain ⟨hbuilding, hextends⟩ := h.addMoves hb
  obtain ⟨⟨_, u⟩, hu, rfl, -⟩ := hextends.slot id _ hid
  exact .of_ok (Building.exists_settle (p := ⟨b, p.stats⟩) hbuilding hu onTheFly)

theorem Building.drain_countsFail (h : Building g none none [] p.arena) (onTheFly : Bool)
    (n : Nat) : CountsFail (Construction.drain g onTheFly n p) := by
  induction n generalizing p with
  | zero => exact .of_ok ⟨p, rfl⟩
  | succ n ih =>
    unfold Construction.drain
    split
    · exact .of_ok ⟨p, rfl⟩
    · rename_i id c hpop
      obtain ⟨hc, ⟨s, hs, hincoming⟩, -⟩ := h.popPending hpop
      refine (Building.visit_countsFail (p := ⟨c, p.stats⟩) hc hs hincoming onTheFly).bind
        fun r hr => ih (Building.visit (p := ⟨c, p.stats⟩) hc hs hincoming hr).1

/-- **An exploration can only fail with a count.** -/
theorem explore_countsFail (g : Generalized) (onTheFly : Bool) :
    CountsFail (explore g onTheFly) := by
  refine CountsFail.bind ?_ fun ⟨id, start⟩ hr => ?_
  · refine CountsFail.bind ?_ fun b hb => ?_
    · refine CountsFail.foldlM (P := fun _ a => ∃ es, Building g (some 0) none es a)
        ⟨[], Building.addInitial_empty g⟩ fun q _ a ha => ?_
      obtain ⟨es, ha⟩ := ha
      exact ⟨ha.addMoves_countsFail (Nat.zero_le _) onTheFly q,
        fun b hb => ⟨_, (ha.addMoves hb).1⟩⟩
    · obtain ⟨hbuilding, -⟩ := (Building.addInitial_empty g).foldlM_addMoves hb
      obtain ⟨-, l, hl, -⟩ := hbuilding.lists 0 rfl
      exact CountsFail.bind (.of_ok ⟨_, state_eq_ok.2 ⟨l.stage, hl⟩⟩) fun _ _ => .of_ok ⟨_, rfl⟩
  · obtain ⟨-, hbuilding, -⟩ := begin_eq_ok hr
    exact (hbuilding.drain_countsFail onTheFly _).bind fun _ _ => .of_ok ⟨_, rfl⟩

end Construction

variable {g : Generalized}

/-- **Constructions end, and each pair is explored at most once.**  For an automaton that was
collected by a builder, as long as no count leaves its range, this holds of any turns from when the
initial state has got its transitions.  The pairs are in range, so that there are at most as many
turns as pairs, and some turns leave nothing pending.  The states that were counted then, apart from
the initial one, are as many as the pairs that were explored, and the states of the automaton are
the live ones among them, less those that died at the end. -/
theorem explores_once {κ : Type} [BEq κ] {d : Builder κ} (hd : d.Collected) (hg : d.build = .ok g)
    (onTheFly : Bool)
    (hcount : ∀ x, Construction.explore g onTheFly ≠ .error (.incomingOverflow x)) :
    ∃ id start, Construction.begin g onTheFly = .ok (id, start) ∧
      (∀ ns p, Construction.Explores g onTheFly start ns p → ns.Nodup ∧
        (∀ n ∈ ns, n.1 < g.states.size ∧ n.2 ≤ g.sets) ∧
          ns.length ≤ g.states.size * (g.sets + 1)) ∧
      ∃ ns p, Construction.Explores g onTheFly start ns p ∧ p.arena.pending = [] ∧
        Construction.explore g onTheFly = .ok (id, p) ∧
          ∀ options, options.onTheFly = onTheFly → ∃ b stats, build g options = .ok (b, stats) ∧
            1 ≤ stats.states ∧ (stats.states - 1) + stats.merged + stats.dead = ns.length ∧
              stats.cascaded ≤ stats.states ∧
                b.states.length = stats.states - stats.cascaded := by
  obtain ⟨⟨id, p⟩, hp⟩ : ∃ r, Construction.explore g onTheFly = .ok r := by
    cases hr : Construction.explore g onTheFly with
    | ok r => exact ⟨r, rfl⟩
    | error f =>
      obtain ⟨x, rfl⟩ := Construction.explore_countsFail g onTheFly f hr
      exact absurd hr (hcount x)
  obtain ⟨start, ns, hstart, hns⟩ := Construction.explore_explores hp
  obtain ⟨-, hbuilding, -⟩ := Construction.begin_eq_ok hstart
  have hexplored := Construction.begin_explored hstart
  refine ⟨id, start, hstart, fun ms q hq => ?_, ns, p, hns, (Construction.explore_eq_ok hp).2.2,
    hp, fun options honTheFly => ?_⟩
  · obtain ⟨hq, hms⟩ := hq.explored hbuilding hexplored
    exact ⟨hms.nodup, hms.length_le hq (hd.inRange.build hg)⟩
  · subst honTheFly
    obtain ⟨hq, hdone⟩ := hns.explored hbuilding hexplored
    obtain ⟨b, _, n, hb, rfl, hlength⟩ := exists_build_of_explore hp
    have hstates := (build_eq_ok hb).1.length_states
    have hpositive : 0 < p.arena.live.length :=
      List.length_pos_of_mem (List.mem_of_mem_head? hq.registered.oldest)
    have hlive := hdone.live_eq
    have hstats := hdone.stats_eq
    exact ⟨b, _, hb, by dsimp only; omega, by dsimp only; omega, by dsimp only; omega,
      by dsimp only; omega⟩

/-- Exploring the automaton for "infinitely often `p` and infinitely often `q`" takes at most nine
turns. -/
theorem explores_fair_once : Builder.fair.Collected ∧ Builder.fair.build = .ok .fair ∧
    (∀ x, Construction.explore .fair true ≠ .error (.incomingOverflow x)) ∧
      ∃ b stats, build .fair ⟨true, true, true⟩ = .ok (b, stats) ∧
        (stats.states - 1) + stats.merged + stats.dead ≤ 9 ∧
          b.states.length = stats.states - stats.cascaded := by
  have hcount (x : StateId) : Construction.explore .fair true ≠ .error (.incomingOverflow x) := by
    obtain ⟨r, hr⟩ := Construction.exists_explore
      ⟨Builder.collected_fair.inRange.build Builder.build_fair, by decide⟩ true
    rw [hr]
    simp
  obtain ⟨id, start, -, hturns, ns, p, hns, -, -, hbuild⟩ :=
    explores_once Builder.collected_fair Builder.build_fair true hcount
  obtain ⟨b, stats, hb, -, hstats, -, hlength⟩ := hbuild ⟨true, true, true⟩ rfl
  exact ⟨Builder.collected_fair, Builder.build_fair, hcount, b, stats, hb,
    hstats ▸ (hturns ns p hns).2.2, hlength⟩

end OmegaAutomata
