/-
# Which states die in a redirection

A state dies in a redirection if it has transitions and all of them lead nowhere or to states that
die.  What dies is the least set of live states with this property (`redirect_least`).

The code finds it in rounds.  A round sends the transitions on and reports the states that have none
left, which are those that die with no other state.  When these are retired, a state starves of a
set in what is left exactly if it starved before of that set together with the retired ones
(`Round.starves_iff`).  So the least set before a round is what the round reports and the least set
after it (`Fades.round`), and the lists that both steps leave are composed in the same way.
-/

import OmegaAutomata.Proofs.Arena.Redirect
import Mathlib.Data.Finset.Card
import Mathlib.Order.Bounds.Basic
import Mathlib.Tactic.IntervalCases

namespace OmegaAutomata

namespace Arena

variable {a b c d : Arena} {x y : StateId} {s : State} {t u : Transition}
  {spared : Option StateId} {D E : Finset StateId} {dead : List StateId}

/-! ### Transitions that are sent on -/

theorem forwarded_eq_some :
    a.forwarded t = some u ↔ a.destination? t.target = some u.target ∧ t.label = u.label := by
  rw [forwarded, Option.map_eq_some_iff]
  constructor
  · rintro ⟨y, hy, rfl⟩
    exact ⟨hy, rfl⟩
  · rintro ⟨hy, hlabel⟩
    exact ⟨u.target, hy, by rw [hlabel]⟩

/-- Where a transition goes when the states of `D` are gone, if anywhere. -/
def resolution (a : Arena) (D : Finset StateId) (t : Transition) : Option Transition :=
  (a.forwarded t).filter fun u => u.target ∉ D

theorem resolution_empty (a : Arena) : a.resolution ∅ = a.forwarded := by
  funext t
  rw [resolution]
  cases a.forwarded t with
  | none => rfl
  | some u => exact Option.filter_some_pos (by simp)

theorem Redirectable.destination?_of_forwarded (h : a.Redirectable) (hu : a.forwarded t = some u) :
    a.destination? u.target = some u.target := by
  obtain ⟨s, hs⟩ := h.destination_live (forwarded_eq_some.1 hu).1
  exact hs.destination?_eq

/-- Sending transitions on twice, with states retired in between, is sending them on once. -/
theorem Redirectable.forwarded_bind (h : a.Redirectable)
    (hdestination : ∀ y, c.destination? y = (a.destination? y).filter (· ∉ dead))
    (E : Finset StateId) (t : Transition) :
    (a.forwarded t).bind (c.resolution E) = a.resolution (dead.toFinset ∪ E) t := by
  rw [resolution]
  cases hu : a.forwarded t with
  | none => rfl
  | some u =>
    rw [Option.bind_some, resolution, forwarded, hdestination, h.destination?_of_forwarded hu]
    by_cases hdead : u.target ∈ dead
    · simp [Option.filter_some, hdead]
    · simp [Option.filter_some, hdead]

/-- Transitions that were sent on lead to live states. -/
theorem Redirectable.rewired (h : a.Redirectable)
    (hrewires : Rewires (List.filterMap a.forwarded) a b) : b.Redirectable where
  toEnrolled := hrewires.enrolled h.toEnrolled
  not_pending x s hs := by
    obtain ⟨t, ht⟩ := (hrewires.stage_iff x .pending).1 ⟨s, hs⟩
    exact h.not_pending x t ht
  target_some x s hs u hu := by
    obtain ⟨r, -, rfl⟩ := hrewires.liveAt_iff.1 hs
    obtain ⟨t, -, ht⟩ := List.mem_filterMap.1 hu
    obtain ⟨v, hv⟩ := h.destination_live (forwarded_eq_some.1 ht).1
    rw [hrewires.liveAt_iff.2 ⟨v, hv, rfl⟩]
    rfl

/-! ### What one round leaves -/

theorem Starves.mono {A B : Set StateId} (h : a.Starves spared A x) (hAB : A ⊆ B) :
    a.Starves spared B x := by
  obtain ⟨hspared, s, hs, hne, hA⟩ := h
  exact ⟨hspared, s, hs, hne, fun t ht y hy => hAB (hA t ht y hy)⟩

/-- `c` is `a` after one round that reported `dead`: the transitions were sent on, and what was
reported was retired. -/
structure Round (spared : Option StateId) (dead : List StateId) (a c : Arena) : Prop where
  mem_dead : ∀ x, x ∈ dead ↔ a.Starves spared ∅ x
  live_eq : c.live = a.live.filter (· ∉ dead)
  liveAt_iff : ∀ x s, c.LiveAt x s ↔ x ∉ dead ∧ ∃ t, a.LiveAt x t ∧
    s = { t with transitions := t.transitions.filterMap a.forwarded }
  destination?_eq : ∀ y, c.destination? y = (a.destination? y).filter (· ∉ dead)

theorem round_of_retireAll (hb : b.Redirectable)
    (hrewires : Rewires (List.filterMap a.forwarded) a b)
    (hdead : ∀ x, x ∈ dead ↔ a.Starves spared ∅ x) (hc : b.retireAll dead = .ok c) :
    Round spared dead a c := by
  obtain ⟨-, hlive, hfilter, -, hdestination⟩ := hb.retireAll hc
  refine ⟨hdead, by rw [hfilter, hrewires.live_eq], fun x s => ?_, fun y => ?_⟩
  · rw [hlive, hrewires.liveAt_iff]
  · rw [hdestination, hrewires.destination?_eq]

/-- **What starves after a round** is what starved before it when the reported states are counted
in, and was not reported. -/
theorem Round.starves_iff (h : Round spared dead a c) (ha : a.Redirectable) {A : Set StateId} :
    c.Starves spared A x ↔ a.Starves spared ({y | y ∈ dead} ∪ A) x ∧ x ∉ dead := by
  have hdestination {t u : Transition} (hu : a.forwarded t = some u) (y : StateId) :
      c.destination? u.target = some y ↔ u.target = y ∧ y ∉ dead := by
    rw [h.destination?_eq, ha.destination?_of_forwarded hu, Option.filter_eq_some_iff]
    simp
  constructor
  · rintro ⟨hspared, s', hs', hne, hA⟩
    obtain ⟨hx, s, hs, rfl⟩ := (h.liveAt_iff x s').1 hs'
    refine ⟨⟨hspared, s, hs, fun hnil => hne (by rw [hnil]; rfl), fun t ht y hy => ?_⟩, hx⟩
    have hu : a.forwarded t = some { t with target := y } := forwarded_eq_some.2 ⟨hy, rfl⟩
    by_cases hydead : y ∈ dead
    · exact .inl hydead
    · exact .inr (hA _ (List.mem_filterMap.2 ⟨t, ht, hu⟩) y ((hdestination hu y).2 ⟨rfl, hydead⟩))
  · rintro ⟨⟨hspared, s, hs, hne, hA⟩, hx⟩
    refine ⟨hspared, _, (h.liveAt_iff x _).2 ⟨hx, s, hs, rfl⟩, fun hnil => ?_, fun u hu y hy => ?_⟩
    · exact hx ((h.mem_dead x).2 (starves_empty_iff.2 ⟨hspared, s, hs, hne, hnil⟩))
    · obtain ⟨t, ht, htu⟩ := List.mem_filterMap.1 hu
      obtain ⟨rfl, hydead⟩ := (hdestination htu y).1 hy
      exact (hA t ht u.target (forwarded_eq_some.1 htu).1).resolve_left hydead

/-! ### What all rounds leave -/

/-- `b` is `a` after the states of `D` died, which are those that had to: the transitions of the
other states were sent on as far as they lead to other states. -/
structure Fades (spared : Option StateId) (D : Finset StateId) (a b : Arena) : Prop where
  least : IsLeast {A : Set StateId | ∀ x, a.Starves spared A x → x ∈ A} D
  live_eq : b.live = a.live.filter (· ∉ D)
  liveAt_iff : ∀ x s, b.LiveAt x s ↔ x ∉ D ∧ ∃ t, a.LiveAt x t ∧
    s = { t with transitions := t.transitions.filterMap (a.resolution D) }

/-- No other state died than those of any set that holds what dies with it. -/
theorem Fades.mem (h : Fades spared D a b) (hx : x ∈ D) {A : Set StateId}
    (hA : ∀ y, a.Starves spared A y → y ∈ A) : x ∈ A :=
  h.least.2 hA hx

/-- Only live states die. -/
theorem Fades.exists_liveAt (h : Fades spared D a b) (hx : x ∈ D) : ∃ s, a.LiveAt x s :=
  h.mem (A := {y | ∃ s, a.LiveAt y s}) hx fun _ ⟨_, s, hs, _⟩ => ⟨s, hs⟩

/-- States without transitions do not die. -/
theorem Fades.not_mem (h : Fades spared D a b) (hs : a.LiveAt x s) (hnil : s.transitions = []) :
    x ∉ D := by
  -- without `x`, the set would still hold every state that dies with it
  refine fun hx => (h.mem (A := {y | y ∈ D ∧ y ≠ x}) hx fun y hy => ⟨?_, ?_⟩).2 rfl
  · exact h.least.1 y (hy.mono fun z hz => hz.1)
  · rintro rfl
    obtain ⟨-, s', hs', hne, -⟩ := hy
    exact hne (hs.unique hs' ▸ hnil)

/-- **A round that reports nothing** is the last one. -/
theorem fades_of_rewires (hrewires : Rewires (List.filterMap a.forwarded) a b)
    (hnone : ∀ x, ¬a.Starves spared ∅ x) : Fades spared ∅ a b where
  least := by
    refine ⟨fun x hx => ?_, fun A _ => by simp⟩
    rw [Finset.coe_empty] at hx
    exact absurd hx (hnone x)
  live_eq := by
    rw [hrewires.live_eq]
    exact (List.filter_eq_self.2 (by simp)).symm
  liveAt_iff x s := by
    rw [hrewires.liveAt_iff, resolution_empty]
    simp

/-- **What a round reports and what dies after it** is what dies. -/
theorem Fades.round (ha : a.Redirectable) (hround : Round spared dead a c)
    (h : Fades spared E c d) : Fades spared (dead.toFinset ∪ E) a d where
  least := by
    have hcoe : ((dead.toFinset ∪ E : Finset StateId) : Set StateId) = {y | y ∈ dead} ∪ E := by
      rw [Finset.coe_union, List.coe_toFinset]
    rw [hcoe]
    refine ⟨fun x hx => ?_, fun A hA => ?_⟩
    · by_cases hxdead : x ∈ dead
      · exact .inl hxdead
      · exact .inr (h.least.1 x ((hround.starves_iff ha).2 ⟨hx, hxdead⟩))
    · have hdead : {y | y ∈ dead} ⊆ A := fun x hx =>
        hA x (((hround.mem_dead x).1 hx).mono (Set.empty_subset A))
      refine Set.union_subset hdead (h.least.2 fun x hx => hA x ?_)
      rw [← Set.union_eq_self_of_subset_left hdead]
      exact ((hround.starves_iff ha).1 hx).1
  live_eq := by
    rw [h.live_eq, hround.live_eq, List.filter_filter]
    refine List.filter_congr fun x _ => ?_
    simp [and_comm]
  liveAt_iff x s := by
    have hcompose (ts : List Transition) : (ts.filterMap a.forwarded).filterMap (c.resolution E) =
        ts.filterMap (a.resolution (dead.toFinset ∪ E)) := by
      rw [List.filterMap_filterMap]
      exact List.filterMap_congr fun t _ => ha.forwarded_bind hround.destination?_eq E t
    rw [h.liveAt_iff, Finset.mem_union, not_or, List.mem_toFinset]
    constructor
    · rintro ⟨hE, s', hs', rfl⟩
      obtain ⟨hdead, t, ht, rfl⟩ := (hround.liveAt_iff x s').1 hs'
      exact ⟨⟨hdead, hE⟩, t, ht, by rw [hcompose]⟩
    · rintro ⟨⟨hdead, hE⟩, t, ht, rfl⟩
      exact ⟨hE, _, (hround.liveAt_iff x _).2 ⟨hdead, t, ht, rfl⟩, by rw [hcompose]⟩

/-- **Rounds come to an end**, and then those states have died that had to.  Any bound will do that
leaves a round for each live state and one more. -/
theorem Redirectable.exists_redirectRounds (h : a.Redirectable) (spared : Option StateId) :
    ∃ D b, (∀ bound, a.live.length < bound → a.redirectRounds spared bound = .ok (D.card, b)) ∧
      Fades spared D a b ∧ b.Redirectable := by
  induction hn : a.live.length using Nat.strong_induction_on generalizing a with
  | _ n ih =>
    obtain ⟨dead, b, hb, hrewires, hsublist, hdead⟩ := h.exists_redirectOnce spared
    have hbr := h.rewired hrewires
    have honce (bound : Nat) (hbound : n < bound) : ∃ m, bound = m + 1 ∧ n ≤ m :=
      ⟨bound - 1, by omega, by omega⟩
    by_cases hnil : dead = []
    · subst hnil
      refine ⟨∅, b, fun bound hbound => ?_, fades_of_rewires hrewires fun x hx => ?_, hbr⟩
      · obtain ⟨m, rfl, -⟩ := honce bound hbound
        rw [redirectRounds, hb]
        rfl
      · exact List.not_mem_nil ((hdead x).2 hx)
    · have hnodup : dead.Nodup := h.live_nodup.sublist hsublist
      obtain ⟨c, hc⟩ := hbr.toEnrolled.exists_retireAll hnodup fun x hx => by
        obtain ⟨-, s, hs, -⟩ := (hdead x).1 hx
        exact ⟨_, hrewires.liveAt_iff.2 ⟨s, hs, rfl⟩⟩
      have hround := round_of_retireAll hbr hrewires hdead hc
      have hlt : c.live.length < n := by
        obtain ⟨x, hx⟩ := List.exists_mem_of_ne_nil dead hnil
        rw [hround.live_eq, ← hn]
        exact List.length_filter_lt_length_iff_exists.2 ⟨x, hsublist.subset hx, by simpa using hx⟩
      obtain ⟨E, d, hd, hfades, hdr⟩ := ih _ hlt (hbr.retireAll hc).1 rfl
      refine ⟨dead.toFinset ∪ E, d, fun bound hbound => ?_, hfades.round h hround, hdr⟩
      obtain ⟨m, rfl, hm⟩ := honce bound hbound
      -- a state that was reported is no longer there to die again
      have hdisjoint : Disjoint dead.toFinset E := Finset.disjoint_left.2 fun x hx hxE => by
        obtain ⟨s, hs⟩ := hfades.exists_liveAt hxE
        exact ((hround.liveAt_iff x s).1 hs).1 (List.mem_toFinset.1 hx)
      rw [redirectRounds, hb]
      dsimp only [bind_ok]
      rw [if_neg (by simpa using hnil), hc, bind_ok, hd m (by omega), bind_ok,
        Finset.card_union_of_disjoint hdisjoint, List.toFinset_card_of_nodup hnodup]
      rfl

/-- **A redirection lets the least set of states die.**  Let the lists of an arena have the states
of their stages, each of them once, as they do after any sequence of operations (no slot is freed
twice then), and let no state be pending.  If live states lead to live and to retired ones, and what
is to replace a retired state is live, then a redirection comes to an end, whatever the bound on its
rounds, and reports how many states died.  These are the least set that a state belongs to if it has
transitions, each of them leads nowhere or into the set, and it is not spared.  The other states
stay, in their order, and so do states without transitions.  Their transitions are sent on in order,
with the labels they had, and without those that lead nowhere or to a state that died.  No retired
state is left. -/
theorem redirect_least (hlive : a.live.Nodup ∧ ∀ x, x ∈ a.live ↔ ∃ s, a.LiveAt x s)
    (hretired : a.retired.Nodup ∧
      ∀ x, x ∈ a.retired ↔ ∃ f s, a.slot? x = some ⟨.retired f, s⟩)
    (hpending : ∀ x s, a.slot? x ≠ some ⟨.pending, s⟩)
    (htarget : ∀ x s, a.LiveAt x s → ∀ t ∈ s.transitions,
      (∃ u, a.LiveAt t.target u) ∨ ∃ f u, a.slot? t.target = some ⟨.retired f, u⟩)
    (hforward : ∀ x f s, a.slot? x = some ⟨.retired (some f), s⟩ → ∃ t, a.LiveAt f t)
    (spared : Option StateId) :
    ∃ D : Finset StateId,
      IsLeast {A : Set StateId | (∀ x ∈ A, ∃ s, a.LiveAt x s) ∧
        ∀ x, a.Starves spared A x → x ∈ A} D ∧
      ∃ b, a.redirect spared = .ok (D.card, b) ∧
        (∀ bound, a.live.length < bound →
          (do let (n, c) ← a.redirectRounds spared bound; pure (n, ← c.sweep)) = .ok (D.card, b)) ∧
        b.live = a.live.filter (· ∉ D) ∧
        (∀ x s, b.LiveAt x s ↔ x ∉ D ∧ ∃ t, a.LiveAt x t ∧
          s = { t with transitions := t.transitions.filterMap (a.resolution D) }) ∧
        (∀ x s, a.LiveAt x s → s.transitions = [] → b.LiveAt x s) ∧
        b.retired = [] ∧ ∀ x l, b.slot? x = some l → l.stage = .live := by
  have ha : a.Redirectable := by
    refine ⟨⟨hlive.1, hretired.1, hlive.2, hretired.2, hforward⟩, hpending, fun x s hs t ht => ?_⟩
    rcases htarget x s hs t ht with ⟨u, hu⟩ | ⟨f, u, hu⟩
    · rw [hu, Option.isSome_some]
    · rw [hu, Option.isSome_some]
  obtain ⟨D, c, hc, hfades, hcr⟩ := ha.exists_redirectRounds spared
  have hsweep (bound : Nat) (hbound : a.live.length < bound) :
      (do let (n, c) ← a.redirectRounds spared bound; pure (n, ← c.sweep)) =
        (.ok (D.card, c.sweepNow) : Except Fault _) := by
    rw [hc bound hbound, bind_ok]
    dsimp only
    rw [hcr.pooled.sweep_eq hcr.retired_nodup]
    rfl
  have hleft (x : StateId) (s : State) : c.sweepNow.LiveAt x s ↔ x ∉ D ∧ ∃ t, a.LiveAt x t ∧
      s = { t with transitions := t.transitions.filterMap (a.resolution D) } := by
    rw [hcr.liveAt_sweepNow, hfades.liveAt_iff]
  refine ⟨D, ⟨⟨fun x hx => hfades.exists_liveAt hx, hfades.least.1⟩,
    fun A hA => hfades.least.2 hA.2⟩, c.sweepNow, hsweep _ (Nat.lt_succ_self _), hsweep,
    by rw [sweepNow_live, hfades.live_eq], hleft, fun x s hs hnil => ?_, rfl,
    fun x l hl => (hcr.slot?_sweep_eq_some.1 hl).1⟩
  exact (hleft x s).2 ⟨hfades.not_mem hs hnil, s, hs, by rw [hnil, List.filterMap_nil, ← hnil]⟩

/-- A state with transitions to some states, always possible. -/
def leadingTo (ids : List StateId) : State :=
  { State.fresh none 0 0 with transitions := ids.map fun y => ⟨y, .always⟩ }

/-- State `0` leads to `1`, this one to `2`, and this one to a retired state.  State `0` also leads
to a retired state that is replaced by `5`, which has no transitions. -/
def fading : Arena where
  slots := #[some ⟨.live, leadingTo [1, 4]⟩, some ⟨.live, leadingTo [2]⟩,
    some ⟨.live, leadingTo [3, 3]⟩, some ⟨.retired none, leadingTo []⟩,
    some ⟨.retired (some 5), leadingTo []⟩, some ⟨.live, leadingTo []⟩]
  keys := ∅
  pending := []
  live := [0, 1, 2, 5]
  retired := [3, 4]

/-- State `2` dies in the first round, and state `1` in the second one. -/
theorem redirect_least_fading : ∃ D : Finset StateId,
    IsLeast {A : Set StateId | (∀ x ∈ A, ∃ s, fading.LiveAt x s) ∧
      ∀ x, fading.Starves none A x → x ∈ A} D ∧ D.card = 2 ∧
    ∃ b, fading.redirect none = .ok (2, b) ∧ b.live = [0, 5] ∧ b.retired = [] := by
  have hlt {x : StateId} {l : Slot} (h : fading.slot? x = some l) : x < 6 := lt_size_of_slot? h
  have hlive (x : StateId) : x ∈ fading.live ↔ ∃ s, fading.LiveAt x s := by
    constructor
    · intro hx
      have hall : ∀ x ∈ fading.live, fading.isLive x = true := by decide
      exact isLive_iff.1 (hall x hx)
    · rintro ⟨s, hs⟩
      have hx := hlt hs
      interval_cases x <;> first | decide | cases hs
  have hretired (x : StateId) : x ∈ fading.retired ↔
      ∃ f s, fading.slot? x = some ⟨.retired f, s⟩ := by
    constructor
    · intro hx
      rcases List.mem_pair.1 hx with rfl | rfl
      · exact ⟨_, _, rfl⟩
      · exact ⟨_, _, rfl⟩
    · rintro ⟨f, s, hs⟩
      have hx := hlt hs
      interval_cases x <;> first | decide | cases hs
  obtain ⟨D, hleast, b, hb, -, -, -, -, hnone, -⟩ := redirect_least ⟨by decide, hlive⟩
    ⟨by decide, hretired⟩
    (fun x s hs => by
      have hx := hlt hs
      interval_cases x <;> cases hs)
    (fun x s hs t ht => by
      have hall : ∀ x ∈ fading.live, ∀ t ∈ fading.transitionsOf x,
        fading.isLive t.target = true ∨ t.target ∈ fading.retired := by decide
      rw [← hretired, ← isLive_iff]
      exact hall x ((hlive x).2 ⟨s, hs⟩) t (transitionsOf_eq hs ▸ ht))
    (fun x f s hs => by
      have hx := hlt hs
      interval_cases x <;> cases hs
      exact ⟨_, rfl⟩) none
  have hcomputed : (fading.redirect none).map (fun r => (r.1, r.2.live)) = .ok (2, [0, 5]) := by
    decide
  rw [hb] at hcomputed
  obtain ⟨hcard, hlist⟩ := Prod.mk.inj (Except.ok.inj hcomputed)
  exact ⟨D, hleast, hcard, b, hcard ▸ hb, hlist, hnone⟩

end Arena

end OmegaAutomata
