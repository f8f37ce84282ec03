/-
# Merging keeps the languages

When a state is merged into its partner, the two have the same transitions, so the
graph before and after is that of `System.Merges`.  Their markings may differ, but
only if one of the two is marked as transient and therefore lies on no cycle, and
then the partner gets the marking of the other one (`merges_system`,
`Valid.mergeInto`).

Merging a state creates a cycle through the partner only if one of them was on a
cycle before.  If the partner is still marked as transient afterwards, then both were,
so the marks stay right (`Valid.mergeOne`); this is why a state that takes over a
marking takes over the mark as well.

`MergeStep` follows a pass over the states step by step, and `Merging` is what the
steps keep.  A counter is only overwritten in a state that lies on no cycle at that
time (`Merging.not_onCycle_of_overwrites`).
-/

import OmegaAutomata.Arena.Merge
import OmegaAutomata.Proofs.Arena.Graph
import Mathlib.Data.List.Nodup

namespace OmegaAutomata

/-! ### States that match -/

theorem State.absorb_transitions (t s : State) : (t.absorb s).transitions = t.transitions := by
  unfold absorb
  split
  · rfl
  · rfl

/-- A state whose marking was free is only marked as transient if the other one was, too. -/
theorem State.isFlexible_absorb {t s : State} :
    (t.absorb s).isFlexible = true ↔ t.isFlexible = true ∧ s.isFlexible = true := by
  unfold absorb
  split
  · rename_i ht
    exact (and_iff_right ht).symm
  · rename_i ht
    exact iff_of_false ht fun h => ht h.1

theorem State.counter_absorb {t s : State} (h : t.isFlexible = true) :
    (t.absorb s).counter = s.counter := by
  rw [absorb, if_pos h]

theorem State.absorb_eq_self {t s : State} (h : t.isFlexible = false) : t.absorb s = t := by
  rw [absorb, h]
  rfl

theorem State.matchesIn_iff {k : Nat} {s t : State} : s.matchesIn k t = true ↔
    ((s.counter = k ↔ t.counter = k) ∨ s.isFlexible = true ∨ t.isFlexible = true) ∧
      ∀ r, r ∈ s.transitions ↔ r ∈ t.transitions := by
  simp only [matchesIn, Bool.and_eq_true, Bool.or_eq_true, beq_iff_eq, decide_eq_decide,
    List.all_eq_true, decide_eq_true_eq]
  constructor
  · rintro ⟨⟨hmark, hst⟩, hts⟩
    exact ⟨by tauto, fun r => ⟨hst r, hts r⟩⟩
  · rintro ⟨hmark, h⟩
    exact ⟨⟨by tauto, fun r => (h r).1⟩, fun r => (h r).2⟩

namespace Arena

variable {a b : Arena} {k : Nat} {id p x y : StateId} {s t : State} {older : List StateId}

/-- Whether the live state of an id matches `s`. -/
def matchedBy (a : Arena) (k : Nat) (s : State) (x : StateId) : Bool :=
  match a.slot? x with
  | some ⟨.live, t⟩ => s.matchesIn k t
  | _ => false

theorem matchedBy_iff : a.matchedBy k s x = true ↔
    ∃ t, a.LiveAt x t ∧ s.matchesIn k t = true := by
  unfold matchedBy
  split
  · rename_i t ht
    refine ⟨fun hmatch => ⟨t, ht, hmatch⟩, ?_⟩
    rintro ⟨t', ht', hmatch⟩
    exact ht.symm.trans ht' |> Option.some.inj |> Slot.mk.inj |>.2 ▸ hmatch
  · rename_i hother
    exact iff_of_false Bool.false_ne_true fun ⟨t, ht, _⟩ => hother t ht

/-- Comparing with a live state. -/
theorem statesMatch_eq (hid : a.state id = .ok s) (hx : a.LiveAt x t) :
    a.statesMatch k id x = .ok (a.matchedBy k s x) := by
  have hmatch : a.matchedBy k s x = s.matchesIn k t := by rw [matchedBy, hx]
  rw [statesMatch, hid, bind_ok, hx.state_eq_ok, bind_ok, hmatch]
  rfl

/-- Looking for a partner never fails. -/
theorem partner?_eq (hid : a.state id = .ok s) :
    a.partner? k id older = .ok (older.find? (a.matchedBy k s)) := by
  refine findM?_eq_ok fun x _ => ?_
  split
  · rename_i hlive
    obtain ⟨t, ht⟩ := isLive_iff.1 hlive
    exact statesMatch_eq hid ht
  · rename_i hlive
    have hmatch : a.matchedBy k s x = false := Bool.eq_false_iff.2 fun hmatch => by
      obtain ⟨t, ht, -⟩ := matchedBy_iff.1 hmatch
      exact hlive (isLive_iff.2 ⟨t, ht⟩)
    rw [hmatch, pure_eq_ok]

/-- A partner is a live state among the candidates that matches. -/
theorem partner?_eq_some (hid : a.state id = .ok s) (h : a.partner? k id older = .ok (some p)) :
    p ∈ older ∧ ∃ t, a.LiveAt p t ∧ s.matchesIn k t = true := by
  rw [partner?_eq hid] at h
  have hp := Except.ok.inj h
  exact ⟨List.mem_of_find?_eq_some hp, matchedBy_iff.1 (List.find?_some hp)⟩

/-- Looking for a match among all live states never fails either. -/
theorem Pooled.findM?_statesMatch (h : a.Pooled) (hid : a.state id = .ok s) :
    a.live.findM? (a.statesMatch k id) = .ok (a.live.find? (a.matchedBy k s)) :=
  findM?_eq_ok fun x hx => by
    obtain ⟨t, ht⟩ := h.live_of_mem x hx
    exact statesMatch_eq hid ht

/-! ### One state -/

/-- **What becomes of a state**: it is retired for want of transitions, it stays, or it is merged
into a live state that matches it. -/
theorem Valid.mergeOne_cases (h : a.Valid) {gone : Bool} (hid : a.LiveAt id s)
    (hb : a.mergeOne k id older = .ok (gone, b)) :
    s.transitions = [] ∧ b = a.retireNow id none ∨
      b = a ∧ (s.transitions ≠ [] → a.partner? k id older = .ok none) ∨
      ∃ p t, s.transitions ≠ [] ∧ a.partner? k id older = .ok (some p) ∧ p ∈ older ∧ a.LiveAt p t ∧
        s.matchesIn k t = true ∧ p ≠ id ∧
        b = (a.modify p fun t => t.absorb s).retireNow id (some p) := by
  rw [Arena.mergeOne, hid.state_eq_ok] at hb
  dsimp only [bind_ok] at hb
  split at hb
  · rename_i hnil
    obtain ⟨c, hc, hb⟩ := bind_eq_ok.1 hb
    cases hb
    exact .inl ⟨List.isEmpty_iff.1 hnil, (h.retire_eq_ok hc).1⟩
  · rename_i hne
    have hne : s.transitions ≠ [] := fun hnil => hne (List.isEmpty_iff.2 hnil)
    obtain ⟨partner, hp, hb⟩ := bind_eq_ok.1 hb
    cases partner with
    | none =>
      cases hb
      exact .inr (.inl ⟨rfl, fun _ => hp⟩)
    | some p =>
      obtain ⟨c, hc, hb⟩ := bind_eq_ok.1 hb
      cases hb
      obtain ⟨hmem, t, ht, hmatch⟩ := partner?_eq_some hid.state_eq_ok hp
      obtain ⟨hself, -, -, rfl⟩ := (h.pooled.modify _ _).retire_eq_ok.1 hc
      exact .inr (.inr ⟨p, t, hne, hp, hmem, ht, hmatch, fun he => hself (he ▸ rfl), rfl⟩)

/-- The graph after `id` was merged into `p` is the one before with the two states made one. -/
theorem merges_system (hid : a.LiveAt id s) (hp : a.LiveAt p t) (hne : p ≠ id)
    (hmatch : ∀ r, r ∈ s.transitions ↔ r ∈ t.transitions) (k : Nat) :
    (a.system k).Merges (((a.modify p fun t => t.absorb s).retireNow id (some p)).system k)
      id p where
  ne := hne
  twins v y := by
    constructor
    · rintro ⟨s', hs', r, hr, hdest, hholds⟩
      cases hid.unique hs'
      exact ⟨t, hp, r, (hmatch r).1 hr, hdest, hholds⟩
    · rintro ⟨t', ht', r, hr, hdest, hholds⟩
      cases hp.unique ht'
      exact ⟨s, hid, r, (hmatch r).2 hr, hdest, hholds⟩
  step_iff v x z := by
    have hid' : (a.modify p fun t => t.absorb s).LiveAt id s :=
      liveAt_modify.2 ⟨s, hid, (if_neg hne.symm).symm⟩
    rw [step_retireNow hid']
    refine and_congr_right fun _ => exists_congr fun y => ?_
    rw [step_modify fun t => t.absorb_transitions s]
    by_cases hy : y = id <;> simp [hy, System.rename]

/-- **Merging a state into one that matches it** keeps an arena valid and keeps the languages. -/
theorem Valid.mergeInto (h : a.Valid) (hid : a.LiveAt id s) (hp : a.LiveAt p t) (hne : p ≠ id)
    (hmatch : s.matchesIn k t = true) :
    ((a.modify p fun t => t.absorb s).retireNow id (some p)).Valid ∧
      Keeps k a ((a.modify p fun t => t.absorb s).retireNow id (some p)) := by
  obtain ⟨hmark, htransitions⟩ := State.matchesIn_iff.1 hmatch
  have hmerges (k : Nat) := merges_system hid hp hne htransitions k
  have hid' : (a.modify p fun t => t.absorb s).LiveAt id s :=
    liveAt_modify.2 ⟨s, hid, (if_neg hne.symm).symm⟩
  have hp' : (a.modify p fun t => t.absorb s).LiveAt p (t.absorb s) :=
    liveAt_modify.2 ⟨t, hp, (if_pos rfl).symm⟩
  have hvalid : (a.modify p fun t => t.absorb s).Valid :=
    h.modify (fun t => t.absorb_transitions s) fun u hu hflex =>
      h.transient p u hu (State.isFlexible_absorb.1 hflex).1
  constructor
  · refine hvalid.retireNow hid' (fun y hy => ?_) fun x u hx hu hflex hcycle => ?_
    · cases hy
      exact ⟨hne, _, hp'⟩
    · obtain ⟨u', hu', rfl⟩ := liveAt_modify.1 hu
      rw [← onCycle_system (k := k)] at hcycle
      rcases (hmerges k).onCycle hcycle with hold | ⟨rfl, hold⟩
      · refine h.transient x u' hu' ?_ (onCycle_system.1 hold)
        split at hflex
        · exact (State.isFlexible_absorb.1 hflex).1
        · exact hflex
      · rw [if_pos rfl] at hflex
        exact h.transient id s hid (State.isFlexible_absorb.1 hflex).2 (onCycle_system.1 hold)
  · refine ⟨List.filter_sublist, fun x u hu => ?_, fun x u hu w => ?_⟩
    · obtain ⟨u', hu', -⟩ := liveAt_modify.1 (liveAt_retireNow.1 hu).2
      exact ⟨u', hu'⟩
    · have haccepting : ((a.modify p fun t => t.absorb s).retireNow id (some p)).LiveAt p
          (t.absorb s) := liveAt_retireNow.2 ⟨hne, hp'⟩
      refine (hmerges k).acceptsFrom_iff (fun x hx hxp => ?_) (fun hcycle => ?_) (fun hcycle => ?_)
        (liveAt_retireNow.1 hu).1
      · rw [accepting_retireNow, and_iff_right hx]
        simp only [system, liveAt_modify, if_neg hxp, exists_eq_right']
      · rw [haccepting.accepting_iff, hp.accepting_iff, State.absorb_eq_self]
        exact Bool.eq_false_iff.2 fun hflex => h.transient p t hp hflex (onCycle_system.1 hcycle)
      · have hrigid : s.isFlexible = false := Bool.eq_false_iff.2 fun hflex =>
          h.transient id s hid hflex (onCycle_system.1 hcycle)
        rw [haccepting.accepting_iff, hid.accepting_iff]
        cases hflex : t.isFlexible with
        | true => rw [State.counter_absorb hflex]
        | false =>
          rw [State.absorb_eq_self hflex]
          simpa [hrigid, hflex, iff_comm] using hmark

/-- **Visiting a state** keeps an arena valid, its languages, and all other states. -/
theorem Valid.mergeOne (h : a.Valid) {gone : Bool} (hid : a.LiveAt id s)
    (hb : a.mergeOne k id older = .ok (gone, b)) :
    b.Valid ∧ Keeps k a b ∧ ∀ x t, x ≠ id → a.LiveAt x t → ∃ t', b.LiveAt x t' := by
  rcases h.mergeOne_cases hid hb with ⟨hnil, rfl⟩ | ⟨rfl, -⟩ | ⟨p, t, -, -, -, hp, hmatch, hne, rfl⟩
  · exact ⟨h.retireNow_none hid,
      keeps_retireNow_none hid (not_leads_of_transitions_eq_nil hid hnil),
      fun x t hx ht => ⟨t, liveAt_retireNow.2 ⟨hx, ht⟩⟩⟩
  · exact ⟨h, .refl k _, fun x t _ ht => ⟨t, ht⟩⟩
  · obtain ⟨hvalid, hkeeps⟩ := h.mergeInto hid hp hne hmatch
    exact ⟨hvalid, hkeeps, fun x u hx hu =>
      ⟨_, liveAt_retireNow.2 ⟨hx, liveAt_modify.2 ⟨u, hu, rfl⟩⟩⟩⟩

/-- Whether visiting `id` overwrites the counter of `x`: that is the partner of `id`, and its
marking is free. -/
def Overwrites (a : Arena) (k : Nat) (id : StateId) (older : List StateId) (x : StateId) : Prop :=
  ∃ s t, a.LiveAt id s ∧ s.transitions ≠ [] ∧ a.partner? k id older = .ok (some x) ∧
    a.LiveAt x t ∧ t.isFlexible = true

/-- **A counter is only overwritten in a state on no cycle.** -/
theorem Valid.not_onCycle_of_overwrites (h : a.Valid) (hx : a.Overwrites k id older x) :
    ¬a.OnCycle x := by
  obtain ⟨-, t, -, -, -, ht, hflex⟩ := hx
  exact h.transient x t ht hflex

/-- All other counters stay, also those of states that are not live. -/
theorem Valid.counter_eq_of_not_overwrites (h : a.Valid) {gone : Bool} (hid : a.LiveAt id s)
    (hb : a.mergeOne k id older = .ok (gone, b)) (hx : ¬a.Overwrites k id older x) {l : Slot}
    (hl : a.slot? x = some l) : ∃ l', b.slot? x = some l' ∧ l'.state.counter = l.state.counter := by
  have hretire (f : Option StateId) (c : Arena) {m : Slot} (hm : c.slot? x = some m) :
      ∃ l', (c.retireNow id f).slot? x = some l' ∧ l'.state.counter = m.state.counter := by
    refine ⟨_, by rw [slot?_retireNow, hm]; rfl, ?_⟩
    unfold afterRetiring
    split_ifs <;> rfl
  rcases h.mergeOne_cases hid hb with
    ⟨-, rfl⟩ | ⟨rfl, -⟩ | ⟨p, t, hne, hpartner, -, hp, -, -, rfl⟩
  · exact hretire none a hl
  · exact ⟨l, hl, rfl⟩
  · by_cases hxp : x = p
    · subst hxp
      cases hl.symm.trans hp
      have hflex : t.isFlexible = false :=
        Bool.eq_false_iff.2 fun hflex => hx ⟨s, t, hid, hne, hpartner, hp, hflex⟩
      refine hretire (some x) _ (m := ⟨.live, t⟩) ?_
      rw [slot?_modify_self, hp, Option.map_some, State.absorb_eq_self hflex]
    · exact hretire (some p) _ (by rw [slot?_modify_of_ne hxp, hl])

/-! ### A pass over the states -/

/-- A step of a pass deals with the first of the states that are left. -/
inductive MergeStep (k : Nat) : List StateId × Arena → List StateId × Arena → Prop where
  | visit {id : StateId} {older : List StateId} {a b : Arena} {gone : Bool} :
      a.mergeOne k id older = .ok (gone, b) → MergeStep k (id :: older, a) (older, b)

/-- A pass goes through such steps until no state is left. -/
theorem mergeSteps_of_mergeEach {ids : List StateId} {n : Nat}
    (hb : mergeEach k ids a = .ok (n, b)) :
    Relation.ReflTransGen (MergeStep k) (ids, a) ([], b) := by
  induction ids generalizing a n with
  | nil =>
    cases hb
    exact .refl
  | cons id older ih =>
    rw [mergeEach] at hb
    obtain ⟨⟨gone, c⟩, hc, hb⟩ := bind_eq_ok.1 hb
    obtain ⟨⟨m, d⟩, hd, hb⟩ := bind_eq_ok.1 hb
    cases hb
    exact .head (.visit hc) (ih hd)

/-- What a pass that began with `a` keeps: the arena is valid, the languages are those of `a`, and
the states that are left are live. -/
structure Merging (k : Nat) (a : Arena) (p : List StateId × Arena) : Prop where
  valid : p.2.Valid
  keeps : Keeps k a p.2
  nodup : p.1.Nodup
  live : ∀ x ∈ p.1, ∃ s, p.2.LiveAt x s

theorem Valid.merging (h : a.Valid) (k : Nat) : Merging k a (a.live.reverse, a) where
  valid := h
  keeps := .refl k a
  nodup := List.nodup_reverse.2 h.live_nodup
  live x hx := (h.mem_live x).1 (List.mem_reverse.1 hx)

theorem Merging.step {p q : List StateId × Arena} (h : Merging k a p) (hpq : MergeStep k p q) :
    Merging k a q := by
  cases hpq with
  | visit hb =>
    obtain ⟨s, hs⟩ := h.live _ List.mem_cons_self
    obtain ⟨hvalid, hkeeps, hother⟩ := h.valid.mergeOne hs hb
    obtain ⟨hid, hnodup⟩ := List.nodup_cons.1 h.nodup
    refine ⟨hvalid, h.keeps.trans hkeeps, hnodup, fun x hx => ?_⟩
    obtain ⟨t, ht⟩ := h.live x (List.mem_cons_of_mem _ hx)
    exact hother x t (fun he => hid (he ▸ hx)) ht

/-- The oldest state is never merged, since no older one is left to merge it into. -/
theorem Merging.stays_step {i : StateId} {p q : List StateId × Arena} (h : Merging k a p)
    (hpq : MergeStep k p q) (hlast : i ∈ p.1 → p.1.getLast? = some i) (hi : Stays k i a p.2) :
    (i ∈ q.1 → q.1.getLast? = some i) ∧ Stays k i a q.2 := by
  cases hpq with
  | @visit id older a' b gone hb =>
    obtain ⟨s, hs⟩ := h.live _ List.mem_cons_self
    obtain ⟨-, -, hother⟩ := h.valid.mergeOne hs hb
    obtain ⟨hid, -⟩ := List.nodup_cons.1 h.nodup
    refine ⟨fun hmem => ?_, hi.trans h.keeps fun t ht => ?_⟩
    · have hlast := hlast (List.mem_cons_of_mem _ hmem)
      rwa [List.getLast?_cons_of_ne_nil (List.ne_nil_of_mem hmem)] at hlast
    · by_cases hne : i = id
      · subst hne
        have hnil : older = [] := by
          by_contra hne
          have hlast := hlast List.mem_cons_self
          rw [List.getLast?_cons_of_ne_nil hne] at hlast
          exact hid (List.mem_of_getLast? hlast)
        subst hnil
        rcases h.valid.mergeOne_cases hs hb with ⟨hnil, -⟩ | ⟨rfl, -⟩ | ⟨p, t, -, -, hmem, -⟩
        · exact .inr (not_acceptsFrom_of_not_leads (not_leads_of_transitions_eq_nil hs hnil))
        · exact .inl ⟨s, hs⟩
        · exact absurd hmem List.not_mem_nil
      · exact .inl (hother i t hne ht)

/-- **Every step of a pass** finds what was kept so far. -/
theorem Merging.steps {p q : List StateId × Arena} (h : Merging k a p)
    (hpq : Relation.ReflTransGen (MergeStep k) p q) : Merging k a q := by
  induction hpq with
  | refl => exact h
  | tail _ hstep ih => exact ih.step hstep

/-- **A whole pass keeps the languages**, and the oldest state as long as it accepts any word. -/
theorem Valid.mergeEach (h : a.Valid) {n : Nat} (hb : mergeEach k a.live.reverse a = .ok (n, b)) :
    b.Valid ∧ Keeps k a b ∧ ∀ i rest, a.live = i :: rest → Stays k i a b := by
  have hsteps := mergeSteps_of_mergeEach hb
  have hend := (h.merging k).steps hsteps
  refine ⟨hend.valid, hend.keeps, fun i rest hi => ?_⟩
  have hlast : ∀ q, Relation.ReflTransGen (MergeStep k) (a.live.reverse, a) q →
      (i ∈ q.1 → q.1.getLast? = some i) ∧ Stays k i a q.2 := by
    intro q hq
    induction hq with
    | refl =>
      refine ⟨fun _ => by rw [hi]; simp, .inl ((h.mem_live i).1 ?_)⟩
      rw [hi]
      exact List.mem_cons_self
    | tail hpq hstep ih => exact ((h.merging k).steps hpq).stays_step hstep ih.1 ih.2
  exact (hlast _ hsteps).2

end Arena

end OmegaAutomata
