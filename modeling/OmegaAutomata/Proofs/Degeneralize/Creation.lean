/-
# Every state has an older creator

A state is created for a transition that leads to it.  That transition may be dropped later, for
one that subsumes it, and the state that has it may be retired; so it has to be shown that the
states that are left are still led to.

The order of events says so.  Between two turns of a construction every state that is not retired,
apart from the first, is the target of a live state that is older (`Created`).  A subsumed
transition has the same target as the one that is kept, so no target is lost while a list grows
(`targets_link`).  A state that is merged has the targets of a live state, and these were there
before its turn; so it has created nothing itself (`Creating.retireNow`), and neither has a state
that is retired for want of transitions.

Going from each state to its creator ends in the initial state, which is the oldest one
(`Created.reaches`).
-/

import OmegaAutomata.Proofs.Arena.Bookkeeping
import OmegaAutomata.Proofs.Degeneralize.Turns

namespace OmegaAutomata

open Arena

namespace Arena

variable {a b : Arena} {id x y z : StateId} {s : State} {current base : StateId}
  {fresh forward : Option StateId} {onTheFly : Bool}

/-! ### Targets -/

/-- Whether a state has a transition to another one. -/
def Targets (a : Arena) (y x : StateId) : Prop :=
  ∃ t ∈ a.transitionsOf y, t.target = x

theorem targets_congr (h : b.transitionsOf y = a.transitionsOf y) :
    b.Targets y x ↔ a.Targets y x := by
  rw [Targets, h, Targets]

/-- **A transition that is added adds its target**, and no target is lost. -/
theorem targets_link {r : Transition} (hb : Construction.link onTheFly a z r = .ok b) :
    b.Targets y x ↔ a.Targets y x ∨ y = z ∧ x = r.target := by
  by_cases hy : y = z
  · subst hy
    rw [Targets, transitionsOf_link hb, if_pos rfl, Targets, and_iff_right rfl]
    constructor
    · rintro ⟨u, hu, rfl⟩
      rcases List.mem_cons.1 (Transition.grow_subset u hu) with rfl | hu
      · exact .inr rfl
      · exact .inl ⟨u, hu, rfl⟩
    · intro h
      obtain ⟨u, hu, hux⟩ : ∃ u ∈ r :: a.transitionsOf y, u.target = x := by
        rcases h with ⟨u, hu, hux⟩ | rfl
        · exact ⟨u, List.mem_cons_of_mem r hu, hux⟩
        · exact ⟨r, List.mem_cons_self, rfl⟩
      obtain ⟨u', hu', hsub⟩ := Transition.exists_mem_grow onTheFly r (a.transitionsOf y) u hu
      exact ⟨u', hu', (Transition.subsumedBy_iff.1 hsub).1.symm.trans hux⟩
  · rw [targets_congr (a := a)]
    · simp [hy]
    · rw [transitionsOf_link hb, if_neg hy]

/-! ### Creators -/

/-- Whether a state is there and was not retired. -/
def Standing (a : Arena) (x : StateId) : Prop :=
  a.stage? x = some .pending ∨ a.stage? x = some .live

theorem standing_congr (h : b.stage? x = a.stage? x) : b.Standing x ↔ a.Standing x := by
  rw [Standing, h, Standing]

/-- The states that are not retired after a retirement are the other ones. -/
theorem standing_retireNow : (a.retireNow id forward).Standing x ↔ x ≠ id ∧ a.Standing x := by
  rw [Standing, Standing, stage?_retireNow]
  by_cases hx : x = id
  · cases a.stage? x <;> simp [hx]
  · cases a.stage? x with
    | none => simp
    | some stage => by_cases hstage : stage = .retired (some id) <;> simp [hx, hstage]

/-- Whether every state that is not retired, apart from the first, is led to by an older live
state. -/
def Created (a : Arena) : Prop :=
  ∀ x ≠ 0, a.Standing x → ∃ y < x, a.stage? y = some .live ∧ a.Targets y x

/-- What holds of the creators while the current state gets its transitions.  The states from `base`
on were created since its turn began, and no other state leads to them.  A fresh state may not be
led to yet. -/
structure Creating (current base : StateId) (fresh : Option StateId) (a : Arena) : Prop where
  current_lt : current < base
  base_le : base ≤ a.slots.size
  fresh_new : ∀ x, fresh = some x → base ≤ x
  older : ∀ y ≠ current, ∀ x, a.Targets y x → x < base
  created : ∀ x ≠ 0, a.Standing x → some x ≠ fresh →
    (∃ y < x, y ≠ current ∧ a.stage? y = some .live ∧ a.Targets y x) ∨
      base ≤ x ∧ a.Targets current x

namespace Creating

/-! ### While the current state gets its transitions -/

/-- **What may happen in a turn**: other states keep their targets, and the current one keeps its own
and gets the state that was fresh. -/
theorem change {fresh' : Option StateId} (h : a.Creating current base fresh)
    (hsize : a.slots.size ≤ b.slots.size) (hnew : ∀ x, fresh' = some x → base ≤ x)
    (hstage : ∀ x, some x ≠ fresh' → b.stage? x = a.stage? x)
    (hlive : ∀ x, a.stage? x = some .live → b.stage? x = some .live)
    (hother : ∀ y ≠ current, ∀ x, b.Targets y x ↔ a.Targets y x)
    (hcurrent : ∀ x, a.Targets current x ∨ fresh = some x → b.Targets current x) :
    b.Creating current base fresh' where
  current_lt := h.current_lt
  base_le := Nat.le_trans h.base_le hsize
  fresh_new := hnew
  older y hy x hx := h.older y hy x ((hother y hy x).1 hx)
  created x hx hstanding hne := by
    have hstanding := (standing_congr (hstage x hne)).1 hstanding
    by_cases hx' : fresh = some x
    · exact .inr ⟨h.fresh_new x hx', hcurrent x (.inr hx')⟩
    · rcases h.created x hx hstanding (Ne.symm hx') with
        ⟨y, hyx, hy, hylive, hyt⟩ | ⟨hbase, hxt⟩
      · exact .inl ⟨y, hyx, hy, hlive y hylive, (hother y hy x).2 hyt⟩
      · exact .inr ⟨hbase, hcurrent x (.inl hxt)⟩

theorem recount (h : a.Creating current base none) (id : StateId) (r : Nat → Nat) :
    (a.recount id r).Creating current base none := by
  have hstage (x : StateId) : (a.recount id r).stage? x = a.stage? x := stage?_modify a id x _
  have htargets (y x : StateId) : (a.recount id r).Targets y x ↔ a.Targets y x :=
    targets_congr (transitionsOf_recount y)
  refine h.change ?_ (by simp) (fun x _ => hstage x) (fun x => (hstage x).trans)
    (fun y _ => htargets y) fun x hx => (htargets current x).2 (hx.resolve_right (by simp))
  rw [Arena.recount, modify_size]

theorem addPending (h : a.Creating current base none) (q : Nat) (i : Int) (c : Nat) :
    (a.addPending q i c).2.Creating current base (some a.slots.size) := by
  have hstage {x : StateId} (hx : x ≠ a.slots.size) :
      (a.addPending q i c).2.stage? x = a.stage? x := by
    rw [stage?_addPending, if_neg hx]
  have htargets (y x : StateId) : (a.addPending q i c).2.Targets y x ↔ a.Targets y x :=
    targets_congr (transitionsOf_addPending a q i c y)
  refine h.change ?_ (fun x hx => Option.some.inj hx ▸ h.base_le)
    (fun x hx => hstage fun he => hx (congrArg some he)) (fun x hx => (hstage ?_).trans hx)
    (fun y _ => htargets y) fun x hx => (htargets current x).2 (hx.resolve_right (by simp))
  · show a.slots.size ≤ (a.slots.push _).size
    rw [Array.size_push]
    exact Nat.le_succ _
  · rintro rfl
    rw [stage?_eq_none_of_le (Nat.le_refl _)] at hx
    contradiction

/-- **Resolving a pair** may create a state, to which nothing leads yet. -/
theorem resolve (h : a.Creating current base none) {q c : Nat} {i : Int}
    (hb : a.resolve q i c = .ok (x, b)) :
    ∃ fresh, (∀ z, fresh = some z → z = x) ∧ b.Creating current base fresh := by
  rcases resolve_eq_ok hb with ⟨-, hpair⟩ | rfl
  · cases hpair
    exact ⟨_, fun z hz => (Option.some.inj hz).symm, h.addPending q i c⟩
  · exact ⟨none, by simp, h⟩

/-- **The current state becomes the creator** of a state when it gets the transition that the state
was created for. -/
theorem link (h : a.Creating current base fresh) {r : Transition}
    (hfresh : ∀ z, fresh = some z → z = r.target)
    (hb : Construction.link onTheFly a current r = .ok b) : b.Creating current base none := by
  obtain ⟨hsize, -, hstage, -⟩ := link_keeps hb
  refine h.change (Nat.le_of_eq hsize.symm) (by simp) (fun x _ => hstage x)
    (fun x => (hstage x).trans) (fun y hy x => ?_) fun x hx => ?_
  · rw [targets_link hb]
    simp [hy]
  · exact (targets_link hb).2 (hx.imp id fun hx => ⟨rfl, hfresh x hx⟩)

theorem addMoves (h : a.Creating current base none) {g : Generalized} {start q : Nat}
    (hb : Construction.addMoves g onTheFly current start a q = .ok b) :
    b.Creating current base none := by
  refine foldlM_induction (P := fun _ a => a.Creating current base none) hb h
    fun t _ a b ha hb => ?_
  obtain ⟨c, -, hb⟩ := bind_eq_ok.1 hb
  obtain ⟨⟨x, d⟩, hd, hb⟩ := bind_eq_ok.1 hb
  obtain ⟨fresh, hfresh, hcreating⟩ := ha.resolve hd
  exact hcreating.link hfresh hb

/-! ### When it has got them -/

/-- **A state that stays** is the creator of the new states from then on. -/
theorem close (h : a.Creating current base none) (hlive : b.stage? current = some .live)
    (hother : ∀ x ≠ current, b.stage? x = a.stage? x)
    (htransitions : ∀ y, b.transitionsOf y = a.transitionsOf y)
    (hcurrent : current = 0 ∨ a.Standing current) : b.Created := by
  intro x hx hstanding
  have hxa : a.Standing x := by
    by_cases hxc : x = current
    · subst hxc
      exact hcurrent.resolve_left hx
    · exact (standing_congr (hother x hxc)).1 hstanding
  rcases h.created x hx hxa (by simp) with ⟨y, hyx, hy, hylive, hyt⟩ | ⟨hbase, hxt⟩
  · exact ⟨y, hyx, (hother y hy).trans hylive, (targets_congr (htransitions y)).2 hyt⟩
  · exact ⟨current, Nat.lt_of_lt_of_le h.current_lt hbase, hlive,
      (targets_congr (htransitions current)).2 hxt⟩

/-- **A state can be retired if it only leads to states that were there** before its turn, since it
has created none. -/
theorem retireNow (h : a.Creating current base none) (hold : ∀ x, a.Targets current x → x < base)
    (forward : Option StateId) : (a.retireNow current forward).Created := by
  intro x hx hstanding
  obtain ⟨hxc, hxa⟩ := standing_retireNow.1 hstanding
  rcases h.created x hx hxa (by simp) with ⟨y, hyx, hy, hlive, hyt⟩ | ⟨hbase, hxt⟩
  · refine ⟨y, hyx, ?_, (targets_congr ?_).2 hyt⟩
    · rw [stage?_retireNow, hlive]
      simp [hy]
    · rw [transitionsOf_retireNow, if_neg hy]
  · exact absurd (hold x hxt) (Nat.not_lt.2 hbase)

end Creating

/-- **Before its turn** a pending state has created nothing. -/
theorem Listed.creating (h : a.Listed) (hcreated : a.Created)
    (hid : a.slot? id = some ⟨.pending, s⟩) : a.Creating id a.slots.size none where
  current_lt := lt_size_of_slot? hid
  base_le := Nat.le_refl _
  fresh_new x hx := by contradiction
  older y _ x hx := by
    obtain ⟨t, ht, rfl⟩ := hx
    cases hy : a.slot? y with
    | none =>
      rw [transitionsOf, hy] at ht
      exact absurd ht List.not_mem_nil
    | some l =>
      obtain ⟨m, hm⟩ :=
        Option.isSome_iff_exists.1 (h.target_some y l hy t (transitionsOf_eq hy ▸ ht))
      exact lt_size_of_slot? hm
  created x hx hstanding _ := by
    obtain ⟨y, hyx, hlive, hyt⟩ := hcreated x hx hstanding
    refine .inl ⟨y, hyx, ?_, hlive, hyt⟩
    rintro rfl
    cases (stage?_eq hid).symm.trans hlive

/-- **From creator to creator** the way leads back to the first state. -/
theorem Created.reaches (h : a.Created) (hs : a.LiveAt x s) :
    Relation.ReflTransGen a.Leads 0 x := by
  induction x using Nat.strong_induction_on generalizing s with
  | _ x ih =>
    by_cases hx : x = 0
    · subst hx
      exact .refl
    · obtain ⟨y, hyx, hy, r, hr, rfl⟩ := h x hx (.inr (stage?_eq hs))
      obtain ⟨t, ht⟩ := stage?_eq_some.1 hy
      rw [transitionsOf_eq ht] at hr
      exact (ih y hyx ht).tail ⟨t, ht, r, hr, hs.destination?_eq⟩

end Arena

namespace Construction

variable {g : Generalized} {id : StateId} {onTheFly : Bool} {p q start result : Progress}

/-! ### Constructions -/

/-- **A turn leaves every state with a creator**, whatever becomes of the one that is taken. -/
theorem Building.created_turn (h : Building g none none [] p.arena) (hp : p.arena.Created)
    (hpq : Turn g onTheFly p q) : q.arena.Created := by
  obtain ⟨id, a, hpop, hq⟩ := hpq
  obtain ⟨ha, ⟨s, hs, hincoming⟩, -⟩ := h.popPending hpop
  have hcreated : a.Created := by
    unfold Arena.popPending at hpop
    split at hpop
    · contradiction
    · cases hpop
      exact hp
  obtain ⟨r, b, -, hb, hsettle⟩ := visit_eq_ok (p := ⟨a, p.stats⟩) hs hincoming hq
  have hcreating : b.Creating id a.slots.size none :=
    (ha.registered.toListed.creating hcreated hs).addMoves hb
  obtain ⟨⟨_, t⟩, ht, rfl, -⟩ := (ha.addMoves hb).2.slot id _ hs
  obtain ⟨-, hb' | ⟨hnil, hb'⟩ | ⟨y, u, c, hu, hmatch, hc, hb'⟩⟩ :=
    settle_eq_ok (p := ⟨b, p.stats⟩) (ha.addMoves hb).1.registered.toListed.pooled ht hsettle
  · rw [hb']
    refine hcreating.close ?_ (fun x hx => ?_) (transitionsOf_promoteNow ht)
      (.inr (.inl (stage?_eq ht)))
    · rw [stage?_promoteNow ht, if_pos rfl]
    · rw [stage?_promoteNow ht, if_neg hx]
  · rw [hb']
    refine hcreating.retireNow (fun x hx => ?_) none
    obtain ⟨u, hu, -⟩ := hx
    rw [transitionsOf_eq ht, hnil] at hu
    exact absurd hu List.not_mem_nil
  · have hne : y ≠ id := by
      rintro rfl
      cases ht.symm.trans hu
    have hsame (x : StateId) (hx : b.Targets id x) : b.Targets y x := by
      obtain ⟨v, hv, hvx⟩ := hx
      rw [transitionsOf_eq ht] at hv
      exact ⟨v, transitionsOf_eq hu ▸ ((State.matchesIn_iff.1 hmatch).2 v).1 hv, hvx⟩
    obtain ⟨-, -, htransitions⟩ := releases_keeps hc
    have hcreating' : c.Creating id a.slots.size none :=
      releases_induction hc (fun _ x r hd => hd.recount x r) hcreating
    rw [hb']
    exact hcreating'.retireNow (fun x hx =>
      hcreating.older y hne x (hsame x ((targets_congr (htransitions id)).1 hx))) (some y)

/-- The states that the initial one leads to are created by it. -/
theorem begin_created (hr : begin g onTheFly = .ok (id, start)) : start.arena.Created := by
  obtain ⟨-, hbuilding, -⟩ := begin_eq_ok hr
  obtain ⟨b, hb, hr⟩ := bind_eq_ok.1 hr
  obtain ⟨s, -, hr⟩ := bind_eq_ok.1 hr
  cases hr
  have hnone {x : StateId} (hx : x ≠ 0) :
      (Arena.empty.addInitial initialIdentity 0).2.slot? x = none := by
    rw [slot?_addInitial_empty, if_neg hx]
  have hempty : (Arena.empty.addInitial initialIdentity 0).2.Creating 0 1 none := by
    refine ⟨Nat.one_pos, Nat.le_refl 1, by simp, fun y hy x hx => ?_, fun x hx hstanding _ => ?_⟩
    · obtain ⟨t, ht, -⟩ := hx
      rw [transitionsOf, hnone hy] at ht
      exact absurd ht List.not_mem_nil
    · rw [Standing, stage?, hnone hx] at hstanding
      simp at hstanding
  have hcreating : b.Creating 0 1 none :=
    foldlM_induction (P := fun _ a => a.Creating 0 1 none) hb hempty
      fun _ _ _ _ ha hb => ha.addMoves hb
  obtain ⟨t, ht⟩ := hbuilding.registered.initial
  exact hcreating.close (stage?_eq ht) (fun _ _ => rfl) (fun _ => rfl) (.inl rfl)

/-- **All turns together** leave every state with a creator. -/
theorem Building.created_turns (h : Building g none none [] p.arena) (hp : p.arena.Created)
    (hpq : Relation.ReflTransGen (Turn g onTheFly) p q) : q.arena.Created := by
  induction hpq with
  | refl => exact hp
  | tail hturns hstep ih => exact (h.turns hturns).1.created_turn ih hstep

theorem explore_created (hr : explore g onTheFly = .ok (id, result)) : result.arena.Created := by
  obtain ⟨start, hstart, hturns⟩ := explore_turns hr
  obtain ⟨-, hbuilding, -⟩ := begin_eq_ok hstart
  exact hbuilding.created_turns (begin_created hstart) hturns

end Construction

end OmegaAutomata
