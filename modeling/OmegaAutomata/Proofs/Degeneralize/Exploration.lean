/-
# Constructions state by state

A state that is taken from the pending ones gets its transitions (`visit_eq_ok`), and then it
becomes live, is retired, or is merged into a live state that matches it (`settle_eq_ok`); no other
thing can happen.  In each case it was dealt with (`Draft.close`), and the construction goes on with
the next one.

Every state that is taken was created, and no more states are created than there are
pairs.  So the bound on the number of rounds is never what ends a construction
(`Building.drain`).
-/

import OmegaAutomata.Proofs.Arena.Merge
import OmegaAutomata.Proofs.Degeneralize.Building

namespace OmegaAutomata

open Arena

namespace Construction

variable {g : Generalized} {a b : Arena} {id y : StateId} {s : State} {n : Nat}
  {es : List (Label × Nat × Nat)} {onTheFly : Bool} {p result : Progress}

/-! ### The end of a state's construction -/

/-- What is left to say when the current state was dealt with: that it is not pending any more, and
that other states still are if they were. -/
theorem Draft.close (h : Draft g (some id) es a) (hregistered : b.Registered g)
    (hfaithful : b.Faithful g none) (hsized : b.Sized g none 0) (hpending : b.pending = a.pending)
    (hslot : ∀ x s, b.slot? x = some ⟨.pending, s⟩ ↔ x ≠ id ∧ a.slot? x = some ⟨.pending, s⟩) :
    Draft g none [] b where
  registered := hregistered
  faithful := hfaithful
  pending_nodup := hpending ▸ h.pending_nodup
  pending_state x hx := by
    rw [hpending] at hx
    obtain ⟨s, hs, hnil⟩ := h.pending_state x hx
    have hid : x ≠ id := by
      rintro rfl
      exact (h.lists x rfl).1 hx
    exact ⟨s, (hslot x s).2 ⟨hid, hs⟩, hnil⟩
  pending_mem x s hs := by
    obtain ⟨hid, hs⟩ := (hslot x s).1 hs
    rcases h.pending_mem x s hs with hmem | hx
    · exact .inl (hpending ▸ hmem)
    · exact absurd (Option.some.inj hx) hid
  lists x hx := by contradiction
  sized := hsized

/-- **A state becomes live** when its transitions list all edges of its node. -/
theorem Building.promoteNow (h : Building g (some id) none (g.edges s.node) a)
    (hid : a.slot? id = some ⟨.pending, s⟩) : Building g none none [] (a.promoteNow id s) := by
  obtain ⟨-, l, hl, -, hlists⟩ := h.lists id rfl
  cases hid.symm.trans hl
  have hlive : (a.promoteNow id s).LiveAt id s := (liveAt_promoteNow hid).2 (.inl ⟨rfl, rfl⟩)
  have hfaithful : (a.promoteNow id s).Faithful g none :=
    (h.faithful.promoteNow hid).settle hlive (h.registered.counter_node hid)
      (hlists.mono fun _ _ hst => hst.promoteNow hid)
  refine ⟨h.toDraft.close (h.registered.promoteNow hid) hfaithful
    (h.sized.close hid fun x m hm => ?_) rfl fun x t => ?_, h.counted.promoteNow hid⟩
  · rw [slot?_promoteNow hid] at hm
    split at hm
    · rename_i hx
      cases hm
      exact ⟨⟨.pending, s⟩, by rw [hx, hid], rfl, Nat.le_refl _⟩
    · exact ⟨m, hm, rfl, Nat.le_refl _⟩
  · rw [slot?_promoteNow hid]
    by_cases hx : x = id
    · simp [hx]
    · simp [hx]

/-- Retiring a state takes transitions away from it. -/
theorem length_retireNow_le {f : Option StateId} {x : StateId} {m : Slot}
    (hm : (a.retireNow id f).slot? x = some m) : ∃ l, a.slot? x = some l ∧
      m.state.node = l.state.node ∧ m.state.transitions.length ≤ l.state.transitions.length := by
  rw [slot?_retireNow, Option.map_eq_some_iff] at hm
  obtain ⟨l, hl, rfl⟩ := hm
  refine ⟨l, hl, ?_⟩
  unfold afterRetiring
  split
  · exact ⟨rfl, Nat.zero_le _⟩
  · split
    · exact ⟨rfl, Nat.le_refl _⟩
    · exact ⟨rfl, Nat.le_refl _⟩

/-- **A state without transitions is retired** without replacement. -/
theorem Building.bury (h : Building g (some id) none (g.edges s.node) a)
    (hid : a.slot? id = some ⟨.pending, s⟩) (hnil : s.transitions = []) :
    Building g none none [] (a.retireNow id none) := by
  obtain ⟨-, l, hl, -, hlists⟩ := h.lists id rfl
  cases hid.symm.trans hl
  rw [hnil] at hlists
  have hcounted : (a.retireNow id none).Counted none := by
    refine h.counted.retireNow hid ?_ ?_
    · rw [State.targets, hnil]
      rfl
    · rw [hnil]
      simp
  exact ⟨h.toDraft.close (h.registered.retireNow hid (by simp))
    (h.faithful.retireNow hid (.inl ⟨rfl, hlists.eq_nil⟩))
    (h.sized.close hid fun x m => length_retireNow_le) rfl fun x t => pending_retireNow, hcounted⟩

/-- **A state is merged** into a live one that has the same transitions and the same marking. -/
theorem Building.mergeInto (h : Building g (some id) none (g.edges s.node) a)
    (hid : a.slot? id = some ⟨.pending, s⟩) {t : State} (hy : a.LiveAt y t)
    (hmatch : s.matchesIn g.sets t = true)
    (hb : s.targets.foldlM (fun a target => release a target 1) a = .ok b) :
    Building g none none [] (b.retireNow id (some y)) := by
  obtain ⟨hmark, hmem⟩ := State.matchesIn_iff.1 hmatch
  have hne : y ≠ id := by
    rintro rfl
    cases hid.symm.trans hy
  -- no state is marked as transient yet, so matching states have the same marking
  have hcounter : t.counter = g.sets ↔ s.counter = g.sets := by
    have hs : s.isFlexible = false := by rw [State.isFlexible, h.registered.unknown id _ hid]; rfl
    have ht : t.isFlexible = false := by rw [State.isFlexible, h.registered.unknown y _ hy]; rfl
    rw [hs, ht] at hmark
    exact (hmark.resolve_right (by simp)).symm
  obtain ⟨hdraft, hextends⟩ := releases_induction
    (P := fun c => Draft g (some id) (g.edges s.node) c ∧ Arena.Extends a c) hb
    (fun c x r hc => ⟨hc.1.recount x r, hc.2.trans (.modify c x fun _ => ⟨rfl, rfl, rfl, rfl⟩)⟩)
    ⟨h.toDraft, .refl a⟩
  obtain ⟨⟨_, s'⟩, hid', rfl, hs⟩ := hextends.slot id _ hid
  obtain ⟨⟨_, t'⟩, hy', rfl, ht⟩ := hextends.slot y _ hy
  obtain ⟨_, hid₀, hstransitions, -⟩ := slot?_of_releases hb hid'
  obtain ⟨_, hy₀, httransitions, -⟩ := slot?_of_releases hb hy'
  cases hid.symm.trans hid₀
  cases hy.symm.trans hy₀
  obtain ⟨-, l, hl, -, hlists⟩ := hdraft.lists id rfl
  cases hid'.symm.trans hl
  have hnode : s'.node = s.node := Slot.node_eq_of_fixed hs
  have hsized : b.Sized g (some id) (g.edges s'.node).length := hnode ▸ hdraft.sized
  have hmark' : t'.counter = g.sets ↔ s'.node.counter = g.sets := by
    simp only [Slot.fixed, Prod.mk.injEq] at ht
    rw [ht.2.1, hcounter, hnode, h.registered.counter_node hid]
  have hlists' : b.Lists t'.transitions (g.edges s'.node) := by
    rw [hnode]
    exact hlists.congr fun r => by rw [hstransitions, hmem r, httransitions]
  refine ⟨hdraft.close (hdraft.registered.retireNow hid' ?_) (hdraft.faithful.retireNow hid'
    (.inr ⟨y, t', rfl, hy', hmark', hlists'⟩)) (hsized.close hid' fun x m => length_retireNow_le)
    rfl fun x u => pending_retireNow, h.counted.retireNow hid hb fun r hr => ?_⟩
  · intro x hx
    cases hx
    exact ⟨t', hy'⟩
  · exact ⟨y, hne, r, transitionsOf_eq hy ▸ (hmem r).1 hr, rfl⟩

/-- **What becomes of a state** that has got its transitions: it becomes live, it is retired for
want of transitions, or it is merged into a live state that matches it. -/
theorem settle_eq_ok (h : p.arena.Pooled) (hid : p.arena.slot? id = some ⟨.pending, s⟩)
    (hr : settle g onTheFly p id = .ok result) :
    result.stats.unexplored = p.stats.unexplored ∧
      (result.arena = p.arena.promoteNow id s ∨
        s.transitions = [] ∧ result.arena = p.arena.retireNow id none ∨
        ∃ y t b, p.arena.LiveAt y t ∧ s.matchesIn g.sets t = true ∧
          s.targets.foldlM (fun a target => release a target 1) p.arena = .ok b ∧
            result.arena = b.retireNow id (some y)) := by
  have hkeep (hr : keep p id s = .ok result) :
      result.stats.unexplored = p.stats.unexplored ∧
        result.arena = p.arena.promoteNow id s := by
    obtain ⟨b, hb, hr⟩ := bind_eq_ok.1 hr
    cases hr
    obtain ⟨s', hs', rfl⟩ := promote_eq_ok hb
    cases hid.symm.trans hs'
    exact ⟨rfl, rfl⟩
  obtain ⟨s', hs', hr⟩ := bind_eq_ok.1 hr
  obtain ⟨stage, hs'⟩ := state_eq_ok.1 hs'
  cases hid.symm.trans hs'
  split at hr
  · split at hr
    · rename_i hempty
      obtain ⟨b, hb, hr⟩ := bind_eq_ok.1 hr
      cases hr
      obtain ⟨-, -, -, rfl⟩ := h.retire_eq_ok.1 hb
      exact ⟨rfl, .inr (.inl ⟨List.isEmpty_iff.1 hempty, rfl⟩)⟩
    · rw [h.findM?_statesMatch (state_eq_ok.2 ⟨_, hid⟩), bind_ok] at hr
      split at hr
      · rename_i y hy
        obtain ⟨c, hc, hr⟩ := bind_eq_ok.1 hr
        obtain ⟨b, hb, hr⟩ := bind_eq_ok.1 hr
        cases hr
        obtain ⟨-, -, -, rfl⟩ := (h.releases hc).retire_eq_ok.1 hb
        obtain ⟨t, ht, hmatch⟩ := matchedBy_iff.1 (List.find?_some hy)
        exact ⟨rfl, .inr (.inr ⟨y, t, c, ht, hmatch, hc, rfl⟩)⟩
      · exact (hkeep hr).imp_right .inl
  · exact (hkeep hr).imp_right .inl

/-- **Whatever is decided**, the current state was dealt with, and no state is created. -/
theorem Building.settle (h : Building g (some id) none (g.edges s.node) p.arena)
    (hid : p.arena.slot? id = some ⟨.pending, s⟩)
    (hr : settle g onTheFly p id = .ok result) :
    Building g none none [] result.arena ∧
      result.arena.slots.size = p.arena.slots.size ∧
      result.arena.pending = p.arena.pending := by
  obtain ⟨-, hb | ⟨hnil, hb⟩ | ⟨y, t, c, ht, hmatch, hc, hb⟩⟩ :=
    settle_eq_ok h.registered.toListed.pooled hid hr
  · rw [hb]
    exact ⟨h.promoteNow hid, promoteNow_size _ _ _, rfl⟩
  · rw [hb]
    exact ⟨h.bury hid hnil, retireNow_size _ _ _, rfl⟩
  · obtain ⟨hsize, hpending⟩ := releases_induction (P := fun d =>
      d.slots.size = p.arena.slots.size ∧ d.pending = p.arena.pending) hc
      (fun d x r hd => ⟨(modify_size d x _).trans hd.1, hd.2⟩) ⟨rfl, rfl⟩
    rw [hb]
    exact ⟨h.mergeInto hid ht hmatch hc, (retireNow_size _ _ _).trans hsize, hpending⟩

/-! ### One state after the other -/

/-- The latest pending state is taken, to become the current one. -/
theorem Building.popPending (h : Building g none none [] a) (hpop : a.popPending = some (id, b)) :
    Building g (some id) none [] b ∧ (∃ s, b.slot? id = some ⟨.pending, s⟩ ∧ s.incoming ≠ 0) ∧
      b.slots.size = a.slots.size ∧ a.pending.length = b.pending.length + 1 := by
  unfold Arena.popPending at hpop
  split at hpop
  · contradiction
  · rename_i rest hrest
    cases hpop
    have hnodup := h.pending_nodup
    rw [hrest, List.nodup_cons] at hnodup
    have hmem : id ∈ a.pending := hrest ▸ List.mem_cons_self
    have hrestmem (x : StateId) (hx : x ∈ rest) : x ∈ a.pending :=
      hrest ▸ List.mem_cons_of_mem id hx
    obtain ⟨s, hs, hnil⟩ := h.pending_state id hmem
    have hincoming : s.incoming ≠ 0 := by
      have hpos := h.counted.wanted id hmem (by simp)
      have heq := h.counted.references_eq id _ hs
      dsimp only at heq
      omega
    refine ⟨⟨⟨h.registered.setPending rest, ?_, hnodup.2, fun x hx => ?_, fun x t ht => ?_,
      fun x hx => ?_, fun x l hl => ?_⟩, h.counted.setPending hrestmem⟩, ⟨s, hs, hincoming⟩, rfl,
      by simp [hrest]⟩
    · exact h.faithful.setPending hs rest
    · exact h.pending_state x (hrestmem x hx)
    · rcases h.pending_mem x t ht with hx | hx
      · rcases List.mem_cons.1 (hrest ▸ hx) with rfl | hx
        · exact .inr rfl
        · exact .inl hx
      · contradiction
    · cases hx
      exact ⟨hnodup.1, _, hs, rfl, hnil ▸ .nil _⟩
    · split
      · rename_i hx
        cases hx
        cases hs.symm.trans hl
        rw [hnil]
        exact Nat.le_refl _
      · exact h.sized x l hl

/-- A state that transitions lead to is explored when it is taken. -/
theorem visit_eq_exploreState (hid : p.arena.slot? id = some ⟨.pending, s⟩) (hs : s.incoming ≠ 0) :
    visit g onTheFly p id = exploreState g onTheFly p id := by
  rw [visit, state_eq_ok.2 ⟨_, hid⟩, bind_ok, if_neg hs]

/-- **What a turn did**: it added the transitions, and then decided what becomes of the state. -/
theorem visit_eq_ok (hid : p.arena.slot? id = some ⟨.pending, s⟩) (hs : s.incoming ≠ 0)
    (hr : visit g onTheFly p id = .ok result) : ∃ q b, s.source = some q ∧
      addMoves g onTheFly id (Counter.restart g.sets s.counter) p.arena q = .ok b ∧
        settle g onTheFly ⟨b, p.stats⟩ id = .ok result := by
  rw [visit_eq_exploreState hid hs] at hr
  obtain ⟨s', hs', hr⟩ := bind_eq_ok.1 hr
  obtain ⟨stage, hs'⟩ := state_eq_ok.1 hs'
  cases hid.symm.trans hs'
  split at hr
  · contradiction
  · rename_i q hq
    obtain ⟨b, hb, hr⟩ := bind_eq_ok.1 hr
    exact ⟨q, b, hq, hb, hr⟩

/-- **A state that is taken** gets all its transitions and is dealt with. -/
theorem Building.visit (h : Building g (some id) none [] p.arena)
    (hid : p.arena.slot? id = some ⟨.pending, s⟩) (hs : s.incoming ≠ 0)
    (hr : visit g onTheFly p id = .ok result) :
    Building g none none [] result.arena ∧ result.arena.slots.size + p.arena.pending.length =
      p.arena.slots.size + result.arena.pending.length := by
  obtain ⟨q, c, hq, hc, hsettle⟩ := visit_eq_ok hid hs hr
  obtain ⟨hc, hextends⟩ := h.addMoves hc
  obtain ⟨⟨_, t⟩, ht, rfl, hfixed⟩ := hextends.slot id _ hid
  have hedges : [] ++ (g.transitions q).map (g.edge (Counter.restart g.sets s.counter)) =
      g.edges t.node := by
    rw [Slot.node_eq_of_fixed hfixed, State.node, hq, Option.map_some, Generalized.edges_some,
      List.nil_append]
  rw [hedges] at hc
  obtain ⟨hresult, hsize, hpending⟩ := Building.settle (p := ⟨c, p.stats⟩) hc ht hsettle
  have hgrowth := hextends.growth
  refine ⟨hresult, ?_⟩
  rw [hsize, hpending]
  exact hgrowth

/-- **The pending states come to an end.**  The bound on the number of rounds suffices, as there
are no more states than pairs. -/
theorem Building.drain (h : Building g none none [] p.arena)
    (hn : bound g + 1 + p.arena.pending.length ≤ n + p.arena.slots.size)
    (hr : drain g onTheFly n p = .ok result) :
    Building g none none [] result.arena ∧ result.arena.pending = [] := by
  induction n generalizing p with
  | zero =>
    cases hr
    have hsize := h.registered.size_le
    exact ⟨h, List.eq_nil_of_length_eq_zero (by omega)⟩
  | succ n ih =>
    unfold Construction.drain at hr
    split at hr
    · rename_i hpop
      cases hr
      refine ⟨h, ?_⟩
      unfold Arena.popPending at hpop
      split at hpop
      · assumption
      · contradiction
    · rename_i id c hpop
      obtain ⟨next, hnext, hr⟩ := bind_eq_ok.1 hr
      obtain ⟨hc, ⟨s, hs, hincoming⟩, hsize, hlength⟩ := h.popPending hpop
      obtain ⟨hbuilding, hgrowth⟩ := Building.visit (p := ⟨c, _⟩) hc hs hincoming hnext
      dsimp only at hgrowth
      exact ih hbuilding (by omega) hr

/-! ### From the initial state on -/

/-- The arena in which a construction begins, with the initial state only. -/
theorem slot?_addInitial_empty (x : StateId) :
    (Arena.empty.addInitial initialIdentity 0).2.slot? x =
      if x = 0 then some ⟨.live, .fresh none initialIdentity 0⟩ else none := by
  have hempty : Arena.empty.slot? x = none := slot?_eq_none_of_le (Nat.zero_le x)
  rw [← hempty]
  exact slot?_push (a := Arena.empty) rfl

theorem registered_addInitial_empty (g : Generalized) :
    (Arena.empty.addInitial initialIdentity 0).2.Registered g := by
  have hslot {x : StateId} {l : Slot}
      (hl : (Arena.empty.addInitial initialIdentity 0).2.slot? x = some l) :
      x = 0 ∧ l = ⟨.live, .fresh none initialIdentity 0⟩ := by
    rw [slot?_addInitial_empty] at hl
    split at hl
    · exact ⟨‹_›, (Option.some.inj hl).symm⟩
    · contradiction
  have hkeys (n : Nat × Nat) : (Arena.empty.addInitial initialIdentity 0).2.keys[n]? = none :=
    Std.HashMap.getElem?_empty
  have hinitial : (Arena.empty.addInitial initialIdentity 0).2.LiveAt 0
      (.fresh none initialIdentity 0) := by
    rw [LiveAt, slot?_addInitial_empty, if_pos rfl]
  refine ⟨⟨List.nodup_singleton 0, List.nodup_nil, fun x => ⟨fun hx => ?_, ?_⟩,
    fun x => ⟨?_, ?_⟩, fun x y s hs => ?_, fun x l hl t ht => ?_⟩, ⟨_, hinitial⟩, rfl, ?_,
    fun x hx => ?_, fun x l hl => ?_, fun n x hn => ?_, fun n x hn => ?_, fun x l hl => ?_,
    fun x l hl => ?_⟩
  · cases List.mem_singleton.1 hx
    exact ⟨_, hinitial⟩
  · rintro ⟨s, hs⟩
    exact List.mem_singleton.2 (hslot hs).1
  · exact fun hx => absurd hx List.not_mem_nil
  · rintro ⟨f, s, hs⟩
    cases (hslot hs).2
  · cases (hslot hs).2
  · rw [(hslot hl).2] at ht
    exact absurd ht List.not_mem_nil
  · rw [hinitial]
    rfl
  · have hsize : (Arena.empty.addInitial initialIdentity 0).2.slots.size = 1 := rfl
    have hx : x = 0 := Nat.lt_one_iff.1 (hsize ▸ hx)
    rw [slot?_addInitial_empty, if_pos hx]
    rfl
  · rw [(hslot hl).2, (hslot hl).1]
    rfl
  · rw [hkeys] at hn
    contradiction
  · rw [hkeys] at hn
    contradiction
  · rw [(hslot hl).2]
    rfl
  · rw [(hslot hl).2]
    rfl

theorem Building.addInitial_empty (g : Generalized) :
    Building g (some 0) none [] (Arena.empty.addInitial initialIdentity 0).2 where
  registered := registered_addInitial_empty g
  faithful x l hl _ hx := by
    rw [slot?_addInitial_empty, if_neg (by simpa using hx)] at hl
    contradiction
  pending_nodup := List.nodup_nil
  pending_state x hx := absurd hx List.not_mem_nil
  pending_mem x s hs := by
    rw [slot?_addInitial_empty] at hs
    split at hs
    · cases hs
    · contradiction
  lists x hx := by
    cases hx
    exact ⟨List.not_mem_nil, _, by rw [slot?_addInitial_empty, if_pos rfl], rfl, .nil _⟩
  sized x l hl := by
    rw [slot?_addInitial_empty] at hl
    split at hl
    · cases hl
      exact Nat.zero_le _
    · contradiction
  counted := by
    refine ⟨fun x l hl => ?_, fun x hx => absurd hx List.not_mem_nil⟩
    rw [references_eq_zero fun y t ht => ?_]
    · rw [slot?_addInitial_empty] at hl
      split at hl
      · cases hl
        rfl
      · contradiction
    · rw [transitionsOf, slot?_addInitial_empty] at ht
      split at ht
      · exact absurd ht List.not_mem_nil
      · exact absurd ht List.not_mem_nil

/-- The transitions of several states are added in order. -/
theorem Building.foldlM_addMoves {x : StateId} {start : Nat} {qs : List Nat}
    (h : Building g (some x) none es a)
    (hb : qs.foldlM (Construction.addMoves g onTheFly x start) a = .ok b) :
    Building g (some x) none (es ++ (qs.flatMap g.transitions).map (g.edge start)) b ∧
      Arena.Extends a b := by
  rw [List.map_flatMap]
  refine foldlM_append (P := fun es b => Building g (some x) none es b ∧ Arena.Extends a b) hb
    ⟨h, .refl a⟩ fun q _ es c d hc hd => ?_
  obtain ⟨hbuilding, hextends⟩ := hc.1.addMoves hd
  exact ⟨hbuilding, hc.2.trans hextends⟩

/-- The initial state is dealt with first. -/
theorem begin_eq_ok (hr : begin g onTheFly = .ok (id, result)) :
    id = 0 ∧ Building g none none [] result.arena ∧
      result.arena.slots.size = 1 + result.arena.pending.length := by
  obtain ⟨b, hb, hr⟩ := bind_eq_ok.1 hr
  obtain ⟨s, hs, hr⟩ := bind_eq_ok.1 hr
  cases hr
  obtain ⟨stage, hs⟩ := state_eq_ok.1 hs
  obtain ⟨h, hextends⟩ := (Building.addInitial_empty g).foldlM_addMoves hb
  obtain ⟨s', hlive⟩ := h.registered.initial
  obtain ⟨hnode, hcounter⟩ := h.registered.node_initial hlive
  have hedges : [] ++ (g.initial.flatMap g.transitions).map (g.edge 0) = g.edges s'.node := by
    rw [hnode, Generalized.edges_none, List.nil_append]
  rw [hedges] at h
  obtain ⟨-, l, hl, -, hlists⟩ := h.lists 0 rfl
  cases hlive.symm.trans hl
  have hgrowth := hextends.growth
  refine ⟨rfl, ⟨⟨h.registered, h.faithful.settle hlive (h.registered.counter_node hlive) hlists,
    h.pending_nodup, h.pending_state, fun x t ht => ?_, fun x hx => by contradiction,
    h.sized.close hlive fun x m hm => ⟨m, hm, rfl, Nat.le_refl _⟩⟩, h.counted⟩, ?_⟩
  · rcases h.pending_mem x t ht with hmem | hx
    · exact .inl hmem
    · cases hx
      cases hlive.symm.trans ht
  · dsimp only
    have hsize : (Arena.empty.addInitial initialIdentity 0).2.slots.size = 1 := rfl
    have hpending : (Arena.empty.addInitial initialIdentity 0).2.pending.length = 0 := rfl
    omega

/-- **All states were dealt with** when the exploration ends. -/
theorem explore_eq_ok (hr : explore g onTheFly = .ok (id, result)) :
    id = 0 ∧ Building g none none [] result.arena ∧ result.arena.pending = [] := by
  obtain ⟨⟨x, start⟩, hstart, hr⟩ := bind_eq_ok.1 hr
  obtain ⟨_, hdrain, hr⟩ := bind_eq_ok.1 hr
  cases hr
  obtain ⟨rfl, h, hsize⟩ := begin_eq_ok hstart
  exact ⟨rfl, h.drain (by omega) hdrain⟩

end Construction

end OmegaAutomata
