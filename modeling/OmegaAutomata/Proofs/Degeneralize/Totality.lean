/-
# Constructions never fail

What a construction looks up was created before and is not freed, and what it counts
stays in range as long as the number of edges of all nodes does (`Roomy`).  So each step
has a result: a transition (`Building.exists_addMove`), a state
(`Building.exists_visit`), and the exploration (`exists_explore`).
-/

import OmegaAutomata.Proofs.Arena.Removal
import OmegaAutomata.Proofs.Degeneralize.Budget
import OmegaAutomata.Proofs.Degeneralize.Language

namespace OmegaAutomata

open Arena

/-- Whether numbers are in range, and the edges of all nodes together can be counted. -/
structure Generalized.Roomy (g : Generalized) : Prop extends g.InRange where
  edges_le : (g.sets + 2) * g.transitionCount ≤ maxIncoming

/-- The transitions of one state that lead to another are counted. -/
theorem Arena.countTo_transitionsOf_le (a : Arena) (x y : StateId) :
    Transition.countTo (a.transitionsOf y) x ≤ a.references x := by
  by_cases hy : y < a.slots.size
  · exact Finset.single_le_sum (f := fun y => Transition.countTo (a.transitionsOf y) x)
      (fun _ _ => Nat.zero_le _) (Finset.mem_range.2 hy)
  · rw [transitionsOf, slot?_eq_none_of_le (Nat.le_of_not_lt hy)]
    exact Nat.zero_le _

namespace Construction

variable {g : Generalized} {a b : Arena} {id x y : StateId} {s : State} {l m : Slot}
  {t : Transition} {n start q : Nat} {es : List (Label × Nat × Nat)} {fresh : Option StateId}
  {p : Progress}

/-! ### One transition -/

theorem release_ok (hl : a.slot? id = some l) (hn : n ≤ l.state.incoming) :
    release a id n = .ok (a.recount id (· - n)) := by
  rw [release, state_eq_ok.2 ⟨l.stage, hl⟩, bind_ok, if_neg (Nat.not_lt.2 hn)]
  rfl

theorem retain_ok (hl : a.slot? id = some l) (hlt : l.state.incoming < maxIncoming) :
    retain a id = .ok (a.recount id (· + 1)) := by
  rw [retain, state_eq_ok.2 ⟨l.stage, hl⟩, bind_ok, if_pos hlt]
  rfl

/-- **Linking never fails** while the count of the target has room, if the transitions that lead to it
were counted. -/
theorem exists_link (hsource : a.slot? x = some l) (htarget : a.slot? t.target = some m)
    (hcounted : Transition.countTo l.state.transitions t.target ≤ m.state.incoming)
    (hroom : m.state.incoming < maxIncoming) (onTheFly : Bool) :
    ∃ b, link onTheFly a x t = .ok b := by
  rw [link, state_eq_ok.2 ⟨l.stage, hsource⟩, bind_ok]
  dsimp only
  split
  · -- the transitions that are dropped all lead to the target, so they were counted
    have hdropped : l.state.transitions.length - (t.notSubsumed l.state.transitions).length ≤
        m.state.incoming := by
      rw [Transition.countTo_notSubsumed (t := t), if_pos rfl] at hcounted
      omega
    rw [release_ok htarget hdropped, bind_ok]
    split
    · exact ⟨_, rfl⟩
    · obtain ⟨k, hk, hkle⟩ : ∃ k, (a.recount t.target (· - (l.state.transitions.length -
          (t.notSubsumed l.state.transitions).length))).slot? t.target = some k ∧
            k.state.incoming ≤ m.state.incoming := by
        rw [recount, slot?_modify_self, htarget]
        exact ⟨_, rfl, Nat.sub_le _ _⟩
      rw [retain_ok hk (Nat.lt_of_le_of_lt hkle hroom)]
      exact ⟨_, rfl⟩
  · rw [retain_ok htarget hroom]
    exact ⟨_, rfl⟩

theorem exists_resolve (h : a.Registered g) (q : Nat) (i : Int) (c : Nat) :
    ∃ r, a.resolve q i c = .ok r := by
  unfold Arena.resolve
  cases hkey : a.keys[(q, c)]? with
  | none => exact ⟨_, rfl⟩
  | some z =>
    obtain ⟨⟨stage, s⟩, hs, -⟩ := h.node (q, c) z hkey
    simp only [slot_eq_ok.2 hs]
    split
    · contradiction
    · exact ⟨_, rfl⟩
    · exact ⟨_, rfl⟩

/-- **Adding a transition never fails** while the current state lacks one. -/
theorem Building.exists_addMove (h : Building g (some x) none es a) (hg : g.Roomy)
    (hx : a.slot? x = some l) (hes : es.length < (g.edges l.state.node).length)
    (hstart : start ≤ g.sets) {u : Generalized.Transition} (hu : u ∈ g.transitions q)
    (onTheFly : Bool) : ∃ b, Construction.addMove g onTheFly x start a u = .ok b := by
  obtain ⟨⟨y, c⟩, hc⟩ := exists_resolve h.registered u.target (g.identity u.target)
    (Counter.advance g.sets u.acceptance start)
  obtain ⟨⟨fresh, -, hbuilding⟩, hstands, hextends⟩ :=
    h.resolve (Generalized.mem_pairs hu (Counter.advance_le u.acceptance hstart)) hc
  obtain ⟨l', hl', -, hfixed⟩ := hextends.slot x l hx
  obtain ⟨m, hm⟩ := Option.isSome_iff_exists.1 hstands.1
  have hroom := hbuilding.references_lt hg.toInRange hl'
    (by rwa [Slot.node_eq_of_fixed hfixed]) y
  have hcount := hbuilding.counted.references_eq y m hm
  have hcounted := c.countTo_transitionsOf_le y x
  rw [transitionsOf_eq hl'] at hcounted
  obtain ⟨b, hb⟩ := exists_link (t := ⟨y, u.label⟩) hl' hm (hcount ▸ hcounted)
    (hcount ▸ Nat.lt_of_lt_of_le hroom hg.edges_le) onTheFly
  refine ⟨b, ?_⟩
  rw [Construction.addMove, Counter.advance?_eq_ok.2 ⟨hstart, rfl⟩, bind_ok, hc, bind_ok]
  exact hb

/-- All transitions of a list can be added while the current state lacks as many. -/
theorem Building.exists_foldlM_addMove {ts : List Generalized.Transition}
    (hts : ∀ t ∈ ts, t ∈ g.transitions q) (h : Building g (some x) none es a) (hg : g.Roomy)
    (hx : a.slot? x = some l) (hes : es.length + ts.length ≤ (g.edges l.state.node).length)
    (hstart : start ≤ g.sets) (onTheFly : Bool) :
    ∃ b, ts.foldlM (Construction.addMove g onTheFly x start) a = .ok b := by
  induction ts generalizing a es l with
  | nil => exact ⟨a, rfl⟩
  | cons t ts ih =>
    rw [List.length_cons] at hes
    have ht := hts t List.mem_cons_self
    obtain ⟨b, hb⟩ := h.exists_addMove hg hx (by omega) hstart ht onTheFly
    obtain ⟨hbuilding, hextends⟩ := h.addMove ht hb
    obtain ⟨l', hl', -, hfixed⟩ := hextends.slot x l hx
    obtain ⟨c, hc⟩ := ih (fun u hu => hts u (List.mem_cons_of_mem t hu)) hbuilding hl' (by
      rw [Slot.node_eq_of_fixed hfixed, List.length_append, List.length_singleton]
      omega)
    exact ⟨c, by rw [List.foldlM_cons, hb, bind_ok, hc]⟩

/-- The transitions of several states can be added, too. -/
theorem Building.exists_foldlM_addMoves {qs : List Nat} (h : Building g (some x) none es a)
    (hg : g.Roomy) (hx : a.slot? x = some l)
    (hes : es.length + (qs.flatMap g.transitions).length ≤ (g.edges l.state.node).length)
    (hstart : start ≤ g.sets) (onTheFly : Bool) :
    ∃ b, qs.foldlM (Construction.addMoves g onTheFly x start) a = .ok b := by
  induction qs generalizing a es l with
  | nil => exact ⟨a, rfl⟩
  | cons q qs ih =>
    rw [List.flatMap_cons, List.length_append] at hes
    obtain ⟨b, hb⟩ := Building.exists_foldlM_addMove (fun _ (ht : _ ∈ g.transitions q) => ht) h hg
      hx (by omega) hstart onTheFly
    obtain ⟨hbuilding, hextends⟩ := h.addMoves hb
    obtain ⟨l', hl', -, hfixed⟩ := hextends.slot x l hx
    obtain ⟨c, hc⟩ := ih hbuilding hl' (by
      rw [Slot.node_eq_of_fixed hfixed, List.length_append, List.length_map]
      omega)
    refine ⟨c, ?_⟩
    rw [List.foldlM_cons, Construction.addMoves, hb, bind_ok, hc]

/-! ### One state -/

/-- Counts can be lowered for transitions that were counted. -/
theorem exists_releases {ids : List StateId}
    (h : ∀ x ∈ ids, ∃ l, a.slot? x = some l ∧ ids.count x ≤ l.state.incoming) :
    ∃ b, ids.foldlM (fun a target => release a target 1) a = .ok b := by
  induction ids generalizing a with
  | nil => exact ⟨a, rfl⟩
  | cons x ids ih =>
    obtain ⟨l, hl, hle⟩ := h x List.mem_cons_self
    rw [List.count_cons_self] at hle
    obtain ⟨b, hb⟩ := ih (a := a.recount x (· - 1)) fun y hy => by
      obtain ⟨m, hm, hmle⟩ := h y (List.mem_cons_of_mem x hy)
      rw [recount, slot?_modify, hm, Option.map_some]
      refine ⟨_, rfl, ?_⟩
      split
      · rename_i hyx
        cases hyx
        rw [List.count_cons_self] at hmle
        exact Nat.le_sub_of_add_le hmle
      · exact Nat.le_trans (List.count_le_count_cons) hmle
    exact ⟨b, by rw [List.foldlM_cons, release_ok hl (by omega), bind_ok, hb]⟩

theorem exists_bury (h : p.arena.Pooled) (hid : p.arena.slot? id = some ⟨.pending, s⟩) :
    ∃ r, bury p id = .ok r := by
  rw [bury, h.retire_eq_ok.2 ⟨by simp, by simp, ⟨⟨_, hid, rfl⟩, rfl⟩⟩]
  exact ⟨_, rfl⟩

theorem exists_keep (hid : p.arena.slot? id = some ⟨.pending, s⟩) : ∃ r, keep p id s = .ok r := by
  rw [keep, Arena.promote, slot_eq_ok.2 hid]
  exact ⟨_, rfl⟩

/-- Merging never fails, as the transitions of the state were counted. -/
theorem Building.exists_mergeInto (h : Building g (some id) none es p.arena)
    (hid : p.arena.slot? id = some ⟨.pending, s⟩) (hy : ∃ t, p.arena.LiveAt y t) :
    ∃ r, Construction.mergeInto p id y s = .ok r := by
  have hcounted (x : StateId) (hx : x ∈ s.targets) :
      ∃ l, p.arena.slot? x = some l ∧ s.targets.count x ≤ l.state.incoming := by
    obtain ⟨t, ht, rfl⟩ := List.mem_map.1 hx
    obtain ⟨l, hl⟩ := Option.isSome_iff_exists.1 (h.registered.target_some id _ hid t ht)
    have hle := countTo_transitionsOf_le p.arena t.target id
    rw [transitionsOf_eq hid, h.counted.references_eq _ _ hl] at hle
    exact ⟨l, hl, hle⟩
  obtain ⟨b, hb⟩ := exists_releases hcounted
  obtain ⟨⟨s', hid'⟩, t', hy'⟩ := releases_induction (P := fun c =>
    (∃ s, c.slot? id = some ⟨.pending, s⟩) ∧ ∃ t, c.LiveAt y t) hb
    (fun c x r hc => ⟨stage_modify.2 hc.1, stage_modify.2 hc.2⟩) ⟨⟨s, hid⟩, hy⟩
  have hne : some y ≠ some id := by
    intro heq
    cases heq
    cases hid'.symm.trans hy'
  have hpooled := h.registered.toListed.pooled.releases hb
  rw [Construction.mergeInto, hb, bind_ok,
    hpooled.retire_eq_ok.2 ⟨hne, fun z hz => ?_, ⟨_, hid', rfl⟩, rfl⟩]
  · exact ⟨_, rfl⟩
  · cases hz
    exact ⟨_, hy', rfl⟩

/-- **Dealing with a state never fails** when it has got its transitions. -/
theorem Building.exists_settle (h : Building g (some id) none es p.arena)
    (hid : p.arena.slot? id = some ⟨.pending, s⟩) (onTheFly : Bool) :
    ∃ r, Construction.settle g onTheFly p id = .ok r := by
  rw [Construction.settle, state_eq_ok.2 ⟨_, hid⟩, bind_ok]
  have hpooled : p.arena.Pooled := h.registered.toListed.pooled
  split
  · split
    · exact exists_bury hpooled hid
    · rw [hpooled.findM?_statesMatch (state_eq_ok.2 ⟨_, hid⟩), bind_ok]
      split
      · rename_i y hy
        obtain ⟨t, ht, -⟩ := matchedBy_iff.1 (List.find?_some hy)
        exact h.exists_mergeInto hid ⟨t, ht⟩
      · exact exists_keep hid
  · exact exists_keep hid

/-- A pending state was built for a pair. -/
theorem Building.exists_source (h : Building g (some id) none es a)
    (hid : a.slot? id = some ⟨.pending, s⟩) : ∃ q, s.source = some q := by
  cases hs : s.source with
  | some q => exact ⟨q, rfl⟩
  | none =>
    obtain ⟨t, ht⟩ := h.registered.initial
    cases (h.registered.eq_zero_iff hid).2 hs
    cases hid.symm.trans ht

/-- **A state that is taken** never fails to be dealt with. -/
theorem Building.exists_visit (h : Building g (some id) none [] p.arena) (hg : g.Roomy)
    (hid : p.arena.slot? id = some ⟨.pending, s⟩) (hs : s.incoming ≠ 0)
    (onTheFly : Bool) : ∃ r, Construction.visit g onTheFly p id = .ok r := by
  obtain ⟨q, hq⟩ := h.exists_source hid
  have hnode : s.node = some (q, s.counter) := by rw [State.node, hq, Option.map_some]
  obtain ⟨b, hb⟩ := Building.exists_foldlM_addMove (fun _ (ht : _ ∈ g.transitions q) => ht) h hg
    hid (by
      dsimp only
      rw [hnode, g.length_edges_some, List.length_nil, Nat.zero_add])
    (Counter.restart_le (h.registered.counter_le hid)) onTheFly
  obtain ⟨hbuilding, hextends⟩ := h.addMoves hb
  obtain ⟨⟨_, s'⟩, hid', rfl, -⟩ := hextends.slot id _ hid
  obtain ⟨r, hr⟩ := Building.exists_settle (p := ⟨b, p.stats⟩) hbuilding hid' onTheFly
  refine ⟨r, ?_⟩
  rw [Construction.visit, state_eq_ok.2 ⟨_, hid⟩, bind_ok, if_neg hs, exploreState,
    state_eq_ok.2 ⟨_, hid⟩, bind_ok, hq]
  dsimp only
  rw [Construction.addMoves, hb, bind_ok, hr]

/-! ### All states -/

theorem Building.exists_drain (h : Building g none none [] p.arena) (hg : g.Roomy)
    (onTheFly : Bool) (n : Nat) : ∃ r, Construction.drain g onTheFly n p = .ok r := by
  induction n generalizing p with
  | zero => exact ⟨p, rfl⟩
  | succ n ih =>
    unfold Construction.drain
    split
    · exact ⟨p, rfl⟩
    · rename_i id c hpop
      obtain ⟨hc, ⟨s, hs, hincoming⟩, -⟩ := h.popPending hpop
      obtain ⟨r, hr⟩ := Building.exists_visit (p := ⟨c, p.stats⟩) hc hg hs hincoming onTheFly
      obtain ⟨hbuilding, -⟩ := Building.visit (p := ⟨c, p.stats⟩) hc hs hincoming hr
      rw [hr, bind_ok]
      exact ih hbuilding

theorem exists_begin (hg : g.Roomy) (onTheFly : Bool) : ∃ r, begin g onTheFly = .ok r := by
  have hinitial : (Arena.empty.addInitial initialIdentity 0).2.slot? 0 =
      some ⟨.live, .fresh none initialIdentity 0⟩ := by
    rw [slot?_addInitial_empty, if_pos rfl]
  have hroom : ([] : List (Label × Nat × Nat)).length + (g.initial.flatMap g.transitions).length ≤
      (g.edges (State.fresh none initialIdentity 0).node).length :=
    Nat.le_of_eq (by simp [State.node, State.fresh, Generalized.edges, Generalized.heads])
  obtain ⟨b, hb⟩ := (Building.addInitial_empty g).exists_foldlM_addMoves hg hinitial hroom
    (Nat.zero_le _) onTheFly
  obtain ⟨-, hextends⟩ := (Building.addInitial_empty g).foldlM_addMoves hb
  obtain ⟨l, hl, -⟩ := hextends.slot 0 _ hinitial
  exact ⟨_, bind_eq_ok.2 ⟨b, hb, bind_eq_ok.2 ⟨_, state_eq_ok.2 ⟨l.stage, hl⟩, rfl⟩⟩⟩

/-- **Exploring never fails.** -/
theorem exists_explore (hg : g.Roomy) (onTheFly : Bool) : ∃ r, explore g onTheFly = .ok r := by
  obtain ⟨⟨id, p⟩, hp⟩ := exists_begin hg onTheFly
  obtain ⟨-, hbuilding, -⟩ := begin_eq_ok hp
  obtain ⟨r, hr⟩ := hbuilding.exists_drain hg onTheFly (bound g)
  exact ⟨(id, r), bind_eq_ok.2 ⟨_, hp, bind_eq_ok.2 ⟨r, hr, rfl⟩⟩⟩

end Construction

/-- **Redirecting never fails** after an exploration: what is built has the live states, less those
that lost all of their transitions. -/
theorem exists_build_of_explore {g : Generalized} {options : Options} {id : StateId}
    {p : Construction.Progress} (h : Construction.explore g options.onTheFly = .ok (id, p)) :
    ∃ b stats n, build g options = .ok (b, stats) ∧ stats = { p.stats with cascaded := n } ∧
      b.arena.live.length + n = p.arena.live.length := by
  obtain ⟨-, hbuilding, hpending⟩ := Construction.explore_eq_ok h
  obtain ⟨n, a, ha, hremoves⟩ := (hbuilding.valid hpending).removes_redirect (some id)
  exact ⟨_, _, n, bind_eq_ok.2 ⟨_, h, bind_eq_ok.2 ⟨_, bind_eq_ok.2 ⟨_, ha, rfl⟩, rfl⟩⟩, rfl,
    hremoves.length_eq⟩

/-- **Building never fails** for an automaton whose edges can be counted. -/
theorem exists_build {g : Generalized} (hg : g.Roomy) (options : Options) :
    ∃ b stats, build g options = .ok (b, stats) := by
  obtain ⟨⟨id, p⟩, hp⟩ := Construction.exists_explore hg options.onTheFly
  obtain ⟨b, stats, -, hb, -⟩ := exists_build_of_explore hp
  exact ⟨b, stats, hb⟩

end OmegaAutomata
