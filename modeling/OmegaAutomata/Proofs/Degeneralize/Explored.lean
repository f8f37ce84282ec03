/-
# No pair is explored twice

A turn of a construction explores the state that it takes, for the pair that the state was created
for, unless it frees the state unexplored.  `Explores` is a sequence of turns together with the
pairs that were explored, in order; it has no bound on the number of turns.

A pair that was explored has a state that is not pending any more (`Arena.Dealt`), and stays so.
The state that is taken is still pending, and different states were created for different pairs,
so its pair was not explored before (`Explores.explored`).  Each turn makes a state live, merges it
or retires it, so the pairs that were explored are as many as the states that were counted.
-/

import OmegaAutomata.Proofs.Arena.Bookkeeping
import OmegaAutomata.Proofs.Degeneralize.Turns

namespace OmegaAutomata

open Arena

namespace Arena

variable {a b : Arena} {id : StateId} {s : State} {l : Slot} {n : Nat × Nat}
  {forward : Option StateId}

/-- Taking a state changes nothing but the list of pending states. -/
theorem popPending_eq_some (h : a.popPending = some (id, b)) :
    (∀ x, b.slot? x = a.slot? x) ∧ b.live = a.live := by
  unfold popPending at h
  split at h
  · contradiction
  · cases h
    exact ⟨fun _ => rfl, rfl⟩

/-! ### Pairs that were dealt with -/

/-- Whether the state that was created for a pair is not pending any more. -/
def Dealt (a : Arena) (n : Nat × Nat) : Prop :=
  ∃ x l, a.slot? x = some l ∧ l.state.node = some n ∧ l.stage ≠ .pending

/-- What keeps stages and pairs keeps what was dealt with. -/
theorem Dealt.extends (h : a.Dealt n) (hab : Arena.Extends a b) : b.Dealt n := by
  obtain ⟨x, l, hl, hn, hstage⟩ := h
  obtain ⟨m, hm, hmstage, hfixed⟩ := hab.slot x l hl
  exact ⟨x, m, hm, (Slot.node_eq_of_fixed hfixed).trans hn, hmstage ▸ hstage⟩

theorem dealt_promoteNow (hid : a.slot? id = some ⟨.pending, s⟩) :
    (a.promoteNow id s).Dealt n ↔ s.node = some n ∨ a.Dealt n := by
  constructor
  · rintro ⟨x, l, hl, hn, hstage⟩
    rw [slot?_promoteNow hid] at hl
    split at hl
    · cases hl
      exact .inl hn
    · exact .inr ⟨x, l, hl, hn, hstage⟩
  · rintro (hn | ⟨x, l, hl, hn, hstage⟩)
    · exact ⟨id, ⟨.live, s⟩, by rw [slot?_promoteNow hid, if_pos rfl], hn, by simp⟩
    · have hne : x ≠ id := by
        rintro rfl
        cases hid.symm.trans hl
        exact hstage rfl
      exact ⟨x, l, by rw [slot?_promoteNow hid, if_neg hne, hl], hn, hstage⟩

theorem Dealt.retireNow (h : a.Dealt n) (id : StateId) (forward : Option StateId) :
    (a.retireNow id forward).Dealt n := by
  obtain ⟨x, l, hl, hn, hstage⟩ := h
  refine ⟨x, afterRetiring id forward x l, by rw [slot?_retireNow, hl, Option.map_some], ?_⟩
  unfold afterRetiring
  split
  · exact ⟨hn, by simp⟩
  · split
    · exact ⟨hn, by simp⟩
    · exact ⟨hn, hstage⟩

theorem dealt_retireNow (hid : a.slot? id = some l) (hn : l.state.node = some n)
    (forward : Option StateId) : (a.retireNow id forward).Dealt n := by
  refine ⟨id, afterRetiring id forward id l, by rw [slot?_retireNow, hid, Option.map_some], ?_⟩
  rw [afterRetiring, if_pos rfl]
  exact ⟨hn, by simp⟩

end Arena

namespace Construction

variable {g : Generalized} {a b : Arena} {id : StateId} {s : State} {l : Slot} {n : Nat × Nat}
  {ns : List (Nat × Nat)} {onTheFly : Bool} {p q start result : Progress} {bound : Nat}

/-- Turns lead from `start` to a construction, and the states that they explored were created for
the pairs of a list, in order.  A turn that frees a state explores nothing. -/
inductive Explores (g : Generalized) (onTheFly : Bool) (start : Progress) :
    List (Nat × Nat) → Progress → Prop where
  | refl : Explores g onTheFly start [] start
  | explore {ns : List (Nat × Nat)} {p q : Progress} {id : StateId} {a : Arena} {s : State}
      {n : Nat × Nat} : Explores g onTheFly start ns p → p.arena.popPending = some (id, a) →
      a.state id = .ok s → s.incoming ≠ 0 → s.node = some n →
      exploreState g onTheFly ⟨a, p.stats⟩ id = .ok q → Explores g onTheFly start (ns ++ [n]) q
  | discard {ns : List (Nat × Nat)} {p q : Progress} {id : StateId} {a : Arena} {s : State} :
      Explores g onTheFly start ns p → p.arena.popPending = some (id, a) →
      a.state id = .ok s → s.incoming = 0 →
      visit g onTheFly ⟨a, p.stats⟩ id = .ok q → Explores g onTheFly start ns q

/-! ### One turn -/

/-- Lowering counts keeps stages and pairs. -/
theorem extends_of_releases {ids : List StateId}
    (h : ids.foldlM (fun a target => release a target 1) a = .ok b) : Arena.Extends a b :=
  releases_induction (P := Arena.Extends a) h
    (fun c x _ hc => hc.trans (.modify c x fun _ => ⟨rfl, rfl, rfl, rfl⟩)) (.refl a)

/-- **The pair is dealt with** at the end of a turn, whatever becomes of the state. -/
theorem settle_dealt (h : p.arena.Pooled) (hid : p.arena.slot? id = some ⟨.pending, s⟩)
    (hr : settle g onTheFly p id = .ok result) (hn : s.node = some n) :
    result.arena.Dealt n ∧ ∀ m, p.arena.Dealt m → result.arena.Dealt m := by
  obtain ⟨-, hb | ⟨-, hb⟩ | ⟨y, t, c, -, -, hc, hb⟩⟩ := settle_eq_ok h hid hr
  · rw [hb]
    exact ⟨(dealt_promoteNow hid).2 (.inl hn), fun m hm => (dealt_promoteNow hid).2 (.inr hm)⟩
  · rw [hb]
    exact ⟨dealt_retireNow hid hn none, fun m hm => hm.retireNow id none⟩
  · have hextends := extends_of_releases hc
    obtain ⟨l, hl, -, hfixed⟩ := hextends.slot id _ hid
    rw [hb]
    exact ⟨dealt_retireNow hl ((Slot.node_eq_of_fixed hfixed).trans hn) (some y),
      fun m hm => (hm.extends hextends).retireNow id (some y)⟩

/-- Whether a state was counted once, as a live one if it became live. -/
structure CountsOne (p result : Progress) : Prop where
  stats_eq : result.stats.states + result.stats.merged + result.stats.dead =
    p.stats.states + p.stats.merged + p.stats.dead + 1
  live_eq : result.arena.live.length + p.stats.states = p.arena.live.length + result.stats.states

/-- A state that is not live is none of the live ones that retiring it leaves. -/
theorem live_retireNow (hid : id ∉ a.live) (forward : Option StateId) :
    (a.retireNow id forward).live = a.live :=
  List.filter_eq_self.2 fun x hx => by simpa using fun heq : x = id => hid (heq ▸ hx)

theorem keep_countsOne (hr : keep p id s = .ok result) : CountsOne p result := by
  obtain ⟨b, hb, hr⟩ := bind_eq_ok.1 hr
  cases hr
  obtain ⟨_, -, rfl⟩ := promote_eq_ok hb
  refine ⟨by dsimp only; omega, ?_⟩
  show (p.arena.live ++ [id]).length + p.stats.states = p.arena.live.length + (p.stats.states + 1)
  rw [List.length_append, List.length_singleton]
  omega

theorem bury_countsOne (h : p.arena.Pooled) (hid : id ∉ p.arena.live) (hr : bury p id = .ok result) :
    CountsOne p result := by
  obtain ⟨b, hb, hr⟩ := bind_eq_ok.1 hr
  cases hr
  obtain ⟨-, -, -, rfl⟩ := h.retire_eq_ok.1 hb
  exact ⟨rfl, by rw [live_retireNow hid]⟩

theorem mergeInto_countsOne {y : StateId} (h : p.arena.Pooled) (hid : id ∉ p.arena.live)
    (hr : mergeInto p id y s = .ok result) : CountsOne p result := by
  obtain ⟨c, hc, hr⟩ := bind_eq_ok.1 hr
  obtain ⟨b, hb, hr⟩ := bind_eq_ok.1 hr
  cases hr
  obtain ⟨-, -, -, rfl⟩ := (h.releases hc).retire_eq_ok.1 hb
  have hlive : c.live = p.arena.live :=
    releases_induction (P := fun c => c.live = p.arena.live) hc (fun _ _ _ h => h) rfl
  exact ⟨by dsimp only; omega, by rw [live_retireNow (hlive ▸ hid), hlive]⟩

/-- **A turn is counted once**: as a live state, as a merged one, or as one without transitions. -/
theorem settle_countsOne (h : p.arena.Pooled) (hid : id ∉ p.arena.live)
    (hr : settle g onTheFly p id = .ok result) : CountsOne p result := by
  obtain ⟨s, hs, hr⟩ := bind_eq_ok.1 hr
  split at hr
  · split at hr
    · exact bury_countsOne h hid hr
    · rw [h.findM?_statesMatch hs, bind_ok] at hr
      split at hr
      · exact mergeInto_countsOne h hid hr
      · exact keep_countsOne hr
  · exact keep_countsOne hr

/-- Transitions that are added make no state live. -/
theorem addMoves_live {x c q : Nat} (hb : addMoves g onTheFly x c a q = .ok b) :
    b.live = a.live := by
  refine foldlM_induction (P := fun _ b => b.live = a.live) hb rfl fun t _ c d hc hd => ?_
  obtain ⟨k, -, hd⟩ := bind_eq_ok.1 hd
  obtain ⟨⟨y, e⟩, he, hd⟩ := bind_eq_ok.1 hd
  obtain ⟨l, m, r, -, -, rfl, -⟩ := link_eq_ok hd
  have helive : e.live = c.live := by
    rcases resolve_eq_ok he with ⟨-, hadd⟩ | rfl
    · exact (congrArg (fun r => r.2.live) hadd).symm
    · rfl
  exact helive.trans hc

/-! ### All turns -/

/-- What is known of the pairs that were explored: there are no repeats, their states are not
pending any more, and they are as many as the states that were counted, apart from the initial
one. -/
structure Explored (ns : List (Nat × Nat)) (p : Progress) : Prop where
  nodup : ns.Nodup
  dealt : ∀ n ∈ ns, p.arena.Dealt n
  live_eq : p.arena.live.length = p.stats.states
  stats_eq : p.stats.states + p.stats.merged + p.stats.dead = ns.length + 1

/-- **A turn explores a pair that was not explored before.** -/
theorem Explored.turn (h : Explored ns p) (hp : Building g none none [] p.arena)
    (hpop : p.arena.popPending = some (id, a)) (hs : a.state id = .ok s) (hn : s.node = some n)
    (hq : exploreState g onTheFly ⟨a, p.stats⟩ id = .ok q) : Explored (ns ++ [n]) q := by
  obtain ⟨ha, ⟨t, ht, hincoming⟩, -⟩ := hp.popPending hpop
  cases hs.symm.trans (state_eq_ok.2 ⟨_, ht⟩)
  obtain ⟨hslot, hlive⟩ := popPending_eq_some hpop
  rw [← visit_eq_exploreState (p := ⟨a, p.stats⟩) ht hincoming] at hq
  obtain ⟨r, b, -, hb, hsettle⟩ := visit_eq_ok (p := ⟨a, p.stats⟩) ht hincoming hq
  obtain ⟨hbuilding, hextends⟩ := ha.addMoves hb
  obtain ⟨⟨_, u⟩, hu, rfl, hfixed⟩ := hextends.slot id _ ht
  have hun : u.node = some n := (Slot.node_eq_of_fixed hfixed).trans hn
  have hnotlive : id ∉ b.live := by
    intro hmem
    obtain ⟨v, hv⟩ := (hbuilding.registered.mem_live id).1 hmem
    cases hu.symm.trans hv
  have hpooled : b.Pooled := hbuilding.registered.toListed.pooled
  obtain ⟨hdealt, hkept⟩ := settle_dealt (p := ⟨b, p.stats⟩) hpooled hu hsettle hun
  have hcounts := settle_countsOne (p := ⟨b, p.stats⟩) hpooled hnotlive hsettle
  -- the state that is taken is the only one of its pair, and it is still pending
  have hfresh : n ∉ ns := by
    intro hmem
    obtain ⟨x, l, hl, hln, hstage⟩ := h.dealt n hmem
    rw [← hslot] at hl
    cases ha.registered.eq_of_node hl ht (hln.trans hn.symm)
    cases hl.symm.trans ht
    exact hstage rfl
  refine ⟨h.nodup.append (List.nodup_singleton n) (by simpa using hfresh), fun m hm => ?_, ?_, ?_⟩
  · rcases List.mem_append.1 hm with hm | hm
    · obtain ⟨x, l, hl, hln, hstage⟩ := h.dealt m hm
      exact hkept m (Arena.Dealt.extends ⟨x, l, (hslot x).trans hl, hln, hstage⟩ hextends)
    · cases List.mem_singleton.1 hm
      exact hdealt
  · have heq := h.live_eq
    have hlength := hcounts.live_eq
    dsimp only at hlength
    rw [addMoves_live hb, hlive] at hlength
    omega
  · have heq := h.stats_eq
    have hsum := hcounts.stats_eq
    dsimp only at hsum
    rw [List.length_append, List.length_singleton]
    omega

/-- **No turn explores a pair again**, and none frees a state. -/
theorem Explores.explored (h : Explores g onTheFly start ns p)
    (hstart : Building g none none [] start.arena) (h0 : Explored [] start) :
    Building g none none [] p.arena ∧ Explored ns p := by
  induction h with
  | refl => exact ⟨hstart, h0⟩
  | explore _ hpop hs hincoming hn hq ih =>
    obtain ⟨hbuilding, hexplored⟩ := ih
    obtain ⟨-, ⟨t, ht, -⟩, -⟩ := hbuilding.popPending hpop
    cases hs.symm.trans (state_eq_ok.2 ⟨_, ht⟩)
    have hturn := (visit_eq_exploreState (p := ⟨_, _⟩) ht hincoming).trans hq
    exact ⟨(hbuilding.turn ⟨_, _, hpop, hturn⟩).1, hexplored.turn hbuilding hpop hs hn hq⟩
  | discard _ hpop hs hincoming _ ih =>
    obtain ⟨-, ⟨t, ht, hne⟩, -⟩ := ih.1.popPending hpop
    cases hs.symm.trans (state_eq_ok.2 ⟨_, ht⟩)
    exact absurd hincoming hne

/-- **There are no more turns than pairs** of a state and a counter. -/
theorem Explored.length_le (h : Explored ns p) (hp : Building g none none [] p.arena)
    (hg : g.InRange) : (∀ n ∈ ns, n.1 < g.states.size ∧ n.2 ≤ g.sets) ∧
      ns.length ≤ g.states.size * (g.sets + 1) := by
  have hrange (n : Nat × Nat) (hn : n ∈ ns) : n.1 < g.states.size ∧ n.2 ≤ g.sets := by
    obtain ⟨x, l, hl, hln, -⟩ := h.dealt n hn
    have hmem := hp.registered.node_mem hg hl
    rw [hln, Generalized.nodes, Finset.some_mem_insertNone, Finset.mem_product, Finset.mem_range,
      Finset.mem_range] at hmem
    exact ⟨hmem.1, Nat.le_of_lt_succ hmem.2⟩
  refine ⟨hrange, ?_⟩
  have hcard : ns.toFinset.card ≤
      (Finset.range g.states.size ×ˢ Finset.range (g.sets + 1)).card := by
    refine Finset.card_le_card fun n hn => ?_
    obtain ⟨hq, hc⟩ := hrange n (List.mem_toFinset.1 hn)
    exact Finset.mem_product.2 ⟨Finset.mem_range.2 hq, Finset.mem_range.2 (Nat.lt_succ_of_le hc)⟩
  rwa [List.toFinset_card_of_nodup h.nodup, Finset.card_product, Finset.card_range,
    Finset.card_range] at hcard

/-! ### Whole explorations -/

/-- The initial state is counted before anything is explored. -/
theorem begin_explored (hr : begin g onTheFly = .ok (id, start)) : Explored [] start := by
  obtain ⟨b, hb, hr⟩ := bind_eq_ok.1 hr
  obtain ⟨s, -, hr⟩ := bind_eq_ok.1 hr
  cases hr
  have hlive : b.live = [0] :=
    foldlM_induction (P := fun _ b => b.live = [0]) hb rfl fun _ _ _ _ hc hd =>
      (addMoves_live hd).trans hc
  exact ⟨List.nodup_nil, fun _ hn => absurd hn List.not_mem_nil, by rw [hlive]; rfl, rfl⟩

theorem Explores.drain (h : Explores g onTheFly start ns p)
    (hr : drain g onTheFly bound p = .ok result) : ∃ ns', Explores g onTheFly start ns' result := by
  induction bound generalizing ns p with
  | zero =>
    cases hr
    exact ⟨ns, h⟩
  | succ bound ih =>
    unfold Construction.drain at hr
    split at hr
    · cases hr
      exact ⟨ns, h⟩
    · rename_i id a hpop
      obtain ⟨q, hq, hr⟩ := bind_eq_ok.1 hr
      obtain ⟨s, hs, hvisit⟩ := bind_eq_ok.1 hq
      dsimp only at hs
      split at hvisit
      · exact ih (h.discard hpop hs ‹_› hq) hr
      · have hexplore := hvisit
        obtain ⟨s', hs', hvisit⟩ := bind_eq_ok.1 hvisit
        cases hs.symm.trans hs'
        split at hvisit
        · contradiction
        · rename_i q hsource
          have hn : s.node = some (q, s.counter) := by rw [State.node, hsource, Option.map_some]
          exact ih (h.explore hpop hs ‹_› hn hexplore) hr

/-- **An exploration explores some list of pairs.** -/
theorem explore_explores (hr : explore g onTheFly = .ok (id, result)) :
    ∃ start ns, begin g onTheFly = .ok (id, start) ∧ Explores g onTheFly start ns result := by
  obtain ⟨⟨x, start⟩, hstart, hr⟩ := bind_eq_ok.1 hr
  obtain ⟨_, hdrain, hr⟩ := bind_eq_ok.1 hr
  cases hr
  obtain ⟨ns, hns⟩ := Explores.refl.drain hdrain
  exact ⟨start, ns, hstart, hns⟩

end Construction

end OmegaAutomata
