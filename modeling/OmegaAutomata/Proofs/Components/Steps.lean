/-
# The steps of a search for strong components

An edge or a root is dealt with in two moves.  First the end of it is met
(`Tracked.meet`), or the low link of the current node is lowered (`Tracked.lower`), or
nothing is to be done; then the edge or root is settled (`Tracked.settle`,
`Tracked.settle_root`).  `Invariant.follow` and `Invariant.tryRoot` put the moves
together.
-/

import OmegaAutomata.Proofs.Components.Invariant
import OmegaAutomata.Proofs.Fallible

namespace OmegaAutomata

namespace Search

variable {n : Nat} {successors : Nat → Except Fault (List Nat)} {roots todo : List Nat}
  {path inner outer rest : List (Part n)} {s : Search n} {g p : Part n} {u v : Fin n}
  {w r : Nat} {out : List Nat}

/-! ### Meeting a node -/

/-- The part of a node that was just met. -/
def Part.fresh (v : Fin n) (out : List Nat) (rank : Nat) : Part n :=
  ⟨⟨v, out.toArray, 0⟩, out, rank, rank, []⟩

/-- What was met before keeps its rank and low link when a new node is met. -/
theorem Tracked.meet_eq (h : Tracked successors roots todo path s) (hv : s.rank.get v = none)
    (hu : u ∈ s.stack) : (s.meet v out).rank.get u = s.rank.get u ∧
      (s.meet v out).lowlink.get u = s.lowlink.get u := by
  have hne : u ≠ v := fun heq => (h.of_rank_eq_none hv).1 (heq ▸ hu)
  exact ⟨(get_set ..).trans (if_neg hne), (get_set ..).trans (if_neg hne)⟩

theorem meet_self (s : Search n) (v : Fin n) (out : List Nat) :
    (s.meet v out).rank.get v = some s.counter ∧ (s.meet v out).lowlink.get v = some s.counter :=
  ⟨(get_set ..).trans (if_pos rfl), (get_set ..).trans (if_pos rfl)⟩

/-- What is met after `v` was: `v`, or what was met before. -/
theorem of_meet (hu : (s.meet v out).rank.get u = some r) :
    u = v ∨ u ≠ v ∧ s.rank.get u = some r := by
  rcases eq_or_ne u v with heq | hne
  · exact .inl heq
  · exact .inr ⟨hne, ((get_set ..).trans (if_neg hne)).symm.trans hu⟩

/-- The part of a node that was just met is sound. -/
theorem sound_fresh (s : Search n) (hout : successors v = .ok out) :
    Sound successors (s.meet v out) (.fresh v out s.counter) where
  rank_eq := (meet_self s v out).1
  low_eq := (meet_self s v out).2
  low_le := Nat.le_refl _
  low_reached := ⟨v, List.mem_cons_self, (meet_self s v out).1, .refl⟩
  connected x hx y hy := by
    rw [List.mem_singleton.1 hx, List.mem_singleton.1 hy]
  pending_edge w hw := ⟨out, hout, hw⟩
  edges x hx w hw := by
    rw [List.mem_singleton.1 hx] at hw
    obtain ⟨out', hout', hw⟩ := hw
    cases hout.symm.trans hout'
    exact .inl hw

/-- The parts of the stack stay sound when a new node is met. -/
theorem Tracked.sound_meet (h : Tracked successors roots todo path s) (hv : s.rank.get v = none)
    (hg : g ∈ path) : Sound successors (s.meet v out) g := by
  have hkept (u : Fin n) (hu : u ∈ s.stack) : (s.meet v out).rank.get u = s.rank.get u ∧
      (s.meet v out).lowlink.get u = s.lowlink.get u := h.meet_eq hv hu
  obtain ⟨hrank, hlow⟩ := hkept _ (h.node_mem_stack hg)
  refine (h.sound g hg).congr hrank hlow (fun u hu hr => ?_) ?_
  · exact ⟨List.mem_cons_of_mem v hu, (h.meet_eq hv hu).1.trans hr⟩
  · rintro w ⟨u, hw, hc | ⟨hu, r, hr, hle⟩⟩
    · exact ⟨u, hw, .inl hc⟩
    · exact ⟨u, hw, .inr ⟨List.mem_cons_of_mem v hu, r, (h.meet_eq hv hu).1.trans hr, hle⟩⟩

/-- **Meeting a node**, which is reached from all of the stack and from a root. -/
theorem Tracked.meet (h : Tracked successors roots todo path s) (hv : s.rank.get v = none)
    (hout : successors v = .ok out) (hstack : ∀ x ∈ s.stack, Reaches successors x v)
    (hroot : ∃ x ∈ roots, Reaches successors x v) :
    Tracked successors roots todo (.fresh v out s.counter :: path) (s.meet v out) where
  calls_eq := congrArg _ h.calls_eq
  stack_eq := congrArg _ h.stack_eq
  ranked u hu := by
    rcases List.mem_cons.1 hu with rfl | hu
    · exact ⟨_, (meet_self s u out).1, Nat.lt_succ_self _⟩
    · obtain ⟨r, hr, hlt⟩ := h.ranked u hu
      exact ⟨r, (h.meet_eq hv hu).1.trans hr, Nat.lt_succ_of_lt hlt⟩
  sorted := by
    refine List.pairwise_cons.2 ⟨fun l hl r k hr hk => ?_, h.sorted.imp_of_mem ?_⟩
    · obtain ⟨k', hk', hlt⟩ := h.ranked l hl
      cases (meet_self s v out).1.symm.trans hr
      cases hk.symm.trans ((h.meet_eq hv hl).1.trans hk')
      exact hlt
    · intro x y hx hy hxy r k hr hk
      exact hxy r k ((h.meet_eq hv hx).1.symm.trans hr) ((h.meet_eq hv hy).1.symm.trans hk)
  onStack_iff u := by
    have hset : (s.meet v out).onStack.get u = if u = v then true else s.onStack.get u := get_set ..
    rw [hset]
    show _ ↔ u ∈ v :: s.stack
    rw [List.mem_cons, ← h.onStack_iff u]
    split <;> simp [*]
  met_cases u r hu := by
    rcases of_meet hu with rfl | ⟨-, hu⟩
    · exact .inl List.mem_cons_self
    · exact (h.met_cases u r hu).imp_left (List.mem_cons_of_mem v)
  of_component u c hc := by
    obtain ⟨hnot, r, hr⟩ := h.of_component u c hc
    have hne : u ≠ v := fun heq => absurd (hv.symm.trans (heq ▸ hr)) (by simp)
    refine ⟨fun hmem => ?_, r, ((get_set ..).trans (if_neg hne)).trans hr⟩
    exact (List.mem_cons.1 hmem).elim hne hnot
  sound g hg := by
    rcases List.mem_cons.1 hg with rfl | hg
    · exact sound_fresh s hout
    · exact h.sound_meet hv hg
  below := by
    refine List.pairwise_cons.2 ⟨fun l hl x hx y hy => ?_, h.below⟩
    obtain ⟨g, hg, rfl⟩ := List.mem_map.1 hl
    rw [List.mem_singleton.1 hy]
    exact hstack x (h.mem_stack.2 ⟨g, hg, hx⟩)
  completed := h.completed
  reached :=
    { of_met := fun u r hu => by
        rcases of_meet hu with rfl | ⟨-, hu⟩
        · exact hroot
        · exact h.reached.of_met u r hu
      of_todo := h.reached.of_todo
      root_cases := fun x hx => by
        refine (h.reached.root_cases x hx).imp_right ?_
        rintro ⟨u, hu, r, hr⟩
        have hne : u ≠ v := fun heq => absurd (hv.symm.trans (heq ▸ hr)) (by simp)
        exact ⟨u, hu, r, ((get_set ..).trans (if_neg hne)).trans hr⟩ }

/-! ### Lowering a low link -/

/-- The nodes of two calls are different. -/
theorem Tracked.node_ne_of_split (h : Tracked successors roots todo (inner ++ g :: outer) s)
    (hp : p ∈ inner ++ outer) : p.frame.node ≠ g.frame.node := by
  have hnode (l : Part n) : l.frame.node ∈ l.nodes :=
    List.mem_append_right _ (List.mem_singleton_self _)
  have hdisjoint := (List.nodup_flatMap.1 (h.stack_eq ▸ h.stack_nodup)).2
  rw [List.pairwise_append, List.pairwise_cons] at hdisjoint
  intro heq
  rcases List.mem_append.1 hp with hp | hp
  · exact hdisjoint.2.2 p hp g List.mem_cons_self (hnode p) (heq ▸ hnode g)
  · exact hdisjoint.2.1.1 p hp (hnode g) (heq ▸ hnode p)

/-- **Lowering the low link of a call's node** to the rank of a node on the stack that it
reaches. -/
theorem Tracked.lower (inner : List (Part n))
    (h : Tracked successors roots todo (inner ++ g :: outer) s)
    (hu : u ∈ s.stack) (hr : s.rank.get u = some r) (hreach : Reaches successors g.frame.node u) :
    Tracked successors roots todo (inner ++ { g with low := min g.low r } :: outer)
      (s.lower g.frame.node (some r)) := by
  have hg := h.sound g (List.mem_append_right _ List.mem_cons_self)
  have hlow : (s.lower g.frame.node (some r)).lowlink.get g.frame.node = some (min g.low r) := by
    refine ((get_set ..).trans (if_pos rfl)).trans ?_
    rw [hg.low_eq]
    rfl
  have hother {p : Part n} (hp : p ∈ inner ++ outer) (hsound : Sound successors s p) :
      Sound successors (s.lower g.frame.node (some r)) p :=
    hsound.congr rfl ((get_set ..).trans (if_neg (h.node_ne_of_split hp)))
      (fun _ hu hr => ⟨hu, hr⟩) fun _ hw => hw
  have hsound : Sound successors (s.lower g.frame.node (some r))
      { g with low := min g.low r } := by
    refine ⟨hg.rank_eq, hlow, Nat.le_trans (Nat.min_le_left _ _) hg.low_le, ?_, hg.connected,
      hg.pending_edge, fun x hx w hw => (hg.edges x hx w hw).imp_right fun hset =>
        (hset.mono (Nat.min_le_left _ _))⟩
    rcases Nat.le_total g.low r with hle | hle
    · rw [Nat.min_eq_left hle]
      exact hg.low_reached
    · rw [Nat.min_eq_right hle]
      exact ⟨u, hu, hr, hreach⟩
  refine ⟨h.calls_eq.trans (by simp), h.stack_eq.trans (by simp [Part.nodes]), h.ranked, h.sorted,
    h.onStack_iff, h.met_cases, h.of_component, fun p hp => ?_, ?_, h.completed, h.reached⟩
  · rcases List.mem_append.1 hp with hp | hp
    · exact hother (List.mem_append_left _ hp) (h.sound p (List.mem_append_left _ hp))
    · rcases List.mem_cons.1 hp with rfl | hp
      · exact hsound
      · exact hother (List.mem_append_right _ hp)
          (h.sound p (List.mem_append_right _ (List.mem_cons_of_mem _ hp)))
  · simpa [Part.nodes] using h.below

/-! ### Settling edges and roots -/

/-- An edge that was dealt with is pending no longer. -/
theorem Tracked.settle (inner : List (Part n))
    (h : Tracked successors roots todo (inner ++ g :: outer) s)
    {pending : List Nat} (hg : g.pending = w :: pending) (hw : s.Settled g.low w) :
    Tracked successors roots todo (inner ++ { g with pending := pending } :: outer) s := by
  have hsound := h.sound g (List.mem_append_right _ List.mem_cons_self)
  have hsettled : Sound successors s { g with pending := pending } := by
    refine ⟨hsound.rank_eq, hsound.low_eq, hsound.low_le, hsound.low_reached, hsound.connected,
      fun y hy => hsound.pending_edge y (hg ▸ List.mem_cons_of_mem w hy), fun x hx y hy => ?_⟩
    rcases hsound.edges x hx y hy with hy | hy
    · rcases List.mem_cons.1 (hg ▸ hy) with rfl | hy
      · exact .inr hw
      · exact .inl hy
    · exact .inr hy
  refine ⟨h.calls_eq.trans (by simp), h.stack_eq.trans (by simp [Part.nodes]), h.ranked, h.sorted,
    h.onStack_iff, h.met_cases, h.of_component, fun p hp => ?_, ?_, h.completed, h.reached⟩
  · rcases List.mem_append.1 hp with hp | hp
    · exact h.sound p (List.mem_append_left _ hp)
    · rcases List.mem_cons.1 hp with rfl | hp
      · exact hsettled
      · exact h.sound p (List.mem_append_right _ (List.mem_cons_of_mem _ hp))
  · simpa [Part.nodes] using h.below

/-- A root that was met is to be tried no longer. -/
theorem Tracked.settle_root (h : Tracked successors roots (w :: todo) path s) (hv : v.val = w)
    (hr : s.rank.get v = some r) : Tracked successors roots todo path s :=
  { h with
    reached :=
      { of_met := h.reached.of_met
        of_todo := fun x hx => h.reached.of_todo x (List.mem_cons_of_mem w hx)
        root_cases := fun x hx => by
          rcases h.reached.root_cases x hx with hx | hx
          · rcases List.mem_cons.1 hx with rfl | hx
            · exact .inr ⟨v, hv, r, hr⟩
            · exact .inl hx
          · exact .inr hx } }

/-! ### Edges and roots -/

/-- Going on to the next edge, which is not dealt with yet. -/
theorem Tracked.advance (h : Tracked successors roots todo (g :: rest) s) :
    Tracked successors roots todo ({ g with frame := g.frame.advance } :: rest)
      { s with calls := g.frame.advance :: rest.map Part.frame } := by
  have hsame {l : Part n} (hl : Sound successors s l) :
      Sound successors { s with calls := g.frame.advance :: rest.map Part.frame } l :=
    hl.congr rfl rfl (fun _ hu hr => ⟨hu, hr⟩) fun _ hw => hw
  refine ⟨rfl, h.stack_eq, h.ranked, h.sorted, h.onStack_iff, h.met_cases, h.of_component,
    fun l hl => ?_, h.below, h.completed, h.reached⟩
  rcases List.mem_cons.1 hl with rfl | hl
  · have hg := hsame (h.sound g List.mem_cons_self)
    exact ⟨hg.rank_eq, hg.low_eq, hg.low_le, hg.low_reached, hg.connected, hg.pending_edge,
      hg.edges⟩
  · exact hsame (h.sound l (List.mem_cons_of_mem g hl))

/-- An edge out of the current node leads to what all of the stack and a root reach. -/
theorem Tracked.reaches_edge (h : Tracked successors roots todo (g :: rest) s)
    (hw : Edge successors g.frame.node w) : (∀ x ∈ s.stack, Reaches successors x w) ∧
      ∃ x ∈ roots, Reaches successors x w := by
  obtain ⟨x, hx, hreach⟩ := h.reached.of_met _ _ (h.sound g List.mem_cons_self).rank_eq
  exact ⟨fun y hy => (h.reaches_current hy).tail hw, x, hx, hreach.tail hw⟩

/-- **Following an edge keeps the invariant.** -/
theorem Invariant.follow {s' : Search n} (h : Invariant successors roots (g :: rest) s)
    (hw : g.frame.successors[g.frame.next]? = some w)
    (hs : Search.follow successors { s with calls := g.frame.advance :: rest.map Part.frame }
      g.frame.node w = .ok s') : ∃ path, Invariant successors roots path s' := by
  have hpending : g.pending = w :: g.frame.advance.pending :=
    (h.pending_eq g List.mem_cons_self).trans (Frame.pending_eq_cons hw)
  have hedge : Edge successors g.frame.node w :=
    (h.sound g List.mem_cons_self).pending_edge w (hpending ▸ List.mem_cons_self)
  obtain ⟨hstack, hroot⟩ := h.reaches_edge hedge
  have hadvanced := h.toTracked.advance
  have hsound := hadvanced.sound _ List.mem_cons_self
  have hrest : ∀ p ∈ rest, p.pending = p.frame.pending := fun p hp =>
    h.pending_eq p (List.mem_cons_of_mem g hp)
  unfold Search.follow at hs
  split at hs
  · rename_i hlt
    split at hs
    · rename_i hnone
      obtain ⟨out, hout, rfl⟩ := map_eq_ok.1 hs
      have hmet := hadvanced.meet (v := ⟨w, hlt⟩) hnone hout hstack hroot
      have hlow : g.low ≤ s.counter := by
        obtain ⟨r, hr, hlt⟩ := h.ranked _ (h.node_mem_stack List.mem_cons_self)
        cases hsound.rank_eq.symm.trans hr
        exact Nat.le_trans hsound.low_le (Nat.le_of_lt hlt)
      refine ⟨_, hmet.settle [_] hpending ⟨⟨w, hlt⟩, rfl, .inr ⟨List.mem_cons_self, _,
        (meet_self ..).1, hlow⟩⟩, fun p hp => ?_⟩
      rcases List.mem_cons.1 hp with rfl | hp
      · simp [Part.fresh, Frame.pending]
      · rcases List.mem_cons.1 hp with rfl | hp
        · rfl
        · exact hrest p hp
    · rename_i r hr
      cases hs
      split
      · rename_i hon
        have hmem := (hadvanced.onStack_iff ⟨w, hlt⟩).1 hon
        have hlower := hadvanced.lower [] hmem hr (.single hedge)
        refine ⟨_, hlower.settle [] hpending ⟨⟨w, hlt⟩, rfl, .inr ⟨hmem, r, hr,
          Nat.min_le_right _ _⟩⟩, fun p hp => ?_⟩
        rcases List.mem_cons.1 hp with rfl | hp
        · rfl
        · exact hrest p hp
      · rename_i hoff
        have hclosed := (hadvanced.met_cases ⟨w, hlt⟩ r hr).resolve_left fun hmem =>
          hoff ((hadvanced.onStack_iff ⟨w, hlt⟩).2 hmem)
        refine ⟨_, hadvanced.settle [] hpending ⟨⟨w, hlt⟩, rfl, .inl hclosed⟩,
          fun p hp => ?_⟩
        rcases List.mem_cons.1 hp with rfl | hp
        · rfl
        · exact hrest p hp
  · contradiction

/-- **Trying a root keeps the invariant.** -/
theorem Invariant.tryRoot {s' : Search n} {todo : List Nat}
    (h : Invariant successors roots [] s) (hroots : s.roots = w :: todo)
    (hs : Search.tryRoot successors { s with roots := todo } w = .ok s') :
    ∃ path, Invariant successors roots path s' := by
  have htracked : Tracked successors roots (w :: todo) [] { s with roots := todo } :=
    ⟨h.calls_eq, h.stack_eq, h.ranked, h.sorted, h.onStack_iff, h.met_cases, h.of_component,
      fun _ hl => absurd hl List.not_mem_nil, h.below, h.completed, hroots ▸ h.reached⟩
  unfold Search.tryRoot at hs
  split at hs
  · rename_i hlt
    split at hs
    · rename_i hnone
      obtain ⟨out, hout, rfl⟩ := map_eq_ok.1 hs
      have hmet := htracked.meet (v := ⟨w, hlt⟩) hnone hout
        (fun _ hx => absurd (h.stack_eq ▸ hx) List.not_mem_nil)
        ⟨w, htracked.reached.of_todo w List.mem_cons_self, .refl⟩
      refine ⟨_, hmet.settle_root (v := ⟨w, hlt⟩) rfl (meet_self ..).1, fun p hp => ?_⟩
      rw [List.mem_singleton.1 hp]
      simp [Part.fresh, Frame.pending]
    · rename_i r hr
      cases hs
      exact ⟨[], htracked.settle_root (v := ⟨w, hlt⟩) rfl hr, h.pending_eq⟩
  · contradiction

end Search

end OmegaAutomata
