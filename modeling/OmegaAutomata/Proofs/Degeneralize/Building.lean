/-
# Constructions transition by transition

`Draft` is what holds of the arena at any time of a construction.  One state may be
under way, its transitions listing a part of its edges, and no state has more
transitions than edges were dealt with (`Sized`).  `Building` also counts the
transitions that lead to each state; it allows for a fresh state to which nothing
leads yet, between its creation and the transition it was created for.

All transitions of a state of the generalized automaton together add its edges to
the list (`Building.addMoves`).
-/

import OmegaAutomata.Proofs.Degeneralize.Faithful

namespace OmegaAutomata

open Arena

variable {g : Generalized} {a b c : Arena} {id x y : StateId} {s : State} {n : Nat × Nat}
  {es : List (Label × Nat × Nat)} {current fresh : Option StateId} {onTheFly : Bool}
  {start : Nat}

/-- Whether states are still found with the same stage and built for the same node, and as many
states were created as became pending. -/
structure Arena.Extends (a b : Arena) : Prop where
  slot : ∀ x l, a.slot? x = some l → ∃ m, b.slot? x = some m ∧ m.stage = l.stage ∧ m.fixed = l.fixed
  growth : b.slots.size + a.pending.length = a.slots.size + b.pending.length

theorem Arena.Extends.refl (a : Arena) : Arena.Extends a a :=
  ⟨fun _ l hl => ⟨l, hl, rfl, rfl⟩, rfl⟩

theorem Arena.Extends.trans (hab : Arena.Extends a b) (hbc : Arena.Extends b c) :
    Arena.Extends a c where
  slot x l hl := by
    obtain ⟨m, hm, hstage, hfixed⟩ := hab.slot x l hl
    obtain ⟨m', hm', hstage', hfixed'⟩ := hbc.slot x m hm
    exact ⟨m', hm', hstage'.trans hstage, hfixed'.trans hfixed⟩
  growth := by
    have h₁ := hab.growth
    have h₂ := hbc.growth
    omega

theorem Arena.Extends.modify (a : Arena) (id : StateId) {f : State → State}
    (hf : ∀ t, (f t).source = t.source ∧ (f t).counter = t.counter ∧
      (f t).recurrence = t.recurrence ∧ (f t).identity = t.identity) :
    Arena.Extends a (a.modify id f) where
  slot x l hl := by
    rw [slot?_modify, hl]
    refine ⟨_, rfl, ?_, ?_⟩
    · split <;> rfl
    · split
      · simp only [Slot.fixed, hf]
      · rfl
  growth := by simp

/-- Whether no state has more transitions than its node has edges, and the current one at most
`n`. -/
def Arena.Sized (g : Generalized) (current : Option StateId) (n : Nat) (a : Arena) : Prop :=
  ∀ x l, a.slot? x = some l → l.state.transitions.length ≤
    if some x = current then n else (g.edges l.state.node).length

/-- The current state has no more transitions than its node has edges when all of these were dealt
with, and others have not got more. -/
theorem Arena.Sized.close {l₀ : Slot} (h : a.Sized g (some id) (g.edges l₀.state.node).length)
    (hid : a.slot? id = some l₀) (hb : ∀ x m, b.slot? x = some m → ∃ l, a.slot? x = some l ∧
      m.state.node = l.state.node ∧ m.state.transitions.length ≤ l.state.transitions.length) :
    b.Sized g none 0 := by
  intro x m hm
  obtain ⟨l, hl, hnode, hle⟩ := hb x m hm
  have hsize := h x l hl
  rw [if_neg (by simp), hnode]
  split at hsize
  · rename_i hx
    cases hx
    cases hid.symm.trans hl
    exact Nat.le_trans hle hsize
  · exact Nat.le_trans hle hsize

namespace Construction

/-- What holds of the states at any time of a construction.  The transitions of the current state
list the edges `es`. -/
structure Draft (g : Generalized) (current : Option StateId) (es : List (Label × Nat × Nat))
    (a : Arena) : Prop where
  registered : a.Registered g
  faithful : a.Faithful g current
  pending_nodup : a.pending.Nodup
  pending_state : ∀ x ∈ a.pending, ∃ s, a.slot? x = some ⟨.pending, s⟩ ∧ s.transitions = []
  pending_mem : ∀ x s, a.slot? x = some ⟨.pending, s⟩ → x ∈ a.pending ∨ some x = current
  lists : ∀ x, current = some x → x ∉ a.pending ∧
    ∃ l, a.slot? x = some l ∧ l.stage.isRetired = false ∧ a.Lists l.state.transitions es
  sized : a.Sized g current es.length

/-- What holds at any time of a construction, when the state `fresh` was just created. -/
structure Building (g : Generalized) (current fresh : Option StateId)
    (es : List (Label × Nat × Nat)) (a : Arena) : Prop extends Draft g current es a where
  counted : a.Counted fresh

/-! ### One transition -/

/-- A change of a count is no change to what a construction has come to. -/
theorem Draft.recount (h : Draft g current es a) (id : StateId) (r : Nat → Nat) :
    Draft g current es (a.recount id r) where
  registered := h.registered.modify (fun _ => ⟨rfl, rfl, rfl, rfl⟩) fun l hl =>
    h.registered.target_some id l hl
  faithful := h.faithful.modify (fun _ => ⟨rfl, rfl⟩) (.inr fun _ => rfl)
  pending_nodup := h.pending_nodup
  pending_state x hx := by
    obtain ⟨s, hs, hnil⟩ := h.pending_state x hx
    rw [Arena.recount, slot?_modify, hs, Option.map_some]
    split
    · exact ⟨_, rfl, hnil⟩
    · exact ⟨s, rfl, hnil⟩
  pending_mem x s hs := by
    obtain ⟨t, ht⟩ := stage_modify.1 ⟨s, hs⟩
    exact h.pending_mem x t ht
  lists x hx := by
    obtain ⟨hmem, l, hl, hret, hts⟩ := h.lists x hx
    have hts := hts.mono (b := a.recount id r) fun _ _ => Stands.modify
    refine ⟨hmem, _, by rw [Arena.recount, slot?_modify, hl, Option.map_some], ?_, ?_⟩
    · split
      · exact hret
      · exact hret
    · split
      · exact hts
      · exact hts
  sized x l hl := by
    rw [Arena.recount, slot?_modify, Option.map_eq_some_iff] at hl
    obtain ⟨m, hm, rfl⟩ := hl
    have hsize := h.sized x m hm
    split <;> exact hsize

/-- The transitions of the current state may become others, if these list other edges. -/
theorem Draft.setTransitions (h : Draft g (some x) es a) {ts : List Transition}
    {es' : List (Label × Nat × Nat)} (htarget : ∀ t ∈ ts, (a.slot? t.target).isSome = true)
    (hts : a.Lists ts es') (hlength : ts.length ≤ es'.length) :
    Draft g (some x) es' (a.setTransitions x ts) where
  registered := h.registered.modify (fun _ => ⟨rfl, rfl, rfl, rfl⟩) fun _ _ => htarget
  faithful := h.faithful.modify (fun _ => ⟨rfl, rfl⟩) (.inl rfl)
  pending_nodup := h.pending_nodup
  pending_state z hz := by
    obtain ⟨s, hs, hnil⟩ := h.pending_state z hz
    have hzx : z ≠ x := by
      rintro rfl
      exact (h.lists z rfl).1 hz
    exact ⟨s, by rw [Arena.setTransitions, slot?_modify_of_ne hzx, hs], hnil⟩
  pending_mem z s hs := by
    obtain ⟨t, ht⟩ := stage_modify.1 ⟨s, hs⟩
    exact h.pending_mem z t ht
  lists z hz := by
    cases hz
    obtain ⟨hmem, l, hl, hret, -⟩ := h.lists x rfl
    have hts := hts.mono (b := a.setTransitions x ts) fun _ _ => Stands.modify
    refine ⟨hmem, ⟨l.stage, { l.state with transitions := ts }⟩, ?_, hret, hts⟩
    rw [Arena.setTransitions, slot?_modify_self, hl, Option.map_some]
  sized z l hl := by
    rw [Arena.setTransitions, slot?_modify, Option.map_eq_some_iff] at hl
    obtain ⟨m, hm, rfl⟩ := hl
    by_cases hz : z = x
    · subst hz
      simpa using hlength
    · have hsize := h.sized z m hm
      have hne : some z ≠ some x := by simpa using hz
      rw [if_neg hz, if_neg hne]
      rwa [if_neg hne] at hsize

/-- A state that is created for a pair is fresh. -/
theorem Building.addPending (h : Building g current none es a) {q c : Nat}
    (hpair : (q, c) ∈ g.pairs) (hnone : a.keys[(q, c)]? = none) :
    Building g current (some a.slots.size) es (a.addPending q (g.identity q) c).2 := by
  have hnot {z : StateId} {l : Slot} (hl : a.slot? z = some l) : z ≠ a.slots.size :=
    Nat.ne_of_lt (lt_size_of_slot? hl)
  refine ⟨⟨h.registered.addPending hnone hpair, h.faithful.addPending h.registered hnone,
    ?_, fun x hx => ?_, fun x s hs => ?_, fun x hx => ?_, fun x l hl => ?_⟩,
    h.counted.addPending h.registered.toListed q (g.identity q) c⟩
  · refine List.nodup_cons.2 ⟨fun hmem => ?_, h.pending_nodup⟩
    obtain ⟨s, hs, -⟩ := h.pending_state _ hmem
    exact hnot hs rfl
  · rcases List.mem_cons.1 hx with rfl | hx
    · exact ⟨_, by rw [slot?_addPending, if_pos rfl], rfl⟩
    · obtain ⟨s, hs, hnil⟩ := h.pending_state x hx
      exact ⟨s, slot?_addPending_of_some hs, hnil⟩
  · rw [slot?_addPending] at hs
    split at hs
    · rename_i hx
      exact .inl (hx ▸ List.mem_cons_self)
    · exact (h.pending_mem x s hs).imp_left (List.mem_cons_of_mem _)
  · obtain ⟨hmem, l, hl, hret, hlists⟩ := h.lists x hx
    refine ⟨fun hcons => ?_, l, slot?_addPending_of_some hl, hret,
      hlists.mono fun _ _ hst => hst.addPending h.registered hnone⟩
    rcases List.mem_cons.1 hcons with rfl | hmem'
    · exact hnot hl rfl
    · exact hmem hmem'
  · rw [slot?_addPending] at hl
    split at hl
    · cases hl
      exact Nat.zero_le _
    · exact h.sized x l hl

theorem extends_addPending (a : Arena) (q : Nat) (i : Int) (c : Nat) :
    Arena.Extends a (a.addPending q i c).2 where
  slot x l hl := ⟨l, slot?_addPending_of_some hl, rfl, rfl⟩
  growth := by
    show (a.slots.push _).size + a.pending.length = a.slots.size + (a.pending.length + 1)
    rw [Array.size_push]
    omega

/-- **Resolving a pair** finds a state that stands for it, which may be fresh. -/
theorem Building.resolve (h : Building g current none es a) {q c : Nat}
    (hpair : (q, c) ∈ g.pairs) (hb : a.resolve q (g.identity q) c = .ok (y, b)) :
    (∃ fresh, (∀ z, fresh = some z → z = y) ∧ Building g current fresh es b) ∧
      b.Stands y (q, c) ∧ Arena.Extends a b := by
  unfold Arena.resolve at hb
  cases hkey : a.keys[(q, c)]? with
  | none =>
    rw [hkey] at hb
    have hy : a.addPending q (g.identity q) c = (y, b) := Except.ok.inj hb
    obtain rfl : a.slots.size = y := congrArg Prod.fst hy
    obtain rfl : (a.addPending q (g.identity q) c).2 = b := congrArg Prod.snd hy
    have hnew : (a.addPending q (g.identity q) c).2.keys[(q, c)]? = some a.slots.size := by
      rw [keys_addPending, if_pos rfl]
    have hslot : (a.addPending q (g.identity q) c).2.slot? a.slots.size =
        some ⟨.pending, .fresh (some q) (g.identity q) c⟩ := by
      rw [slot?_addPending, if_pos rfl]
    exact ⟨⟨some a.slots.size, fun z hz => (Option.some.inj hz).symm,
      h.addPending hpair hkey⟩, ⟨by rw [hslot]; rfl, _, hnew, rfl⟩, extends_addPending a q _ c⟩
  | some z =>
    rw [hkey] at hb
    obtain ⟨⟨stage, s⟩, hs, -⟩ := h.registered.node (q, c) z hkey
    simp only [slot_eq_ok.2 hs] at hb
    have hkept : ∃ fresh, (∀ z, fresh = some z → z = y) ∧ Building g current fresh es a :=
      ⟨none, by simp, h⟩
    have hfound : a.Stands z (q, c) := ⟨by rw [hs]; rfl, z, hkey, rfl⟩
    cases stage with
    | pending =>
      cases hb
      exact ⟨hkept, hfound, .refl a⟩
    | live =>
      cases hb
      exact ⟨hkept, hfound, .refl a⟩
    | retired f =>
      cases f with
      | none =>
        cases hb
        exact ⟨hkept, hfound, .refl a⟩
      | some f =>
        cases hb
        obtain ⟨t, ht⟩ := h.registered.forward_live z _ s hs
        refine ⟨hkept, ⟨by rw [ht]; rfl, z, hkey, ?_⟩, .refl a⟩
        rw [ht.destination?_eq, destination?_of_retired hs]

/-- **Linking the current state** to one that stands for a pair lists one more edge. -/
theorem Building.link (h : Building g (some x) fresh es a) {t : Transition}
    (hfresh : ∀ z, fresh = some z → z = t.target) (hstands : a.Stands t.target n)
    (hb : link onTheFly a x t = .ok b) :
    Building g (some x) none (es ++ [(t.label, n)]) b ∧ Arena.Extends a b := by
  have hcounted := h.counted.link hfresh hb
  obtain ⟨l, m, r, hl, hm, rfl, -⟩ := link_eq_ok hb
  obtain ⟨-, l', hl', -, hlists⟩ := h.lists x rfl
  cases hl.symm.trans hl'
  have hdraft := h.toDraft.recount t.target r
  refine ⟨⟨hdraft.setTransitions (fun u hu => ?_) ?_ ?_, hcounted⟩, ?_⟩
  · rw [isSome_recount]
    rcases List.mem_cons.1 (Transition.grow_subset u hu) with rfl | hu
    · exact hstands.1
    · exact h.registered.target_some x l hl u hu
  · exact (hlists.grow hstands onTheFly).mono fun _ _ => Stands.modify
  · have hsize := h.sized x l hl
    have hgrow := Transition.length_grow_le onTheFly t l.state.transitions
    rw [if_pos rfl] at hsize
    rw [List.length_append, List.length_singleton]
    omega
  · have hextends : Arena.Extends a (a.recount t.target r) :=
      .modify a t.target fun _ => ⟨rfl, rfl, rfl, rfl⟩
    exact hextends.trans (.modify _ x fun _ => ⟨rfl, rfl, rfl, rfl⟩)

/-- **Each transition adds an edge.** -/
theorem Building.addMove (h : Building g (some x) none es a) {q : Nat}
    {t : Generalized.Transition} (ht : t ∈ g.transitions q)
    (hb : addMove g onTheFly x start a t = .ok b) :
    Building g (some x) none (es ++ [g.edge start t]) b ∧ Arena.Extends a b := by
  obtain ⟨counter, hcounter, hb⟩ := bind_eq_ok.1 hb
  obtain ⟨hle, rfl⟩ := Counter.advance?_eq_ok.1 hcounter
  obtain ⟨⟨y, c⟩, hc, hb⟩ := bind_eq_ok.1 hb
  obtain ⟨⟨fresh, hfresh, hbuilding⟩, hstands, hextends⟩ :=
    h.resolve (Generalized.mem_pairs ht (Counter.advance_le t.acceptance hle)) hc
  obtain ⟨hbuilding', hextends'⟩ := hbuilding.link (t := ⟨y, t.label⟩) hfresh hstands hb
  exact ⟨hbuilding', hextends.trans hextends'⟩

theorem Building.foldlM_addMove {q : Nat} {ts : List Generalized.Transition}
    (hts : ∀ t ∈ ts, t ∈ g.transitions q) (h : Building g (some x) none es a)
    (hb : ts.foldlM (Construction.addMove g onTheFly x start) a = .ok b) :
    Building g (some x) none (es ++ ts.map (g.edge start)) b ∧ Arena.Extends a b := by
  rw [List.map_eq_flatMap]
  refine foldlM_append (P := fun es b => Building g (some x) none es b ∧ Arena.Extends a b) hb
    ⟨h, .refl a⟩ fun t ht es c d hc hd => ?_
  obtain ⟨hbuilding, hextends⟩ := hc.1.addMove (hts t ht) hd
  exact ⟨hbuilding, hc.2.trans hextends⟩

/-- All transitions of a state together add its edges. -/
theorem Building.addMoves (h : Building g (some x) none es a) {q : Nat}
    (hb : addMoves g onTheFly x start a q = .ok b) :
    Building g (some x) none (es ++ (g.transitions q).map (g.edge start)) b ∧ Arena.Extends a b :=
  Building.foldlM_addMove (fun _ ht => ht) h hb

end Construction

end OmegaAutomata
