/-
# States and their nodes

While an automaton is constructed, every state but the initial one is found under
the pair of a state of the generalized automaton and a counter that it was built
for.  `Registered` says so, and that nothing was freed.  What it says of a state
concerns only what never changes about it, `Slot.fixed`, so that an operation keeps
it as soon as it keeps the lists in order (`Registered.congr`).

Different states were built for different pairs.  This bounds the number of states
(`Registered.size_le`).
-/

import OmegaAutomata.Degeneralize
import OmegaAutomata.Proofs.Arena.Graph
import OmegaAutomata.Proofs.Degeneralize.Unfolding
import Mathlib.Data.Finset.Card
import Mathlib.Data.List.ProdSigma

namespace OmegaAutomata

/-- The node that a state was built for. -/
def State.node (s : State) : Node :=
  s.source.map fun q => (q, s.counter)

/-- What never changes about a state during a construction. -/
def Slot.fixed (l : Slot) : Option Nat × Nat × Recurrence × Int :=
  (l.state.source, l.state.counter, l.state.recurrence, l.state.identity)

theorem Slot.node_eq_of_fixed {l m : Slot} (h : l.fixed = m.fixed) :
    l.state.node = m.state.node := by
  simp only [fixed, Prod.mk.injEq] at h
  rw [State.node, State.node, h.1, h.2.1]

theorem State.node_eq_some {s : State} {n : Nat × Nat} (h : s.node = some n) :
    s.source = some n.1 ∧ s.counter = n.2 := by
  obtain ⟨q, hq, rfl⟩ := Option.map_eq_some_iff.1 h
  exact ⟨hq, rfl⟩

namespace Generalized

variable {g : Generalized}

/-- The display id of a state that is built for a node. -/
def nodeIdentity (g : Generalized) : Node → Int
  | none => initialIdentity
  | some n => g.identity n.1

/-- The pairs that states can be built for. -/
def pairs (g : Generalized) : List (Nat × Nat) :=
  ((g.states.toList.flatMap State.transitions).map Transition.target) ×ˢ List.range (g.sets + 1)

theorem length_pairs (g : Generalized) : g.pairs.length = Construction.bound g := by
  rw [pairs, List.length_product, List.length_map, List.length_range, Construction.bound,
    transitionCount]

theorem mem_pairs {q c : Nat} {t : Transition} (ht : t ∈ g.transitions q) (hc : c ≤ g.sets) :
    (t.target, c) ∈ g.pairs :=
  List.mem_product.2 ⟨List.mem_map_of_mem (mem_flatMap_transitions ht),
    List.mem_range.2 (Nat.lt_succ_of_le hc)⟩

end Generalized

namespace Arena

variable {g : Generalized} {a b : Arena} {id x y : StateId} {s : State} {n : Nat × Nat}

/-- The state that was built for a node; the initial one was the first. -/
def built? (a : Arena) : Node → Option StateId
  | none => some 0
  | some n => a.keys[n]?

/-- What holds of the states of an arena during a construction. -/
structure Registered (g : Generalized) (a : Arena) : Prop extends Listed a where
  initial : ∃ s, a.LiveAt 0 s
  oldest : a.live.head? = some 0
  fixed_initial : (a.slot? 0).map Slot.fixed = some (none, 0, .unknown, initialIdentity)
  isSome : ∀ x < a.slots.size, (a.slot? x).isSome = true
  built : ∀ x l, a.slot? x = some l → a.built? l.state.node = some x
  node : ∀ n x, a.keys[n]? = some x → ∃ l, a.slot? x = some l ∧ l.state.node = some n
  range : ∀ n x, a.keys[n]? = some x → n ∈ g.pairs
  unknown : ∀ x l, a.slot? x = some l → l.state.recurrence = .unknown
  identity : ∀ x l, a.slot? x = some l → l.state.identity = g.nodeIdentity l.state.node

/-- **The lists are all there is to check** when an operation keeps what is fixed about states. -/
theorem Registered.congr (h : a.Registered g) (hlisted : b.Listed) (hkeys : b.keys = a.keys)
    (hsize : b.slots.size = a.slots.size)
    (hfixed : ∀ x, (b.slot? x).map Slot.fixed = (a.slot? x).map Slot.fixed)
    (hinitial : ∃ s, b.LiveAt 0 s) (holdest : b.live.head? = some 0) : b.Registered g where
  toListed := hlisted
  initial := hinitial
  oldest := holdest
  fixed_initial := (hfixed 0).trans h.fixed_initial
  isSome x hx := by
    rw [← Option.isSome_map (f := Slot.fixed), hfixed, Option.isSome_map]
    exact h.isSome x (hsize ▸ hx)
  built x l hl := by
    have hx := hfixed x
    rw [hl, Option.map_some, eq_comm, Option.map_eq_some_iff] at hx
    obtain ⟨m, hm, hml⟩ := hx
    rw [Slot.node_eq_of_fixed hml.symm, ← h.built x m hm]
    cases m.state.node with
    | none => rfl
    | some n => exact congrArg (fun keys : Std.HashMap (Nat × Nat) StateId => keys[n]?) hkeys
  node n x hn := by
    rw [hkeys] at hn
    obtain ⟨m, hm, hmn⟩ := h.node n x hn
    have hx := hfixed x
    rw [hm, Option.map_some, Option.map_eq_some_iff] at hx
    obtain ⟨l, hl, hlm⟩ := hx
    exact ⟨l, hl, (Slot.node_eq_of_fixed hlm).trans hmn⟩
  range n x hn := h.range n x (hkeys ▸ hn)
  unknown x l hl := by
    have hx := hfixed x
    rw [hl, Option.map_some, eq_comm, Option.map_eq_some_iff] at hx
    obtain ⟨m, hm, hml⟩ := hx
    have hr := h.unknown x m hm
    simp only [Slot.fixed, Prod.mk.injEq] at hml
    rw [← hml.2.2.1, hr]
  identity x l hl := by
    have hx := hfixed x
    rw [hl, Option.map_some, eq_comm, Option.map_eq_some_iff] at hx
    obtain ⟨m, hm, hml⟩ := hx
    have hi := h.identity x m hm
    rw [Slot.node_eq_of_fixed hml] at hi
    simp only [Slot.fixed, Prod.mk.injEq] at hml
    rw [← hml.2.2.2, hi]

/-- A state that was built for no pair is the initial one. -/
theorem Registered.eq_zero_of_node (h : a.Registered g) {l : Slot} (hl : a.slot? x = some l)
    (hn : l.state.node = none) : x = 0 := by
  have hx := h.built x l hl
  rw [hn] at hx
  exact (Option.some.inj hx).symm

theorem Registered.node_initial (h : a.Registered g) {l : Slot} (hl : a.slot? 0 = some l) :
    l.state.node = none ∧ l.state.counter = 0 := by
  have hfixed := h.fixed_initial
  rw [hl] at hfixed
  simp only [Option.map_some, Slot.fixed, Option.some.injEq, Prod.mk.injEq] at hfixed
  rw [State.node, hfixed.1]
  exact ⟨rfl, hfixed.2.1⟩

/-- The counter of a state is that of its node. -/
theorem Registered.counter_node (h : a.Registered g) {l : Slot} (hl : a.slot? x = some l) :
    l.state.node.counter = l.state.counter := by
  cases hn : l.state.node with
  | none =>
    cases h.eq_zero_of_node hl hn
    exact (h.node_initial hl).2.symm
  | some n => exact (State.node_eq_some hn).2.symm

/-- No counter exceeds the number of acceptance sets. -/
theorem Registered.counter_le (h : a.Registered g) {l : Slot} (hl : a.slot? x = some l) :
    l.state.counter ≤ g.sets := by
  cases hn : l.state.node with
  | none =>
    cases h.eq_zero_of_node hl hn
    rw [(h.node_initial hl).2]
    exact Nat.zero_le _
  | some n =>
    have hkey := h.built x l hl
    rw [hn] at hkey
    have hpair := (List.mem_product.1 (h.range n x hkey)).2
    rw [(State.node_eq_some hn).2]
    exact Nat.le_of_lt_succ (List.mem_range.1 hpair)

/-- The initial state is the one without a source. -/
theorem Registered.eq_zero_iff (h : a.Registered g) {l : Slot} (hl : a.slot? x = some l) :
    x = 0 ↔ l.state.source = none := by
  rw [← Option.map_eq_none_iff (f := fun q => (q, l.state.counter))]
  constructor
  · rintro rfl
    exact (h.node_initial hl).1
  · exact h.eq_zero_of_node hl

/-- **There are no more states than pairs**, and the initial one. -/
theorem Registered.size_le (h : a.Registered g) :
    a.slots.size ≤ Construction.bound g + 1 := by
  let f : StateId → Nat × Nat := fun x => ((a.slot? x).bind fun l => l.state.node).getD (0, 0)
  -- every state but the first one has a pair of its own
  have hpair (x : StateId) (hx : x ∈ (Finset.range a.slots.size).erase 0) :
      f x ∈ g.pairs ∧ a.keys[f x]? = some x := by
    obtain ⟨hne, hlt⟩ := Finset.mem_erase.1 hx
    obtain ⟨l, hl⟩ := Option.isSome_iff_exists.1 (h.isSome x (Finset.mem_range.1 hlt))
    cases hn : l.state.node with
    | none => exact absurd (h.eq_zero_of_node hl hn) hne
    | some n =>
      have hfx : f x = n := by simp only [f, hl, Option.bind_some, hn, Option.getD_some]
      have hkey : a.keys[n]? = some x := by
        have hx := h.built x l hl
        rwa [hn] at hx
      rw [hfx]
      exact ⟨h.range n x hkey, hkey⟩
  have hcard : ((Finset.range a.slots.size).erase 0).card ≤ g.pairs.toFinset.card := by
    refine Finset.card_le_card_of_injOn f (fun x hx => ?_) fun x hx y hy hxy => ?_
    · exact List.mem_toFinset.2 (hpair x hx).1
    · have hkx := (hpair x hx).2
      rw [hxy, (hpair y hy).2] at hkx
      exact (Option.some.inj hkx).symm
  have hpos : 0 ∈ Finset.range a.slots.size := by
    obtain ⟨s, hs⟩ := h.initial
    exact Finset.mem_range.2 (lt_size_of_slot? hs)
  rw [Finset.card_erase_of_mem hpos, Finset.card_range] at hcard
  have hlength := List.toFinset_card_le g.pairs
  rw [g.length_pairs] at hlength
  omega

/-! ### Operations of a construction -/

/-- Changes that only concern transitions and counts keep states registered. -/
theorem Registered.modify (h : a.Registered g) {f : State → State}
    (hf : ∀ t, (f t).source = t.source ∧ (f t).counter = t.counter ∧
      (f t).recurrence = t.recurrence ∧ (f t).identity = t.identity)
    (htarget : ∀ l, a.slot? id = some l → ∀ t ∈ (f l.state).transitions,
      (a.slot? t.target).isSome = true) : (a.modify id f).Registered g := by
  refine h.congr (h.toListed.modify htarget) rfl (modify_size a id f) (fun x => ?_)
    (stage_modify.2 h.initial) h.oldest
  rw [slot?_modify]
  cases a.slot? x with
  | none => rfl
  | some l =>
    by_cases hx : x = id
    · obtain ⟨hs, hc, hr, hi⟩ := hf l.state
      simp [hx, Slot.fixed, hs, hc, hr, hi]
    · simp [hx, Slot.fixed]

/-- Retiring a pending state keeps states registered. -/
theorem Registered.retireNow (h : a.Registered g) (hid : a.slot? id = some ⟨.pending, s⟩)
    {f : Option StateId} (hf : ∀ y, f = some y → ∃ t, a.LiveAt y t) :
    (a.retireNow id f).Registered g := by
  have hlive {y : StateId} {t : State} (ht : a.LiveAt y t) : y ≠ id := by
    rintro rfl
    cases hid.symm.trans ht
  obtain ⟨t, ht⟩ := h.initial
  have hfilter : a.live.filter (· ≠ id) = a.live := by
    refine List.filter_eq_self.2 fun y hy => ?_
    obtain ⟨u, hu⟩ := (h.mem_live y).1 hy
    simpa using hlive hu
  refine h.congr (h.toListed.retireNow hid rfl fun y hy => ?_) rfl (retireNow_size a id f)
    (fun x => ?_) ⟨t, liveAt_retireNow.2 ⟨hlive ht, ht⟩⟩ ?_
  · obtain ⟨u, hu⟩ := hf y hy
    exact ⟨hlive hu, u, hu⟩
  · rw [slot?_retireNow]
    cases a.slot? x with
    | none => rfl
    | some l =>
      rw [Option.map_some, Option.map_some, Option.map_some]
      unfold afterRetiring
      split_ifs <;> rfl
  · show (a.live.filter (· ≠ id)).head? = some 0
    rw [hfilter]
    exact h.oldest

theorem slot?_size (a : Arena) : a.slot? a.slots.size = none :=
  slot?_eq_none_of_le (Nat.le_refl _)

theorem liveAt_addPending {q c : Nat} {i : Int} :
    (a.addPending q i c).2.LiveAt x s ↔ a.LiveAt x s := by
  rw [LiveAt, slot?_addPending]
  by_cases hx : x = a.slots.size
  · subst hx
    rw [if_pos rfl, LiveAt, slot?_size]
    simp
  · rw [if_neg hx]

/-- What is found after a new state was created, apart from this one. -/
theorem slot?_addPending_of_some {q c : Nat} {i : Int} {l : Slot} (hl : a.slot? x = some l) :
    (a.addPending q i c).2.slot? x = some l := by
  rw [slot?_addPending, if_neg (Nat.ne_of_lt (lt_size_of_slot? hl)), hl]

theorem Listed.addPending (h : a.Listed) (q : Nat) (i : Int) (c : Nat) :
    (a.addPending q i c).2.Listed where
  live_nodup := h.live_nodup
  retired_nodup := h.retired_nodup
  mem_live x := by
    simp only [liveAt_addPending]
    exact h.mem_live x
  mem_retired x := by
    rw [slot?_addPending]
    by_cases hx : x = a.slots.size
    · subst hx
      simp only [if_pos]
      refine (h.mem_retired _).trans (iff_of_false ?_ (by simp))
      simp [slot?_size]
    · simp only [if_neg hx]
      exact h.mem_retired x
  forward_live x y s hs := by
    rw [slot?_addPending] at hs
    split at hs
    · cases hs
    · obtain ⟨t, ht⟩ := h.forward_live x y s hs
      exact ⟨t, liveAt_addPending.2 ht⟩
  target_some x l hl t ht := by
    rw [slot?_addPending] at hl
    split at hl
    · cases hl
      exact absurd ht List.not_mem_nil
    · obtain ⟨m, hm⟩ := Option.isSome_iff_exists.1 (h.target_some x l hl t ht)
      rw [slot?_addPending_of_some hm]
      rfl

/-- A new state is registered under its pair, if there was none yet. -/
theorem Registered.addPending (h : a.Registered g) {q c : Nat}
    (hnone : a.keys[(q, c)]? = none) (hpair : (q, c) ∈ g.pairs) :
    (a.addPending q (g.identity q) c).2.Registered g where
  toListed := h.toListed.addPending q (g.identity q) c
  initial := by
    obtain ⟨t, ht⟩ := h.initial
    exact ⟨t, liveAt_addPending.2 ht⟩
  oldest := h.oldest
  fixed_initial := by
    obtain ⟨t, ht⟩ := h.initial
    rw [slot?_addPending_of_some ht, ← h.fixed_initial, ht]
  isSome x hx := by
    rw [slot?_addPending]
    split
    · rfl
    · have hsize : (a.addPending q (g.identity q) c).2.slots.size = a.slots.size + 1 :=
        Array.size_push _
      exact h.isSome x (by omega)
  built x l hl := by
    rw [slot?_addPending] at hl
    split at hl
    · rename_i hx
      cases hl
      rw [State.node, State.fresh, Option.map_some, built?, keys_addPending, if_pos rfl, hx]
    · have hx := h.built x l hl
      cases hn : l.state.node with
      | none => rwa [hn] at hx
      | some n =>
        rw [hn, built?] at hx
        -- `n` is another pair: nothing was registered under the new one
        rw [built?, keys_addPending, if_neg]
        · exact hx
        · rintro rfl
          rw [hnone] at hx
          contradiction
  node n x hn := by
    rw [keys_addPending] at hn
    split at hn
    · rename_i heq
      cases hn
      subst heq
      exact ⟨_, by rw [slot?_addPending, if_pos rfl], rfl⟩
    · obtain ⟨l, hl, hln⟩ := h.node n x hn
      exact ⟨l, slot?_addPending_of_some hl, hln⟩
  range n x hn := by
    rw [keys_addPending] at hn
    split at hn
    · rename_i heq
      exact heq ▸ hpair
    · exact h.range n x hn
  unknown x l hl := by
    rw [slot?_addPending] at hl
    split at hl
    · cases hl
      rfl
    · exact h.unknown x l hl
  identity x l hl := by
    rw [slot?_addPending] at hl
    split at hl
    · cases hl
      rfl
    · exact h.identity x l hl

theorem Listed.promoteNow (h : a.Listed) (hid : a.slot? id = some ⟨.pending, s⟩) :
    (a.promoteNow id s).Listed := by
  have hnot : id ∉ a.live := by
    intro hmem
    obtain ⟨t, ht⟩ := (h.mem_live id).1 hmem
    cases hid.symm.trans ht
  have hother {x : StateId} {g : Option StateId} {t : State} :
      (a.promoteNow id s).slot? x = some ⟨.retired g, t⟩ ↔ a.slot? x = some ⟨.retired g, t⟩ := by
    rw [slot?_promoteNow hid]
    by_cases hx : x = id
    · simp [hx, hid]
    · simp [hx]
  refine ⟨?_, h.retired_nodup, fun x => ?_, fun x => ?_, fun x y t ht => ?_,
    fun x l hl t ht => ?_⟩
  · exact List.nodup_append.2 ⟨h.live_nodup, List.nodup_singleton id, fun y hy z hz hyz =>
      hnot (List.mem_singleton.1 hz ▸ hyz ▸ hy)⟩
  · simp only [liveAt_promoteNow hid, exists_or, ← h.mem_live]
    simp [Arena.promoteNow, or_comm]
  · simp only [hother]
    exact h.mem_retired x
  · obtain ⟨u, hu⟩ := h.forward_live x y t (hother.1 ht)
    exact ⟨u, (liveAt_promoteNow hid).2 (.inr hu)⟩
  · have hl : ∃ m, a.slot? x = some m ∧ t ∈ m.state.transitions := by
      rw [slot?_promoteNow hid] at hl
      split at hl
      · rename_i hx
        cases hl
        exact ⟨⟨.pending, s⟩, hx ▸ hid, ht⟩
      · exact ⟨l, hl, ht⟩
    obtain ⟨m, hm, ht⟩ := hl
    have hsome := h.target_some x m hm t ht
    rw [slot?_promoteNow hid]
    split
    · rfl
    · exact hsome

theorem Registered.promoteNow (h : a.Registered g) (hid : a.slot? id = some ⟨.pending, s⟩) :
    (a.promoteNow id s).Registered g := by
  obtain ⟨t, ht⟩ := h.initial
  refine h.congr (h.toListed.promoteNow hid) rfl (promoteNow_size a id s) (fun x => ?_)
    ⟨t, (liveAt_promoteNow hid).2 (.inr ht)⟩ ?_
  · rw [slot?_promoteNow hid]
    split
    · rename_i hx
      rw [hx, hid]
      rfl
    · rfl
  · rw [Arena.promoteNow, List.head?_append, h.oldest]
    rfl

/-- Taking a state from the pending ones changes nothing about it. -/
theorem Registered.setPending (h : a.Registered g) (ids : List StateId) :
    ({ a with pending := ids } : Arena).Registered g :=
  h.congr ⟨h.live_nodup, h.retired_nodup, h.mem_live, h.mem_retired, h.forward_live,
    h.target_some⟩ rfl rfl
    (fun _ => rfl) h.initial h.oldest

end Arena

end OmegaAutomata
