/-
# The graph of an arena

A transition leads to the destination of its target: the target itself, or the
replacement of a target that was retired, or nowhere if a retired target has no
replacement.  With these steps the live states form a system, whose languages are
the same before and after the transitions are redirected.

`Listed` holds of every arena that an operation leaves behind: the lists tell the
stages, and replacements are live.  `Valid` holds between two operations of a
minimization: no state is pending any more, and one marked as transient lies on no
cycle.
`Keeps` says what an operation keeps for a later one to build on: the languages of
the states that are left.

The effect of `retire` on the graph is that destinations change in one place
(`destination?_retireNow`).  Without a replacement edges are lost, but no language of
another state if the retired one led nowhere (`keeps_retireNow_none`).
-/

import OmegaAutomata.Proofs.Arena.Lookup
import OmegaAutomata.Proofs.System.Merging

namespace OmegaAutomata

namespace Arena

variable {a b c : Arena} {k : Nat} {id x y : StateId} {s t : State}

/-! ### Destinations -/

/-- Where transitions to `id` lead, if anywhere. -/
def destination? (a : Arena) (id : StateId) : Option StateId :=
  match a.slot? id with
  | none => none
  | some ⟨.retired forward, _⟩ => forward
  | some _ => some id

theorem destination?_of_retired {f : Option StateId} (h : a.slot? id = some ⟨.retired f, s⟩) :
    a.destination? id = f := by
  rw [destination?, h]

theorem destination?_of_not_retired {l : Slot} (h : a.slot? id = some l)
    (hl : l.stage.isRetired = false) : a.destination? id = some id := by
  obtain ⟨stage, s⟩ := l
  rw [destination?, h]
  cases stage with
  | pending => rfl
  | live => rfl
  | retired f => contradiction

theorem LiveAt.destination?_eq (h : a.LiveAt id s) : a.destination? id = some id :=
  destination?_of_not_retired h rfl

/-- Retiring `id` changes the destinations that were `id`, and no others. -/
theorem destination?_retireNow {l : Slot} {f : Option StateId} (hid : a.slot? id = some l)
    (hl : l.stage.isRetired = false) (y : StateId) :
    (a.retireNow id f).destination? y =
      (a.destination? y).bind fun z => if z = id then f else some z := by
  by_cases hy : y = id
  · subst hy
    rw [destination?_of_not_retired hid hl, destination?, slot?_retireNow, hid]
    simp [afterRetiring]
  · rw [destination?, destination?, slot?_retireNow]
    cases a.slot? y with
    | none => rfl
    | some m =>
      obtain ⟨stage, s⟩ := m
      cases stage with
      | pending => simp [afterRetiring, hy]
      | live => simp [afterRetiring, hy]
      | retired forward =>
        cases forward with
        | none => simp [afterRetiring, hy]
        | some z => by_cases hz : z = id <;> simp [afterRetiring, hy, hz]

theorem destination?_modify (a : Arena) (id y : StateId) (f : State → State) :
    (a.modify id f).destination? y = a.destination? y := by
  unfold destination?
  rw [slot?_modify]
  cases a.slot? y with
  | none => rfl
  | some l =>
    obtain ⟨stage, s⟩ := l
    by_cases hy : y = id <;> cases stage <;> simp [hy]

/-! ### Edges, cycles and steps -/

/-- Whether a transition of the live state `x` leads to `y`. -/
def Leads (a : Arena) (x y : StateId) : Prop :=
  ∃ s, a.LiveAt x s ∧ ∃ t ∈ s.transitions, a.destination? t.target = some y

/-- Whether some non-empty path leads from a state back to it. -/
def OnCycle (a : Arena) (x : StateId) : Prop :=
  Relation.TransGen a.Leads x x

/-- The system of the live states, where states with counter `k` are accepting. -/
def system (a : Arena) (k : Nat) : System StateId where
  step v x y := ∃ s, a.LiveAt x s ∧
    ∃ t ∈ s.transitions, a.destination? t.target = some y ∧ t.label.holds v = true
  accepting x := ∃ s, a.LiveAt x s ∧ s.counter = k

/-- Every transition can be taken on some letter. -/
theorem edge_system (a : Arena) (k : Nat) : (a.system k).Edge = a.Leads := by
  funext x y
  apply propext
  constructor
  · rintro ⟨v, s, hs, t, ht, hty, -⟩
    exact ⟨s, hs, t, ht, hty⟩
  · rintro ⟨s, hs, t, ht, hty⟩
    exact ⟨t.label.pos, s, hs, t, ht, hty, t.label.holds_pos⟩

theorem onCycle_system : (a.system k).OnCycle x ↔ a.OnCycle x := by
  rw [System.OnCycle, edge_system]
  rfl

theorem LiveAt.unique (h : a.LiveAt x s) (h' : a.LiveAt x t) : s = t :=
  (Slot.mk.inj (Option.some.inj (h.symm.trans h'))).2

theorem LiveAt.accepting_iff (h : a.LiveAt x s) : (a.system k).accepting x ↔ s.counter = k :=
  ⟨fun ⟨_, ht, hk⟩ => h.unique ht ▸ hk, fun hk => ⟨s, h, hk⟩⟩

/-- If no path can be made longer than before, no cycle comes up. -/
theorem OnCycle.mono (h : b.OnCycle x) (hle : ∀ x y, b.Leads x y → a.Leads x y) : a.OnCycle x :=
  Relation.TransGen.mono hle _ _ h

/-! ### Valid arenas -/

/-- Whether the lists of an arena tell the stages, and replacements are live. -/
structure Enrolled (a : Arena) : Prop where
  live_nodup : a.live.Nodup
  retired_nodup : a.retired.Nodup
  mem_live : ∀ id, id ∈ a.live ↔ ∃ s, a.LiveAt id s
  mem_retired : ∀ id, id ∈ a.retired ↔ ∃ f s, a.slot? id = some ⟨.retired f, s⟩
  forward_live : ∀ id f s, a.slot? id = some ⟨.retired (some f), s⟩ → ∃ t, a.LiveAt f t

theorem Enrolled.pooled (h : a.Enrolled) : a.Pooled :=
  ⟨fun x hx => (h.mem_live x).1 hx, h.mem_retired⟩

/-- Whether the lists of an arena tell the stages, replacements are live, and no transition leads to
a state that is not there. -/
structure Listed (a : Arena) : Prop where
  live_nodup : a.live.Nodup
  retired_nodup : a.retired.Nodup
  mem_live : ∀ id, id ∈ a.live ↔ ∃ s, a.LiveAt id s
  mem_retired : ∀ id, id ∈ a.retired ↔ ∃ f s, a.slot? id = some ⟨.retired f, s⟩
  forward_live : ∀ id f s, a.slot? id = some ⟨.retired (some f), s⟩ → ∃ t, a.LiveAt f t
  target_some : ∀ id l, a.slot? id = some l → ∀ t ∈ l.state.transitions,
    (a.slot? t.target).isSome = true

theorem Listed.enrolled (h : a.Listed) : a.Enrolled :=
  ⟨h.live_nodup, h.retired_nodup, h.mem_live, h.mem_retired, h.forward_live⟩

theorem Listed.pooled (h : a.Listed) : a.Pooled :=
  h.enrolled.pooled

theorem Listed.sweep_eq (h : a.Listed) : a.sweep = .ok a.sweepNow :=
  h.pooled.sweep_eq h.retired_nodup

/-- What holds of an arena between two operations of a minimization. -/
structure Valid (a : Arena) : Prop extends Listed a where
  not_pending : ∀ id s, a.slot? id ≠ some ⟨.pending, s⟩
  transient : ∀ id s, a.LiveAt id s → s.isFlexible = true → ¬a.OnCycle id

/-- What it takes to send transitions on: no state is pending, and the transitions of live states
lead to states that are there. -/
structure Redirectable (a : Arena) : Prop extends Enrolled a where
  not_pending : ∀ id s, a.slot? id ≠ some ⟨.pending, s⟩
  target_some : ∀ id s, a.LiveAt id s → ∀ t ∈ s.transitions, (a.slot? t.target).isSome = true

theorem Valid.redirectable (h : a.Valid) : a.Redirectable :=
  ⟨h.enrolled, h.not_pending, fun x _ hs => h.target_some x _ hs⟩

/-- A transition leads to a live state or nowhere. -/
theorem Redirectable.destination_live (h : a.Redirectable) (hy : a.destination? x = some y) :
    ∃ s, a.LiveAt y s := by
  cases hx : a.slot? x with
  | none => rw [destination?, hx] at hy; contradiction
  | some l =>
    obtain ⟨stage, s⟩ := l
    cases stage with
    | pending => exact absurd hx (h.not_pending x s)
    | live =>
      rw [LiveAt.destination?_eq hx] at hy
      cases hy
      exact ⟨s, hx⟩
    | retired f =>
      rw [destination?_of_retired hx] at hy
      subst hy
      exact h.forward_live x y s hx

theorem Valid.destination_live (h : a.Valid) (hy : a.destination? x = some y) :
    ∃ s, a.LiveAt y s :=
  h.redirectable.destination_live hy

/-- Whether live states only lead to live states. -/
def Tidy (a : Arena) : Prop :=
  ∀ x s, a.LiveAt x s → ∀ t ∈ s.transitions, ∃ u, a.LiveAt t.target u

/-- What an operation keeps: its live states were live, in the same order, and accept the same words
as before. -/
structure Keeps (k : Nat) (a b : Arena) : Prop where
  sublist : b.live.Sublist a.live
  live : ∀ x s, b.LiveAt x s → ∃ t, a.LiveAt x t
  accepts : ∀ x s, b.LiveAt x s → ∀ w,
    (b.system k).AcceptsFrom x w ↔ (a.system k).AcceptsFrom x w

theorem Keeps.refl (k : Nat) (a : Arena) : Keeps k a a :=
  ⟨.refl _, fun _ s hs => ⟨s, hs⟩, fun _ _ _ _ => Iff.rfl⟩

theorem Keeps.trans (hab : Keeps k a b) (hbc : Keeps k b c) : Keeps k a c where
  sublist := hbc.sublist.trans hab.sublist
  live x s hs := by
    obtain ⟨t, ht⟩ := hbc.live x s hs
    exact hab.live x t ht
  accepts x s hs w := by
    obtain ⟨t, ht⟩ := hbc.live x s hs
    exact (hbc.accepts x s hs w).trans (hab.accepts x t ht w)

/-- Whether a state is still live in `b`, or accepted no word in `a`. -/
def Stays (k : Nat) (x : StateId) (a b : Arena) : Prop :=
  (∃ t, b.LiveAt x t) ∨ ∀ w, ¬(a.system k).AcceptsFrom x w

theorem Stays.trans (hab : Stays k x a b) (hkeeps : Keeps k a b)
    (hbc : ∀ t, b.LiveAt x t → Stays k x b c) : Stays k x a c := by
  rcases hab with ⟨t, ht⟩ | hempty
  · exact (hbc t ht).imp_right fun hempty w => by
      rw [← hkeeps.accepts x t ht w]
      exact hempty w
  · exact .inr hempty

/-- A state that leads nowhere accepts no word. -/
theorem not_acceptsFrom_of_not_leads (h : ∀ y, ¬a.Leads x y) (w : Word) :
    ¬(a.system k).AcceptsFrom x w := by
  rintro ⟨r, rfl, hr, -⟩
  refine h (r 1) ?_
  rw [← edge_system a k]
  exact ⟨w 0, hr 0⟩

/-- Whether the live states of `b` were live before and had the same counters. -/
def KeepsCounters (a b : Arena) : Prop :=
  ∀ x s, b.LiveAt x s → ∃ t, a.LiveAt x t ∧ t.counter = s.counter

theorem KeepsCounters.refl (a : Arena) : KeepsCounters a a :=
  fun _ s hs => ⟨s, hs, rfl⟩

theorem KeepsCounters.trans (hab : KeepsCounters a b) (hbc : KeepsCounters b c) :
    KeepsCounters a c := by
  intro x s hs
  obtain ⟨t, ht, hts⟩ := hbc x s hs
  obtain ⟨u, hu, hut⟩ := hab x t ht
  exact ⟨u, hu, hut.trans hts⟩

/-! ### Retiring -/

/-- The live states after a retirement are the other ones, unchanged. -/
theorem liveAt_retireNow {f : Option StateId} :
    (a.retireNow id f).LiveAt x s ↔ x ≠ id ∧ a.LiveAt x s := by
  rw [LiveAt, slot?_retireNow, Option.map_eq_some_iff]
  constructor
  · rintro ⟨l, hl, h⟩
    unfold afterRetiring at h
    split at h
    · cases h
    · split at h
      · cases h
      · subst h
        exact ⟨‹_›, hl⟩
  · rintro ⟨hx, hs⟩
    exact ⟨_, hs, by simp [afterRetiring, hx]⟩

theorem isSome_retireNow (a : Arena) (id x : StateId) (f : Option StateId) :
    ((a.retireNow id f).slot? x).isSome = (a.slot? x).isSome := by
  rw [slot?_retireNow, Option.isSome_map]

/-- The retired states after a retirement are the new one and the others. -/
theorem isRetired_retireNow {l : Slot} {f : Option StateId} (hid : a.slot? id = some l) :
    (∃ g s, (a.retireNow id f).slot? x = some ⟨.retired g, s⟩) ↔
      x = id ∨ ∃ g s, a.slot? x = some ⟨.retired g, s⟩ := by
  rw [slot?_retireNow]
  by_cases hx : x = id
  · subst hx
    simp [hid, afterRetiring]
  · cases a.slot? x with
    | none => simp [hx]
    | some m =>
      obtain ⟨stage, s⟩ := m
      by_cases hm : stage = .retired (some id) <;> simp [afterRetiring, hx, hm]

/-- A replacement after a retirement is the new one, or one from before that was not retired. -/
theorem forward_retireNow {f : Option StateId}
    (h : (a.retireNow id f).slot? x = some ⟨.retired (some y), s⟩) :
    f = some y ∨ y ≠ id ∧ ∃ t, a.slot? x = some ⟨.retired (some y), t⟩ := by
  rw [slot?_retireNow, Option.map_eq_some_iff] at h
  obtain ⟨⟨stage, t⟩, hl, h⟩ := h
  unfold afterRetiring at h
  split at h
  · cases h
    exact .inl rfl
  · split at h
    · cases h
      exact .inl rfl
    · cases h
      exact .inr ⟨fun hy => ‹¬_› (by rw [hy]), _, hl⟩

/-- The pending states after a retirement are the other ones, unchanged. -/
theorem pending_retireNow {f : Option StateId} :
    (a.retireNow id f).slot? x = some ⟨.pending, s⟩ ↔
      x ≠ id ∧ a.slot? x = some ⟨.pending, s⟩ := by
  rw [slot?_retireNow, Option.map_eq_some_iff]
  constructor
  · rintro ⟨l, hl, h⟩
    unfold afterRetiring at h
    split at h
    · cases h
    · split at h
      · cases h
      · subst h
        exact ⟨‹_›, hl⟩
  · rintro ⟨hx, hs⟩
    exact ⟨_, hs, by simp [afterRetiring, hx]⟩

theorem transitions_retireNow {f : Option StateId} {l : Slot}
    (h : (a.retireNow id f).slot? x = some l) {t : Transition} (ht : t ∈ l.state.transitions) :
    ∃ m, a.slot? x = some m ∧ t ∈ m.state.transitions := by
  rw [slot?_retireNow, Option.map_eq_some_iff] at h
  obtain ⟨m, hm, rfl⟩ := h
  refine ⟨m, hm, ?_⟩
  unfold afterRetiring at ht
  split at ht
  · exact absurd ht List.not_mem_nil
  · split at ht
    · exact ht
    · exact ht

theorem Enrolled.retireNow (h : a.Enrolled) {l : Slot} (hid : a.slot? id = some l)
    (hl : l.stage.isRetired = false) {f : Option StateId}
    (hf : ∀ y, f = some y → y ≠ id ∧ ∃ t, a.LiveAt y t) : (a.retireNow id f).Enrolled where
  live_nodup := h.live_nodup.filter _
  retired_nodup := by
    refine List.nodup_append.2 ⟨h.retired_nodup, by simp, fun x hx y hy hxy => ?_⟩
    rw [hxy, List.mem_singleton.1 hy] at hx
    obtain ⟨g, s, hs⟩ := (h.mem_retired id).1 hx
    cases hid.symm.trans hs
    contradiction
  mem_live x := by
    simp only [liveAt_retireNow, exists_and_left, ← h.mem_live]
    simp [Arena.retireNow, and_comm]
  mem_retired x := by
    rw [isRetired_retireNow hid, ← h.mem_retired]
    simp [Arena.retireNow, or_comm]
  forward_live x y t hx := by
    simp only [liveAt_retireNow, exists_and_left]
    rcases forward_retireNow hx with hy | ⟨hy, t', ht'⟩
    · exact hf y hy
    · exact ⟨hy, h.forward_live x y t' ht'⟩

theorem Listed.retireNow (h : a.Listed) {l : Slot} (hid : a.slot? id = some l)
    (hl : l.stage.isRetired = false) {f : Option StateId}
    (hf : ∀ y, f = some y → y ≠ id ∧ ∃ t, a.LiveAt y t) : (a.retireNow id f).Listed := by
  obtain ⟨hnodup, hnodup', hlive, hretired, hforward⟩ := h.enrolled.retireNow hid hl hf
  refine ⟨hnodup, hnodup', hlive, hretired, hforward, fun x m hm t ht => ?_⟩
  obtain ⟨m', hm', ht'⟩ := transitions_retireNow hm ht
  rw [isSome_retireNow]
  exact h.target_some x m' hm' t ht'

/-- **Retiring keeps an arena valid**, as long as no state marked as transient comes to lie on a
cycle. -/
theorem Valid.retireNow (h : a.Valid) (hid : a.LiveAt id s) {f : Option StateId}
    (hf : ∀ y, f = some y → y ≠ id ∧ ∃ t, a.LiveAt y t)
    (htransient : ∀ x t, x ≠ id → a.LiveAt x t → t.isFlexible = true →
      ¬(a.retireNow id f).OnCycle x) : (a.retireNow id f).Valid where
  toListed := h.toListed.retireNow hid rfl hf
  not_pending x s hs := h.not_pending x s (pending_retireNow.1 hs).2
  transient x t ht := htransient x t (liveAt_retireNow.1 ht).1 (liveAt_retireNow.1 ht).2

/-- The steps after a retirement: those between other states, where steps to the retired state go
to its replacement. -/
theorem step_retireNow (hid : a.LiveAt id s) {f : Option StateId} {v : IndexSet} :
    ((a.retireNow id f).system k).step v x y ↔ x ≠ id ∧ ∃ z, (a.system k).step v x z ∧
      (if z = id then f else some z) = some y := by
  constructor
  · rintro ⟨t, ht, u, hu, hdest, hholds⟩
    obtain ⟨hx, ht⟩ := liveAt_retireNow.1 ht
    rw [destination?_retireNow hid rfl, Option.bind_eq_some_iff] at hdest
    obtain ⟨z, hz, hy⟩ := hdest
    exact ⟨hx, z, ⟨t, ht, u, hu, hz, hholds⟩, hy⟩
  · rintro ⟨hx, z, ⟨t, ht, u, hu, hz, hholds⟩, hy⟩
    refine ⟨t, liveAt_retireNow.2 ⟨hx, ht⟩, u, hu, ?_, hholds⟩
    rw [destination?_retireNow hid rfl, hz]
    exact hy

theorem accepting_retireNow {f : Option StateId} :
    ((a.retireNow id f).system k).accepting x ↔ x ≠ id ∧ (a.system k).accepting x := by
  constructor
  · rintro ⟨t, ht, hk⟩
    exact ⟨(liveAt_retireNow.1 ht).1, t, (liveAt_retireNow.1 ht).2, hk⟩
  · rintro ⟨hx, t, ht, hk⟩
    exact ⟨t, liveAt_retireNow.2 ⟨hx, ht⟩, hk⟩

/-- Without replacement, a retirement only takes edges away. -/
theorem leads_retireNow_none (hid : a.LiveAt id s) :
    (a.retireNow id none).Leads x y ↔ a.Leads x y ∧ x ≠ id ∧ y ≠ id := by
  rw [← edge_system _ 0, ← edge_system _ 0]
  constructor
  · rintro ⟨v, hv⟩
    obtain ⟨hx, z, hz, hy⟩ := (step_retireNow hid).1 hv
    split at hy
    · contradiction
    · cases hy
      exact ⟨⟨v, hz⟩, hx, ‹_›⟩
  · rintro ⟨⟨v, hv⟩, hx, hy⟩
    exact ⟨v, (step_retireNow hid).2 ⟨hx, y, hv, if_neg hy⟩⟩

theorem Valid.retireNow_none (h : a.Valid) (hid : a.LiveAt id s) :
    (a.retireNow id none).Valid :=
  h.retireNow hid (by simp) fun x t _ ht hflex hcycle =>
    h.transient x t ht hflex (hcycle.mono fun _ _ hle => ((leads_retireNow_none hid).1 hle).1)

/-- **A state that leads nowhere can be retired** without replacement. -/
theorem keeps_retireNow_none (hid : a.LiveAt id s)
    (hdead : ∀ y, ¬a.Leads id y) : Keeps k a (a.retireNow id none) := by
  have hrestricts : (a.system k).Restricts ((a.retireNow id none).system k) (· ≠ id) := by
    refine ⟨fun v x y => ?_, fun x hx => ?_, fun x y _ _ hgoes hy => ?_⟩
    · rw [step_retireNow hid]
      constructor
      · rintro ⟨hx, z, hz, hy⟩
        split at hy
        · contradiction
        · cases hy
          exact ⟨hx, ‹_›, hz⟩
      · rintro ⟨hx, hy, hstep⟩
        exact ⟨hx, y, hstep, if_neg hy⟩
    · rw [accepting_retireNow, and_iff_right hx]
    · subst hy
      rw [edge_system] at hgoes
      obtain ⟨z, hz⟩ := hgoes
      exact hdead z hz
  refine ⟨List.filter_sublist, fun x t ht => ?_, fun x t ht w => ?_⟩
  · exact ⟨t, (liveAt_retireNow.1 ht).2⟩
  · exact hrestricts.acceptsFrom_iff (liveAt_retireNow.1 ht).1

theorem not_leads_of_transitions_eq_nil (hid : a.LiveAt id s) (hs : s.transitions = [])
    (y : StateId) : ¬a.Leads id y := by
  rintro ⟨t, ht, u, hu, -⟩
  rw [← hid.unique ht, hs] at hu
  exact List.not_mem_nil hu

/-- What `retire` checked and did where no state is pending. -/
theorem Redirectable.retire_eq_ok (h : a.Redirectable) {f : Option StateId}
    (hb : a.retire id f = .ok b) :
    b = a.retireNow id f ∧ (∃ s, a.LiveAt id s) ∧ ∀ y, f = some y → y ≠ id ∧ ∃ t, a.LiveAt y t := by
  have hlive {x : StateId} : (∃ l, a.slot? x = some l ∧ l.stage.isRetired = false) →
      ∃ s, a.LiveAt x s := by
    rintro ⟨⟨stage, s⟩, hl, hret⟩
    cases stage with
    | pending => exact absurd hl (h.not_pending x s)
    | live => exact ⟨s, hl⟩
    | retired f => contradiction
  obtain ⟨hself, hf, hid, rfl⟩ := h.pooled.retire_eq_ok.1 hb
  exact ⟨rfl, hlive hid, fun y hy => ⟨fun he => hself (he ▸ hy), hlive (hf y hy)⟩⟩

theorem Valid.retire_eq_ok (h : a.Valid) {f : Option StateId} (hb : a.retire id f = .ok b) :
    b = a.retireNow id f ∧ (∃ s, a.LiveAt id s) ∧ ∀ y, f = some y → y ≠ id ∧ ∃ t, a.LiveAt y t :=
  h.redirectable.retire_eq_ok hb

theorem Redirectable.retireNow_none (h : a.Redirectable) (hid : a.LiveAt id s) :
    (a.retireNow id none).Redirectable where
  toEnrolled := h.toEnrolled.retireNow hid rfl (by simp)
  not_pending x s hs := h.not_pending x s (pending_retireNow.1 hs).2
  target_some x t ht u hu := by
    rw [isSome_retireNow]
    exact h.target_some x t (liveAt_retireNow.1 ht).2 u hu

/-- **A live state can be retired**, in favour of another live state or of none. -/
theorem Pooled.retire_eq (h : a.Pooled) (hid : a.LiveAt id s) {f : Option StateId}
    (hf : ∀ y, f = some y → y ≠ id ∧ ∃ t, a.LiveAt y t) :
    a.retire id f = .ok (a.retireNow id f) := by
  refine h.retire_eq_ok.2 ⟨fun hself => (hf id hself).1 rfl, fun y hy => ?_, ⟨_, hid, rfl⟩, rfl⟩
  obtain ⟨-, t, ht⟩ := hf y hy
  exact ⟨_, ht, rfl⟩

/-- Different live states can all be retired together. -/
theorem Enrolled.exists_retireAll (h : a.Enrolled) {ids : List StateId} (hids : ids.Nodup)
    (hlive : ∀ x ∈ ids, ∃ s, a.LiveAt x s) : ∃ b, a.retireAll ids = .ok b := by
  induction ids generalizing a with
  | nil => exact ⟨a, rfl⟩
  | cons id ids ih =>
    obtain ⟨hid, hnodup⟩ := List.nodup_cons.1 hids
    obtain ⟨s, hs⟩ := hlive id List.mem_cons_self
    rw [Arena.retireAll, List.foldlM_cons, h.pooled.retire_eq hs (by simp), bind_ok]
    refine ih (h.retireNow hs rfl (by simp)) hnodup fun x hx => ?_
    obtain ⟨t, ht⟩ := hlive x (List.mem_cons_of_mem id hx)
    exact ⟨t, liveAt_retireNow.2 ⟨fun he => hid (he ▸ hx), ht⟩⟩

/-- States that were retired together are gone, and the others are as they were. -/
theorem Redirectable.retireAll (h : a.Redirectable) {ids : List StateId}
    (hb : a.retireAll ids = .ok b) : b.Redirectable ∧
      (∀ x s, b.LiveAt x s ↔ x ∉ ids ∧ a.LiveAt x s) ∧ b.live = a.live.filter (· ∉ ids) ∧
      (∀ x ∈ ids, ∃ s, a.LiveAt x s) ∧
      ∀ y, b.destination? y = (a.destination? y).filter (· ∉ ids) := by
  induction ids generalizing a with
  | nil =>
    cases hb
    exact ⟨h, by simp, (List.filter_eq_self.2 (by simp)).symm, by simp,
      fun y => by cases b.destination? y <;> rfl⟩
  | cons id ids ih =>
    rw [Arena.retireAll, List.foldlM_cons] at hb
    obtain ⟨a', ha', hb⟩ := bind_eq_ok.1 hb
    obtain ⟨rfl, ⟨s, hs⟩, -⟩ := h.retire_eq_ok ha'
    obtain ⟨hredirectable, hlive, hfilter, hmem, hdestination⟩ := ih (h.retireNow_none hs) hb
    refine ⟨hredirectable, fun x t => ?_, ?_, fun x hx => ?_, fun y => ?_⟩
    · rw [hlive, liveAt_retireNow, List.mem_cons, not_or, and_left_comm, and_assoc]
    · rw [hfilter, Arena.retireNow, List.filter_filter]
      congr 1
      funext x
      simp [Bool.and_comm]
    · rcases List.mem_cons.1 hx with rfl | hx
      · exact ⟨s, hs⟩
      · obtain ⟨t, ht⟩ := hmem x hx
        exact ⟨t, (liveAt_retireNow.1 ht).2⟩
    · rw [hdestination, destination?_retireNow hs rfl]
      cases a.destination? y with
      | none => rfl
      | some z => by_cases hz : z = id <;> simp [Option.filter, hz]

/-- States that were retired together leave a valid arena. -/
theorem Valid.retireAll (h : a.Valid) {ids : List StateId} (hb : a.retireAll ids = .ok b) :
    b.Valid ∧ (∀ x s, b.LiveAt x s ↔ x ∉ ids ∧ a.LiveAt x s) ∧
      b.live = a.live.filter (· ∉ ids) ∧ ∀ x ∈ ids, ∃ s, a.LiveAt x s := by
  obtain ⟨-, hlive, hfilter, hmem, -⟩ := h.redirectable.retireAll hb
  refine ⟨foldlM_induction (P := fun _ c => c.Valid) hb h fun id _ c d hc hd => ?_,
    hlive, hfilter, hmem⟩
  obtain ⟨rfl, ⟨s, hs⟩, -⟩ := hc.retire_eq_ok hd
  exact hc.retireNow_none hs

/-- What a retirement of a state without transitions keeps, several of them keep. -/
theorem Valid.retireAll_induction {P : Arena → Prop} (h : a.Valid) {ids : List StateId}
    (hids : ids.Nodup) (hdead : ∀ x ∈ ids, ∃ s, a.LiveAt x s ∧ s.transitions = [])
    (hb : a.retireAll ids = .ok b) (ha : P a)
    (hP : ∀ c id s, P c → c.LiveAt id s → (∀ y, ¬c.Leads id y) → P (c.retireNow id none)) :
    P b := by
  induction ids generalizing a with
  | nil =>
    cases hb
    exact ha
  | cons id ids ih =>
    rw [Arena.retireAll, List.foldlM_cons] at hb
    obtain ⟨a', ha', hb⟩ := bind_eq_ok.1 hb
    obtain ⟨rfl, -, -⟩ := h.retire_eq_ok ha'
    obtain ⟨s, hs, hnil⟩ := hdead id List.mem_cons_self
    rw [List.nodup_cons] at hids
    refine ih (h.retireNow_none hs) hids.2 (fun x hx => ?_) hb
      (hP a id s ha hs (not_leads_of_transitions_eq_nil hs hnil))
    obtain ⟨t, ht, hnil⟩ := hdead x (List.mem_cons_of_mem id hx)
    exact ⟨t, liveAt_retireNow.2 ⟨fun he => hids.1 (he ▸ hx), ht⟩, hnil⟩

/-- **States without transitions can be retired together.** -/
theorem Valid.keeps_retireAll (h : a.Valid) {ids : List StateId} (hids : ids.Nodup)
    (hdead : ∀ x ∈ ids, ∃ s, a.LiveAt x s ∧ s.transitions = []) (hb : a.retireAll ids = .ok b) :
    Keeps k a b :=
  h.retireAll_induction (P := Keeps k a) hids hdead hb (.refl k a) fun _ _ _ hc hs hno =>
    hc.trans (keeps_retireNow_none hs hno)

/-! ### Changing one state -/

theorem step_modify {f : State → State} (hf : ∀ t, (f t).transitions = t.transitions)
    {v : IndexSet} : ((a.modify id f).system k).step v x y ↔ (a.system k).step v x y := by
  simp only [system, destination?_modify, liveAt_modify]
  constructor
  · rintro ⟨_, ⟨t, ht, rfl⟩, u, hu, hy⟩
    refine ⟨t, ht, u, ?_, hy⟩
    split at hu
    · rwa [hf] at hu
    · exact hu
  · rintro ⟨t, ht, u, hu, hy⟩
    refine ⟨_, ⟨t, ht, rfl⟩, u, ?_, hy⟩
    split
    · rwa [hf]
    · exact hu

/-- **Changing a state keeps the languages** if it keeps transitions and counters. -/
theorem keeps_modify {f : State → State} (hf : ∀ t, (f t).transitions = t.transitions)
    (hcounter : ∀ t, (f t).counter = t.counter) :
    Keeps k a (a.modify id f) ∧ KeepsCounters a (a.modify id f) := by
  have hcounters : KeepsCounters a (a.modify id f) := by
    intro x s hs
    obtain ⟨t, ht, rfl⟩ := liveAt_modify.1 hs
    refine ⟨t, ht, ?_⟩
    split
    · exact (hcounter t).symm
    · rfl
  have hsystem : (a.modify id f).system k = a.system k := by
    refine System.ext ?_ ?_
    · funext v x y
      exact propext (step_modify hf)
    · funext x
      apply propext
      constructor
      · rintro ⟨s, hs, hk⟩
        obtain ⟨t, ht, hts⟩ := hcounters x s hs
        exact ⟨t, ht, hts.trans hk⟩
      · rintro ⟨t, ht, hk⟩
        refine ⟨_, liveAt_modify.2 ⟨t, ht, rfl⟩, ?_⟩
        split
        · exact (hcounter t).trans hk
        · exact hk
  refine ⟨⟨.refl _, fun x s hs => ?_, fun x s _ w => by rw [hsystem]⟩, hcounters⟩
  obtain ⟨t, ht, -⟩ := hcounters x s hs
  exact ⟨t, ht⟩

theorem Tidy.modify (h : a.Tidy) {f : State → State}
    (hf : ∀ t, (f t).transitions = t.transitions) : (a.modify id f).Tidy := by
  intro x s hs t ht
  obtain ⟨u, hu, rfl⟩ := liveAt_modify.1 hs
  have htu : t ∈ u.transitions := by
    split at ht
    · rwa [hf] at ht
    · exact ht
  obtain ⟨r, hr⟩ := h x u hu t htu
  exact ⟨_, liveAt_modify.2 ⟨r, hr, rfl⟩⟩

theorem leads_modify {f : State → State} (hf : ∀ t, (f t).transitions = t.transitions) :
    (a.modify id f).Leads x y ↔ a.Leads x y := by
  rw [← edge_system _ 0, ← edge_system a 0]
  exact exists_congr fun v => step_modify hf

theorem stage_modify {f : State → State} {stage : Stage} :
    (∃ s, (a.modify id f).slot? x = some ⟨stage, s⟩) ↔ ∃ s, a.slot? x = some ⟨stage, s⟩ := by
  rw [slot?_modify]
  cases a.slot? x with
  | none => simp
  | some l =>
    obtain ⟨stage', t⟩ := l
    by_cases hx : x = id <;> simp [hx]

theorem Listed.modify (h : a.Listed) {f : State → State}
    (hf : ∀ l, a.slot? id = some l → ∀ t ∈ (f l.state).transitions,
      (a.slot? t.target).isSome = true) :
    (a.modify id f).Listed where
  live_nodup := h.live_nodup
  retired_nodup := h.retired_nodup
  mem_live x := (h.mem_live x).trans stage_modify.symm
  mem_retired x := (h.mem_retired x).trans (exists_congr fun _ => stage_modify.symm)
  forward_live x y s hs := by
    obtain ⟨t, ht⟩ := stage_modify.1 ⟨s, hs⟩
    exact stage_modify.2 (h.forward_live x y t ht)
  target_some x l hl t ht := by
    rw [slot?_modify, Option.isSome_map]
    rw [slot?_modify, Option.map_eq_some_iff] at hl
    obtain ⟨m, hm, rfl⟩ := hl
    split at ht
    · rename_i hx
      subst hx
      exact hf m hm t ht
    · exact h.target_some x m hm t ht

/-- **Changing a state keeps an arena valid** if it keeps the transitions and marks no state on a
cycle as transient. -/
theorem Valid.modify (h : a.Valid) {f : State → State}
    (hf : ∀ t, (f t).transitions = t.transitions)
    (htransient : ∀ t, a.LiveAt id t → (f t).isFlexible = true → ¬a.OnCycle id) :
    (a.modify id f).Valid where
  toListed := h.toListed.modify fun l hl => hf l.state ▸ h.target_some id l hl
  not_pending x s hs := by
    obtain ⟨t, ht⟩ := stage_modify.1 ⟨s, hs⟩
    exact h.not_pending x t ht
  transient x s hs hflex hcycle := by
    obtain ⟨t, ht, rfl⟩ := liveAt_modify.1 hs
    have hold : a.OnCycle x := hcycle.mono fun _ _ => (leads_modify hf).1
    split at hflex
    · rename_i hx
      subst hx
      exact htransient t ht hflex hold
    · exact h.transient x t ht hflex hold

end Arena

end OmegaAutomata
