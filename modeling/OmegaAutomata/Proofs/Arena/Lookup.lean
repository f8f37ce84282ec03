/-
# What is found after an operation

Every operation of an arena is described by what `slot?` finds after it: one lemma
`slot?_…` for each of them.  Nothing else is ever asked of the array of slots.

An operation that can fail is described by what holds if it does not: for `promote`
this is `promote_eq_ok`, and for `forget` it is `forget_eq_ok`.  The retired states are
gone through one by one, by `retire` and by `sweep`.  Where the lists of an arena tell
which states are live and which are retired (`Pooled`), this comes to one change of all
slots (`Pooled.retire_eq_ok`, `Pooled.sweep_eq`).
-/

import OmegaAutomata.Arena.Basic
import OmegaAutomata.Proofs.Fallible
import Mathlib.Tactic.ByContra

namespace OmegaAutomata

namespace Arena

variable {a b : Arena} {id x : StateId} {s : State}

/-- Whether `s` is the live state of an id. -/
abbrev LiveAt (a : Arena) (id : StateId) (s : State) : Prop :=
  a.slot? id = some ⟨.live, s⟩

/-! ### Looking up -/

theorem slot?_eq_none_of_le (h : a.slots.size ≤ x) : a.slot? x = none := by
  rw [slot?, Array.getElem?_eq_none h]
  rfl

theorem lt_size_of_slot? {l : Slot} (h : a.slot? x = some l) : x < a.slots.size := by
  by_contra hx
  rw [slot?_eq_none_of_le (Nat.le_of_not_lt hx)] at h
  contradiction

theorem slot_eq_ok {l : Slot} : a.slot id = .ok l ↔ a.slot? id = some l := by
  unfold slot slot?
  split
  · rename_i h
    simp [h]
  · rename_i h
    simp [h]
  · rename_i l' h
    simp [h]

theorem state_eq_ok : a.state id = .ok s ↔ ∃ stage, a.slot? id = some ⟨stage, s⟩ := by
  unfold state
  constructor
  · intro h
    cases hl : a.slot id with
    | error f => rw [hl] at h; contradiction
    | ok l =>
      rw [hl] at h
      cases h
      exact ⟨l.stage, slot_eq_ok.1 hl⟩
  · rintro ⟨stage, h⟩
    rw [slot_eq_ok.2 h]
    rfl

theorem isLive_iff : a.isLive id = true ↔ ∃ s, a.LiveAt id s := by
  unfold isLive
  split
  · rename_i s hs
    exact iff_of_true rfl ⟨s, hs⟩
  · rename_i hother
    exact iff_of_false Bool.false_ne_true fun ⟨s, hs⟩ => hother s hs

theorem LiveAt.state_eq_ok (h : a.LiveAt id s) : a.state id = .ok s :=
  Arena.state_eq_ok.2 ⟨_, h⟩

/-- The transitions of a state, if it is there. -/
def transitionsOf (a : Arena) (y : StateId) : List Transition :=
  ((a.slot? y).map fun l => l.state.transitions).getD []

theorem transitionsOf_eq {l : Slot} (h : a.slot? x = some l) :
    a.transitionsOf x = l.state.transitions := by
  rw [transitionsOf, h]
  rfl

/-! ### Changing one state -/

theorem slot?_modify (a : Arena) (id x : StateId) (f : State → State) :
    (a.modify id f).slot? x =
      (a.slot? x).map fun l => if x = id then { l with state := f l.state } else l := by
  unfold modify slot?
  rw [Array.getElem?_modify]
  by_cases h : x = id
  · subst h
    rw [if_pos rfl]
    cases a.slots[x]? with
    | none => rfl
    | some o => cases o <;> simp
  · rw [if_neg (Ne.symm h)]
    simp [h]

theorem slot?_modify_of_ne {f : State → State} (h : x ≠ id) :
    (a.modify id f).slot? x = a.slot? x := by
  rw [slot?_modify]
  simp [h]

theorem slot?_modify_self (a : Arena) (id : StateId) (f : State → State) :
    (a.modify id f).slot? id = (a.slot? id).map fun l => { l with state := f l.state } := by
  rw [slot?_modify]
  simp

@[simp] theorem modify_live (a : Arena) (id : StateId) (f : State → State) :
    (a.modify id f).live = a.live := rfl

@[simp] theorem modify_retired (a : Arena) (id : StateId) (f : State → State) :
    (a.modify id f).retired = a.retired := rfl

@[simp] theorem modify_pending (a : Arena) (id : StateId) (f : State → State) :
    (a.modify id f).pending = a.pending := rfl

@[simp] theorem modify_keys (a : Arena) (id : StateId) (f : State → State) :
    (a.modify id f).keys = a.keys := rfl

@[simp] theorem modify_size (a : Arena) (id : StateId) (f : State → State) :
    (a.modify id f).slots.size = a.slots.size :=
  Array.size_modify

/-- Two changes to one state are one. -/
theorem modify_modify (a : Arena) (id : StateId) (f h : State → State) :
    (a.modify id f).modify id h = a.modify id fun s => h (f s) := by
  unfold modify
  congr 1
  refine Array.ext_getElem? fun i => ?_
  simp only [Array.getElem?_modify]
  by_cases hi : id = i
  · simp [hi, Function.comp_def]
  · simp [hi]

/-- Changing nothing about a state that is there leaves the arena as it is. -/
theorem modify_eq_self {f : State → State}
    (hf : ∀ l, a.slot? id = some l → f l.state = l.state) : a.modify id f = a := by
  unfold modify
  congr 1
  refine Array.ext_getElem? fun i => ?_
  rw [Array.getElem?_modify]
  split
  · rename_i hi
    subst hi
    unfold slot? at hf
    cases h : a.slots[id]? with
    | none => rfl
    | some o =>
      cases o with
      | none => rfl
      | some l =>
        have hl := hf l (by rw [h]; rfl)
        simp [hl]
  · rfl

/-- The live states after a change to one state. -/
theorem liveAt_modify {f : State → State} :
    (a.modify id f).LiveAt x s ↔ ∃ t, a.LiveAt x t ∧ s = if x = id then f t else t := by
  rw [LiveAt, slot?_modify, Option.map_eq_some_iff]
  constructor
  · rintro ⟨⟨stage, t⟩, hl, h⟩
    split at h
    · cases h
      exact ⟨_, hl, (if_pos ‹_›).symm⟩
    · cases h
      exact ⟨_, hl, (if_neg ‹_›).symm⟩
  · rintro ⟨t, ht, rfl⟩
    refine ⟨_, ht, ?_⟩
    split
    · rfl
    · rfl

/-! ### Creating states -/

theorem slot?_push {a b : Arena} {o : Option Slot} (h : b.slots = a.slots.push o) :
    b.slot? x = if x = a.slots.size then o else a.slot? x := by
  unfold slot?
  rw [h, Array.getElem?_push]
  split
  · rfl
  · rfl

theorem slot?_addPending (a : Arena) (q : Nat) (n : Int) (c x : Nat) :
    (a.addPending q n c).2.slot? x =
      if x = a.slots.size then some ⟨.pending, .fresh (some q) n c⟩ else a.slot? x :=
  slot?_push rfl

/-- A new state is registered under its pair, all others stay registered as they were. -/
theorem keys_addPending (a : Arena) (q : Nat) (n : Int) (c : Nat) (p : Nat × Nat) :
    (a.addPending q n c).2.keys[p]? = if (q, c) = p then some a.slots.size else a.keys[p]? := by
  rw [addPending, Std.HashMap.getElem?_insert]
  simp

/-- The arena after the pending state `s` of an id became live. -/
def promoteNow (a : Arena) (id : StateId) (s : State) : Arena :=
  { a with slots := a.slots.setIfInBounds id (some ⟨.live, s⟩), live := a.live ++ [id] }

/-- What `promote` checked and did if it did not fail. -/
theorem promote_eq_ok (h : a.promote id = .ok b) :
    ∃ s, a.slot? id = some ⟨.pending, s⟩ ∧ b = a.promoteNow id s := by
  unfold promote at h
  obtain ⟨⟨stage, s⟩, hl, h⟩ := bind_eq_ok.1 h
  split at h
  · rename_i hp
    obtain rfl : stage = .pending := hp
    cases h
    exact ⟨s, slot_eq_ok.1 hl, rfl⟩
  · contradiction

theorem slot?_setIfInBounds {a b : Arena} {o : Option Slot} (hid : id < a.slots.size)
    (h : b.slots = a.slots.setIfInBounds id o) :
    b.slot? x = if x = id then o else a.slot? x := by
  unfold slot?
  rw [h, Array.getElem?_setIfInBounds]
  by_cases hx : x = id
  · subst hx
    rw [if_pos rfl, if_pos hid, if_pos rfl]
    rfl
  · rw [if_neg (Ne.symm hx), if_neg hx]

theorem slot?_promoteNow (hid : a.slot? id = some ⟨.pending, s⟩) (x : StateId) :
    (a.promoteNow id s).slot? x = if x = id then some ⟨.live, s⟩ else a.slot? x :=
  slot?_setIfInBounds (lt_size_of_slot? hid) rfl

@[simp] theorem promoteNow_size (a : Arena) (id : StateId) (s : State) :
    (a.promoteNow id s).slots.size = a.slots.size :=
  Array.size_setIfInBounds

theorem liveAt_promoteNow {t : State} (hid : a.slot? id = some ⟨.pending, s⟩) :
    (a.promoteNow id s).LiveAt x t ↔ x = id ∧ t = s ∨ a.LiveAt x t := by
  rw [LiveAt, slot?_promoteNow hid]
  by_cases hx : x = id
  · subst hx
    simp [LiveAt, hid, eq_comm]
  · simp [hx]

/-! ### Retiring states -/

/-- What becomes of the slot number `x` when the state `id` is retired. -/
def afterRetiring (id : StateId) (forward : Option StateId) (x : StateId) (l : Slot) : Slot :=
  if x = id then ⟨.retired forward, { l.state with transitions := [] }⟩
  else if l.stage = .retired (some id) then { l with stage := .retired forward }
  else l

/-- The arena after a state was retired, if its lists tell which states are live and which are
retired. -/
def retireNow (a : Arena) (id : StateId) (forward : Option StateId) : Arena :=
  { a with
    slots := a.slots.mapIdx fun x => Option.map (afterRetiring id forward x)
    live := a.live.filter (· ≠ id)
    retired := a.retired ++ [id] }

theorem slot?_retireNow (a : Arena) (id x : StateId) (f : Option StateId) :
    (a.retireNow id f).slot? x = (a.slot? x).map (afterRetiring id f x) := by
  unfold retireNow slot?
  rw [Array.getElem?_mapIdx]
  cases a.slots[x]? with
  | none => rfl
  | some o => rfl

@[simp] theorem retireNow_size (a : Arena) (id : StateId) (f : Option StateId) :
    (a.retireNow id f).slots.size = a.slots.size :=
  Array.size_mapIdx

/-- Whether only live states are listed as live, and the retired states as retired. -/
structure Pooled (a : Arena) : Prop where
  live_of_mem : ∀ x ∈ a.live, ∃ s, a.LiveAt x s
  mem_retired : ∀ x, x ∈ a.retired ↔ ∃ f s, a.slot? x = some ⟨.retired f, s⟩

/-- Changing a state changes no stage. -/
theorem Pooled.modify (h : a.Pooled) (id : StateId) (f : State → State) :
    (a.modify id f).Pooled where
  live_of_mem x hx := by
    obtain ⟨s, hs⟩ := h.live_of_mem x hx
    exact ⟨_, liveAt_modify.2 ⟨s, hs, rfl⟩⟩
  mem_retired x := by
    rw [modify_retired, h.mem_retired, slot?_modify]
    refine exists_congr fun g => ⟨?_, ?_⟩
    · rintro ⟨s, hs⟩
      rw [hs, Option.map_some]
      split
      · exact ⟨_, rfl⟩
      · exact ⟨_, rfl⟩
    · rintro ⟨s, hs⟩
      obtain ⟨⟨stage, t⟩, ht, hl⟩ := Option.map_eq_some_iff.1 hs
      split at hl
      · cases hl
        exact ⟨_, ht⟩
      · cases hl
        exact ⟨_, ht⟩

/-- What is not to be replaced by `id` any more stays as it is. -/
theorem reforward_reforward {f : Option StateId} (hself : f ≠ some id) (l : Slot) :
    (l.reforward id f).reforward id f = l.reforward id f := by
  unfold Slot.reforward
  by_cases hl : l.stage = .retired (some id)
  · rw [if_pos hl, if_neg]
    exact fun h => hself (Stage.retired.inj h)
  · rw [if_neg hl, if_neg hl]

/-- The retired states of a list are sent on. -/
def reforwardAll (id : StateId) (f : Option StateId) (xs : List StateId) (a : Arena) : Arena :=
  { a with slots := a.slots.mapIdx fun x =>
      Option.map fun l => if x ∈ xs then l.reforward id f else l }

/-- States that are there can be sent on one by one. -/
theorem foldlM_reforward {f : Option StateId} (hself : f ≠ some id) (xs : List StateId)
    (hsome : ∀ x ∈ xs, ∃ l, a.slot? x = some l) :
    xs.foldlM (reforward id f) a = .ok (a.reforwardAll id f xs) := by
  induction xs generalizing a with
  | nil =>
    have hid : a.slots.mapIdx (fun _ => Option.map fun l => l) = a.slots :=
      Array.ext_getElem? fun y => by simp
    simp only [List.foldlM_nil, pure_eq_ok, reforwardAll, List.not_mem_nil, if_false, hid]
  | cons x xs ih =>
    obtain ⟨l, hl⟩ := hsome x List.mem_cons_self
    have hlt := lt_size_of_slot? hl
    have hstep : reforward id f a x = .ok (a.setSlot x (l.reforward id f)) := by
      rw [reforward, slot_eq_ok.2 hl]
      rfl
    have hslot (y : StateId) : (a.setSlot x (l.reforward id f)).slot? y =
        if y = x then some (l.reforward id f) else a.slot? y := slot?_setIfInBounds hlt rfl
    rw [List.foldlM_cons, hstep, bind_ok, ih fun y hy => ?_]
    · unfold reforwardAll setSlot
      congr 2
      refine Array.ext_getElem? fun y => ?_
      have hget : a.slots[x]? = some (some l) := Option.join_eq_some_iff.1 hl
      simp only [Array.getElem?_mapIdx, Array.getElem?_setIfInBounds, List.mem_cons]
      by_cases hy : x = y
      · subst hy
        rw [if_pos rfl, if_pos hlt, hget]
        simp [reforward_reforward hself]
      · simp [hy, Ne.symm hy]
    · rw [hslot]
      split
      · exact ⟨_, rfl⟩
      · exact hsome y (List.mem_cons_of_mem x hy)

/-- Where the lists tell the stages, one change of all slots retires a state. -/
theorem Pooled.retireNow_eq (h : a.Pooled) {f : Option StateId} {l : Slot} (hself : f ≠ some id)
    (hl : a.slot? id = some l) :
    { (a.withdraw id f l).reforwardAll id f a.retired with retired := a.retired ++ [id] } =
      a.retireNow id f := by
  have hlt := lt_size_of_slot? hl
  have hget : a.slots[id]? = some (some l) := Option.join_eq_some_iff.1 hl
  have hlive : (if l.stage = .live then a.live.filter (· ≠ id) else a.live) =
      a.live.filter (· ≠ id) := by
    split
    · rfl
    · rename_i hstage
      refine (List.filter_eq_self.2 fun x hx => decide_eq_true ?_).symm
      rintro rfl
      obtain ⟨s, hs⟩ := h.live_of_mem x hx
      exact hstage (by rw [Option.some.inj (hl.symm.trans hs)])
  refine (Arena.mk.injEq ..).mpr ⟨Array.ext_getElem? fun x => ?_, rfl, rfl, hlive, rfl⟩
  simp only [reforwardAll, withdraw, setSlot, Array.getElem?_mapIdx, Array.getElem?_setIfInBounds]
  by_cases hx : id = x
  · subst hx
    rw [if_pos rfl, if_pos hlt, hget]
    simp [afterRetiring, Slot.reforward, Slot.retire]
  · rw [if_neg hx]
    cases hm : a.slots[x]? with
    | none => rfl
    | some o =>
      cases o with
      | none => rfl
      | some m =>
        simp only [Option.map_some, afterRetiring, if_neg (Ne.symm hx)]
        split
        · rfl
        · -- what is not listed is not retired
          rename_i hmem
          rw [if_neg]
          exact fun hm' => hmem ((h.mem_retired x).2
            ⟨some id, m.state, by rw [slot?, hm, ← hm']; rfl⟩)

/-- A state that is not retired is taken out, and the retired states are gone through. -/
theorem Pooled.withdraw_eq (h : a.Pooled) {f : Option StateId} {l : Slot} (hself : f ≠ some id)
    (hl : a.slot? id = some l) :
    (do
      let c ← a.retired.foldlM (reforward id f) (a.withdraw id f l)
      pure { c with retired := c.retired ++ [id] } : Except Fault Arena) =
      .ok (a.retireNow id f) := by
  have hsome : ∀ x ∈ a.retired, ∃ m, (a.withdraw id f l).slot? x = some m := fun x hx => by
    have hslot : (a.withdraw id f l).slot? x = if x = id then some (l.retire f) else a.slot? x :=
      slot?_setIfInBounds (lt_size_of_slot? hl) rfl
    rw [hslot]
    split
    · exact ⟨_, rfl⟩
    · obtain ⟨g, s, hs⟩ := (h.mem_retired x).1 hx
      exact ⟨_, hs⟩
  rw [foldlM_reforward hself a.retired hsome, bind_ok, ← h.retireNow_eq hself hl]
  rfl

/-- What `retire` checked and did if it did not fail. -/
theorem Pooled.retire_eq_ok (h : a.Pooled) {f : Option StateId} : a.retire id f = .ok b ↔
    f ≠ some id ∧ (∀ y, f = some y → ∃ l, a.slot? y = some l ∧ l.stage.isRetired = false) ∧
      (∃ l, a.slot? id = some l ∧ l.stage.isRetired = false) ∧ a.retireNow id f = b := by
  by_cases hself : f = some id
  · simp [retire, hself]
  have hlast : (do
      let s ← a.slot id
      if s.stage.isRetired then throw (.alreadyRetired id)
      let c ← a.retired.foldlM (reforward id f) (a.withdraw id f s)
      pure { c with retired := c.retired ++ [id] } : Except Fault Arena) = .ok b ↔
      (∃ l, a.slot? id = some l ∧ l.stage.isRetired = false) ∧ a.retireNow id f = b := by
    cases hl : a.slot id with
    | error e => simp [← slot_eq_ok, hl]
    | ok l =>
      have hnow := h.withdraw_eq hself (slot_eq_ok.1 hl)
      simp only [pure_eq_ok] at hnow
      cases hret : l.stage.isRetired with
      | true => simp [← slot_eq_ok, hl, hret]
      | false => simp [← slot_eq_ok, hl, hret, hnow]
  unfold retire
  cases f with
  | none => simpa using hlast
  | some y =>
    have hne : y ≠ id := fun he => hself (by rw [he])
    cases hl : a.slot y with
    | error e => simp [hne, ← slot_eq_ok, hl]
    | ok l =>
      cases hret : l.stage.isRetired with
      | false => simpa [hne, ← slot_eq_ok, hl, hret] using hlast
      | true => simp [hne, ← slot_eq_ok, hl, hret]

/-! ### Freeing slots -/

/-- The arena after a slot was freed, if it was there. -/
def forgetNow (a : Arena) (id : StateId) : Arena :=
  match a.slot? id with
  | none => a
  | some l => { a with keys := a.keysWithout id l.state, slots := a.slots.setIfInBounds id none }

/-- What `forget` checked and did if it did not fail. -/
theorem forget_eq_ok : a.forget id = .ok b ↔ (∃ l, a.slot? id = some l) ∧ a.forgetNow id = b := by
  unfold forget state forgetNow
  cases hl : a.slot id with
  | error e => simp [← slot_eq_ok, hl, Except.map]
  | ok l => simp [slot_eq_ok.1 hl, Except.map]

/-- The arena after the retired states were freed, if they were there. -/
def sweepNow (a : Arena) : Arena :=
  { a.retired.foldl forgetNow a with retired := [] }

theorem slot?_forgetNow (a : Arena) (id x : StateId) :
    (a.forgetNow id).slot? x = if x = id then none else a.slot? x := by
  unfold forgetNow
  split
  · rename_i h
    split
    · rename_i hx
      rw [hx, h]
    · rfl
  · rename_i l h
    exact slot?_setIfInBounds (lt_size_of_slot? h) rfl

@[simp] theorem forgetNow_live (a : Arena) (id : StateId) : (a.forgetNow id).live = a.live := by
  unfold forgetNow
  split
  · rfl
  · rfl

theorem foldl_forgetNow_live (ids : List StateId) (a : Arena) :
    (ids.foldl forgetNow a).live = a.live := by
  induction ids generalizing a with
  | nil => rfl
  | cons id ids ih => rw [List.foldl_cons, ih, forgetNow_live]

@[simp] theorem forgetNow_pending (a : Arena) (id : StateId) :
    (a.forgetNow id).pending = a.pending := by
  unfold forgetNow
  split
  · rfl
  · rfl

theorem foldl_forgetNow_pending (ids : List StateId) (a : Arena) :
    (ids.foldl forgetNow a).pending = a.pending := by
  induction ids generalizing a with
  | nil => rfl
  | cons id ids ih => rw [List.foldl_cons, ih, forgetNow_pending]

theorem slot?_foldl_forgetNow (ids : List StateId) (a : Arena) (x : StateId) :
    (ids.foldl forgetNow a).slot? x = if x ∈ ids then none else a.slot? x := by
  induction ids generalizing a with
  | nil => rfl
  | cons id ids ih =>
    rw [List.foldl_cons, ih, slot?_forgetNow]
    by_cases hx : x = id
    · simp [hx]
    · simp [hx]

theorem slot?_sweepNow (a : Arena) (x : StateId) :
    a.sweepNow.slot? x = if x ∈ a.retired then none else a.slot? x :=
  slot?_foldl_forgetNow a.retired a x

@[simp] theorem sweepNow_live (a : Arena) : a.sweepNow.live = a.live :=
  foldl_forgetNow_live a.retired a

@[simp] theorem sweepNow_pending (a : Arena) : a.sweepNow.pending = a.pending :=
  foldl_forgetNow_pending a.retired a

@[simp] theorem sweepNow_retired (a : Arena) : a.sweepNow.retired = [] := rfl

theorem forgetNow_setRetired (a : Arena) (id : StateId) (ids : List StateId) :
    forgetNow { a with retired := ids } id = { a.forgetNow id with retired := ids } := by
  have hslot : slot? { a with retired := ids } id = a.slot? id := rfl
  unfold forgetNow
  rw [hslot]
  split
  · rfl
  · rfl

/-- Forgetting a list of states, one by one. -/
theorem foldlM_forget_eq_ok {ids : List StateId} (h : ids.foldlM forget a = .ok b) :
    ids.foldl forgetNow a = b := by
  induction ids generalizing a with
  | nil => exact Except.ok.inj h
  | cons id ids ih =>
    rw [List.foldlM_cons] at h
    obtain ⟨c, hc, h⟩ := bind_eq_ok.1 h
    obtain ⟨-, rfl⟩ := forget_eq_ok.1 hc
    exact ih h

theorem foldl_forgetNow_setRetired (a : Arena) (ids xs : List StateId) :
    xs.foldl forgetNow { a with retired := ids } = { xs.foldl forgetNow a with retired := ids } := by
  induction xs generalizing a with
  | nil => rfl
  | cons x xs ih => rw [List.foldl_cons, List.foldl_cons, forgetNow_setRetired, ih]

/-- What `sweep` did if it did not fail. -/
theorem eq_sweepNow (h : a.sweep = .ok b) : b = a.sweepNow := by
  rw [← foldlM_forget_eq_ok h, foldl_forgetNow_setRetired]
  rfl

/-- States that are there, each listed once, can be forgotten. -/
theorem foldlM_forget {ids : List StateId} (hnodup : ids.Nodup)
    (hsome : ∀ x ∈ ids, ∃ l, a.slot? x = some l) :
    ids.foldlM forget a = .ok (ids.foldl forgetNow a) := by
  induction ids generalizing a with
  | nil => rfl
  | cons id ids ih =>
    obtain ⟨hid, hnodup⟩ := List.nodup_cons.1 hnodup
    rw [List.foldlM_cons, forget_eq_ok.2 ⟨hsome id List.mem_cons_self, rfl⟩, bind_ok]
    refine ih hnodup fun x hx => ?_
    rw [slot?_forgetNow, if_neg fun he : x = id => hid (he ▸ hx)]
    exact hsome x (List.mem_cons_of_mem id hx)

/-- **The retired states are freed** if each is listed once. -/
theorem Pooled.sweep_eq (h : a.Pooled) (hnodup : a.retired.Nodup) : a.sweep = .ok a.sweepNow := by
  have hsome : ∀ x ∈ a.retired, ∃ l, slot? { a with retired := [] } x = some l := fun x hx => by
    obtain ⟨f, s, hs⟩ := (h.mem_retired x).1 hx
    exact ⟨_, hs⟩
  rw [sweep, foldlM_forget hnodup hsome, foldl_forgetNow_setRetired]
  rfl

end Arena

end OmegaAutomata
