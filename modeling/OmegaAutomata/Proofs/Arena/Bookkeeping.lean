/-
# Stages, lists and pairs

The stage of a state is told in several ways: by its slot, by the lists of live and of retired
states, and by the table that finds the state of a source and a counter.  Each way has a condition
of its own, which says that it agrees with the slots: `Lively` and `Tallied` are about the two
lists, and `Keyed` is about the table.  They ask for nothing else, so they hold of any arena,
whatever its transitions are and whether or not a construction has come to it.

Only a few things can happen to a stage.  There is one lemma for each of them and each condition:
a state becomes live (`Lively.concat`), is retired (`Lively.retireNow`, `Tallied.retireNow`), is
created (`Keyed.addPending`) or is freed (`Keyed.forgetNow`, `Tallied.sweepNow`).  What changes no
stage keeps the lists as they are (`Lively.congr`, `Tallied.congr`).
-/

import OmegaAutomata.Proofs.Degeneralize.Budget

namespace OmegaAutomata

namespace Arena

variable {a b c : Arena} {id x y : StateId} {s : State} {l : Slot} {f : State → State}
  {ids promoted : List StateId} {n : Nat × Nat} {forward : Option StateId}

/-! ### Stages and nodes -/

/-- The stage of a state that was not freed. -/
def stage? (a : Arena) (x : StateId) : Option Stage :=
  (a.slot? x).map Slot.stage

theorem stage?_eq (h : a.slot? x = some l) : a.stage? x = some l.stage := by
  rw [stage?, h, Option.map_some]

theorem stage?_eq_some {stage : Stage} :
    a.stage? x = some stage ↔ ∃ s, a.slot? x = some ⟨stage, s⟩ := by
  rw [stage?, Option.map_eq_some_iff]
  constructor
  · rintro ⟨l, hl, rfl⟩
    exact ⟨l.state, hl⟩
  · rintro ⟨s, hs⟩
    exact ⟨_, hs, rfl⟩

theorem stage?_eq_none_of_le (h : a.slots.size ≤ x) : a.stage? x = none := by
  rw [stage?, slot?_eq_none_of_le h, Option.map_none]

theorem nodeOf_eq_none_of_le (h : a.slots.size ≤ x) : a.nodeOf x = none := by
  rw [nodeOf, slot?_eq_none_of_le h, Option.bind_none]

theorem stage?_modify (a : Arena) (id x : StateId) (f : State → State) :
    (a.modify id f).stage? x = a.stage? x := by
  rw [stage?, slot?_modify, stage?, Option.map_map]
  congr 1
  funext l
  by_cases hx : x = id <;> simp [hx]

theorem nodeOf_modify (hf : ∀ s, (f s).node = s.node) : (a.modify id f).nodeOf x = a.nodeOf x := by
  rw [nodeOf, slot?_modify, nodeOf, Option.bind_map]
  congr 1
  funext l
  by_cases hx : x = id <;> simp [hx, hf]

theorem stage?_addPending (a : Arena) (q : Nat) (i : Int) (k : Nat) (x : StateId) :
    (a.addPending q i k).2.stage? x = if x = a.slots.size then some .pending else a.stage? x := by
  rw [stage?, slot?_addPending]
  split <;> rfl

/-- A pair is resolved by creating a state for it, if there is none, or without any change. -/
theorem resolve_eq_ok {q k : Nat} {i : Int} (h : a.resolve q i k = .ok (x, b)) :
    a.keys[(q, k)]? = none ∧ a.addPending q i k = (x, b) ∨ b = a := by
  unfold Arena.resolve at h
  split at h
  · rename_i hkey
    exact .inl ⟨hkey, Except.ok.inj h⟩
  · split at h
    · contradiction
    · cases h
      exact .inr rfl
    · cases h
      exact .inr rfl

/-- A transition that is added changes no stage and no pair. -/
theorem link_keeps {onTheFly : Bool} {r : Transition}
    (hb : Construction.link onTheFly a id r = .ok b) : b.slots.size = a.slots.size ∧
      b.keys = a.keys ∧ (∀ x, b.stage? x = a.stage? x) ∧ ∀ x, b.nodeOf x = a.nodeOf x := by
  obtain ⟨l, m, f, -, -, rfl, -⟩ := Construction.link_eq_ok hb
  refine ⟨?_, rfl, fun x => ?_, fun x => ?_⟩
  · rw [setTransitions, modify_size, recount, modify_size]
  · rw [setTransitions, stage?_modify, recount, stage?_modify]
  · rw [setTransitions, nodeOf_modify, recount, nodeOf_modify]
    · exact fun _ => rfl
    · exact fun _ => rfl

theorem stage?_promoteNow (hid : a.slot? id = some ⟨.pending, s⟩) (x : StateId) :
    (a.promoteNow id s).stage? x = if x = id then some .live else a.stage? x := by
  rw [stage?, slot?_promoteNow hid]
  split <;> rfl

theorem nodeOf_promoteNow (hid : a.slot? id = some ⟨.pending, s⟩) (x : StateId) :
    (a.promoteNow id s).nodeOf x = a.nodeOf x := by
  rw [nodeOf, slot?_promoteNow hid]
  split
  · rename_i hx
    rw [hx, nodeOf_eq hid, Option.bind_some]
  · rfl

/-- A retirement gives one state a stage, and changes the replacement of others if that was it. -/
theorem stage?_retireNow (a : Arena) (id x : StateId) (forward : Option StateId) :
    (a.retireNow id forward).stage? x = (a.stage? x).map fun stage =>
      if x = id ∨ stage = .retired (some id) then .retired forward else stage := by
  rw [stage?, slot?_retireNow, stage?, Option.map_map, Option.map_map]
  congr 1
  funext l
  unfold afterRetiring
  by_cases hx : x = id
  · simp [hx]
  · by_cases hl : l.stage = .retired (some id) <;> simp [hx, hl]

theorem nodeOf_retireNow (a : Arena) (id x : StateId) (forward : Option StateId) :
    (a.retireNow id forward).nodeOf x = a.nodeOf x := by
  rw [nodeOf, slot?_retireNow, nodeOf, Option.bind_map]
  congr 1
  funext l
  simp only [Function.comp_apply, afterRetiring]
  split_ifs <;> rfl

theorem stage?_forgetNow (a : Arena) (id x : StateId) :
    (a.forgetNow id).stage? x = if x = id then none else a.stage? x := by
  rw [stage?, slot?_forgetNow]
  split <;> rfl

theorem nodeOf_forgetNow (a : Arena) (id x : StateId) :
    (a.forgetNow id).nodeOf x = if x = id then none else a.nodeOf x := by
  rw [nodeOf, slot?_forgetNow]
  split <;> rfl

theorem stage?_sweepNow (a : Arena) (x : StateId) :
    a.sweepNow.stage? x = if x ∈ a.retired then none else a.stage? x := by
  rw [stage?, slot?_sweepNow]
  split <;> rfl

theorem isLive_iff_stage? : a.isLive x = true ↔ a.stage? x = some .live := by
  rw [isLive_iff, stage?_eq_some]

theorem nodeOf_eq_some : a.nodeOf x = some n ↔
    ∃ l, a.slot? x = some l ∧ l.state.source = some n.1 ∧ l.state.counter = n.2 := by
  rw [nodeOf, Option.bind_eq_some_iff]
  refine exists_congr fun l => and_congr_right fun _ => ⟨State.node_eq_some, fun h => ?_⟩
  rw [State.node, h.1, h.2, Option.map_some]

/-! ### The table of pairs -/

/-- Whether the states that were not freed are found under their pairs, and no others. -/
def Keyed (a : Arena) : Prop :=
  ∀ n x, a.keys[n]? = some x ↔ a.nodeOf x = some n

theorem Keyed.congr (h : a.Keyed) (hkeys : b.keys = a.keys)
    (hnode : ∀ x, b.nodeOf x = a.nodeOf x) : b.Keyed := by
  intro n x
  rw [hkeys, hnode]
  exact h n x

theorem Keyed.addPending (h : a.Keyed) {q k : Nat} (hnone : a.keys[(q, k)]? = none)
    (identity : Int) : (a.addPending q identity k).2.Keyed := by
  intro n x
  rw [keys_addPending, nodeOf, slot?_addPending]
  by_cases hx : x = a.slots.size
  · have hn : ¬a.keys[n]? = some x := by
      rw [h n x, nodeOf_eq_none_of_le (Nat.le_of_eq hx.symm)]
      simp
    rw [if_pos hx, Option.bind_some]
    by_cases hqn : (q, k) = n
    · simp [hqn, hx, State.fresh, State.node]
    · simp [hqn, hn, State.fresh, State.node]
  · rw [if_neg hx]
    by_cases hqn : (q, k) = n
    · have hn := h n x
      rw [← hqn, hnone, nodeOf] at hn
      rw [if_pos hqn, ← hqn, ← hn]
      simp [Ne.symm hx]
    · rw [if_neg hqn]
      exact h n x

/-- A freed state takes its entry with it. -/
theorem Keyed.keys_forgetNow (h : a.Keyed) (id : StateId) (n : Nat × Nat) :
    (a.forgetNow id).keys[n]? = if a.keys[n]? = some id then none else a.keys[n]? := by
  have hnone (hid : a.nodeOf id = none) : ¬a.keys[n]? = some id := by
    rw [h, hid]
    simp
  unfold Arena.forgetNow keysWithout
  cases hid : a.slot? id with
  | none => rw [if_neg (hnone (by rw [nodeOf, hid, Option.bind_none]))]
  | some l =>
    dsimp only
    cases hsource : l.state.source with
    | none => rw [if_neg (hnone (by rw [nodeOf_eq hid, State.node, hsource, Option.map_none]))]
    | some q =>
      have hnode : a.nodeOf id = some (q, l.state.counter) := by
        rw [nodeOf_eq hid, State.node, hsource, Option.map_some]
      dsimp only
      rw [if_pos ((h _ _).2 hnode), Std.HashMap.getElem?_erase]
      simp only [h n id, hnode, Option.some.injEq, beq_iff_eq]

theorem Keyed.forgetNow (h : a.Keyed) (id : StateId) : (a.forgetNow id).Keyed := by
  intro n x
  rw [h.keys_forgetNow, nodeOf_forgetNow]
  by_cases hx : x = id
  · rw [if_pos hx, hx]
    split
    · simp
    · simp [‹¬_›]
  · rw [if_neg hx, ← h n x]
    split
    · rename_i hn
      simp [hn, Ne.symm hx]
    · rfl

theorem Keyed.sweepNow (h : a.Keyed) : a.sweepNow.Keyed := by
  have hfold (ids : List StateId) : (ids.foldl Arena.forgetNow a).Keyed := by
    induction ids generalizing a with
    | nil => exact h
    | cons id ids ih => exact ih (h.forgetNow id)
  exact hfold a.retired

/-! ### The list of live states -/

/-- Whether the list of an arena has the live states, when `promoted` became live in this order. -/
structure Lively (promoted : List StateId) (a : Arena) : Prop where
  promoted_nodup : promoted.Nodup
  promoted_old : ∀ x ∈ promoted, x < a.slots.size ∧ a.stage? x ≠ some .pending
  mem_promoted : ∀ x, a.stage? x = some .live → x ∈ promoted
  live_eq : a.live = promoted.filter fun x => a.stage? x = some .live

/-- The list stays as it is when no state begins or ceases to be live. -/
theorem Lively.congr (h : Lively promoted a) (hsize : a.slots.size ≤ b.slots.size)
    (hlist : b.live = a.live) (hlive : ∀ x, b.stage? x = some .live ↔ a.stage? x = some .live)
    (hpending : ∀ x < a.slots.size, b.stage? x = some .pending → a.stage? x = some .pending) :
    Lively promoted b where
  promoted_nodup := h.promoted_nodup
  promoted_old x hx := by
    obtain ⟨hlt, hnot⟩ := h.promoted_old x hx
    exact ⟨Nat.lt_of_lt_of_le hlt hsize, fun hp => hnot (hpending x hlt hp)⟩
  mem_promoted x hx := h.mem_promoted x ((hlive x).1 hx)
  live_eq := by
    rw [hlist, h.live_eq]
    exact List.filter_congr fun x _ => by rw [decide_eq_decide, hlive]

/-- **A state that becomes live** is put at the end of the list. -/
theorem Lively.concat (h : Lively promoted a) (hid : id ∉ promoted) (hlt : id < b.slots.size)
    (hsize : a.slots.size ≤ b.slots.size) (hlist : b.live = a.live ++ [id])
    (hstage : ∀ x, b.stage? x = if x = id then some .live else a.stage? x) :
    Lively (promoted ++ [id]) b := by
  have hother {x : StateId} (hx : x ∈ promoted) : b.stage? x = a.stage? x := by
    rw [hstage, if_neg]
    rintro rfl
    exact hid hx
  have hself : b.stage? id = some .live := by rw [hstage, if_pos rfl]
  refine ⟨?_, fun x hx => ?_, fun x hx => ?_, ?_⟩
  · have hnodup := (List.nodup_concat promoted id).2 ⟨hid, h.promoted_nodup⟩
    rwa [List.concat_eq_append] at hnodup
  · rcases List.mem_append.1 hx with hx | hx
    · rw [hother hx]
      exact ⟨Nat.lt_of_lt_of_le (h.promoted_old x hx).1 hsize, (h.promoted_old x hx).2⟩
    · rw [List.mem_singleton.1 hx, hself]
      exact ⟨hlt, by simp⟩
  · by_cases hxid : x = id
    · exact List.mem_append_right _ (List.mem_singleton.2 hxid)
    · rw [hstage, if_neg hxid] at hx
      exact List.mem_append_left _ (h.mem_promoted x hx)
  · have hold : (promoted.filter fun x => b.stage? x = some .live) =
        promoted.filter fun x => a.stage? x = some .live :=
      List.filter_congr fun x hx => by rw [hother hx]
    rw [hlist, h.live_eq, List.filter_append, hold, List.filter_singleton, hself]
    rfl

/-- **A state that is retired** is taken out of the list. -/
theorem Lively.retireNow (h : Lively promoted a) (id : StateId) (forward : Option StateId) :
    Lively promoted (a.retireNow id forward) := by
  have hstage {x : StateId} {stage : Stage} (hret : stage.isRetired = false) :
      (a.retireNow id forward).stage? x = some stage ↔ x ≠ id ∧ a.stage? x = some stage := by
    rw [stage?_retireNow, Option.map_eq_some_iff]
    constructor
    · rintro ⟨stage', hx, rfl⟩
      split at hret
      · contradiction
      · rename_i hnot
        rw [if_neg hnot]
        exact ⟨fun hxid => hnot (.inl hxid), hx⟩
    · rintro ⟨hxid, hx⟩
      refine ⟨stage, hx, if_neg ?_⟩
      rintro (rfl | rfl)
      · exact hxid rfl
      · contradiction
  refine ⟨h.promoted_nodup, fun x hx => ?_, fun x hx => h.mem_promoted x ((hstage rfl).1 hx).2, ?_⟩
  · obtain ⟨hlt, hnot⟩ := h.promoted_old x hx
    rw [retireNow_size]
    exact ⟨hlt, fun hp => hnot ((hstage rfl).1 hp).2⟩
  · show a.live.filter (fun x => x ≠ id) = _
    rw [h.live_eq, List.filter_filter]
    exact List.filter_congr fun x _ => by
      rw [← Bool.decide_and, decide_eq_decide, hstage rfl]

/-! ### The list of retired states -/

/-- Whether the list of an arena has the retired states, and no replacement is retired. -/
structure Tallied (a : Arena) : Prop where
  retired_nodup : a.retired.Nodup
  mem_retired : ∀ x, x ∈ a.retired ↔ ∃ f, a.stage? x = some (.retired f)
  forward : ∀ x y, a.stage? x = some (.retired (some y)) → ∀ f, a.stage? y ≠ some (.retired f)

/-- The list stays as it is when no state is retired or freed. -/
theorem Tallied.congr (h : a.Tallied) (hlist : b.retired = a.retired)
    (hstage : ∀ x f, b.stage? x = some (.retired f) ↔ a.stage? x = some (.retired f)) :
    b.Tallied where
  retired_nodup := hlist ▸ h.retired_nodup
  mem_retired x := by
    rw [hlist, h.mem_retired]
    exact exists_congr fun f => (hstage x f).symm
  forward x y hx f hy := h.forward x y ((hstage x _).1 hx) f ((hstage y f).1 hy)

/-- **A state that is retired** is put at the end of the list.  Those that it was to replace are now
replaced by its replacement, which is not retired. -/
theorem Tallied.retireNow (h : a.Tallied) (hid : a.slot? id = some l)
    (hl : l.stage.isRetired = false) (hself : forward ≠ some id)
    (hforward : ∀ y, forward = some y → ∀ f, a.stage? y ≠ some (.retired f)) :
    (a.retireNow id forward).Tallied := by
  have hretired (x : StateId) : (∃ f, (a.retireNow id forward).stage? x = some (.retired f)) ↔
      x = id ∨ ∃ f, a.stage? x = some (.retired f) := by
    simp only [stage?_eq_some]
    exact isRetired_retireNow hid
  have hnot {y : StateId} (hy : y ≠ id) (hold : ∀ f, a.stage? y ≠ some (.retired f))
      (f : Option StateId) : (a.retireNow id forward).stage? y ≠ some (.retired f) := by
    intro hf
    rcases (hretired y).1 ⟨f, hf⟩ with hyid | ⟨r, hr⟩
    · exact hy hyid
    · exact hold r hr
  refine ⟨?_, fun x => ?_, fun x y hx => ?_⟩
  · have hmem : id ∉ a.retired := by
      rw [h.mem_retired]
      rintro ⟨f, hf⟩
      rw [stage?_eq hid] at hf
      rw [Option.some.inj hf] at hl
      contradiction
    have hnodup := (List.nodup_concat a.retired id).2 ⟨hmem, h.retired_nodup⟩
    rwa [List.concat_eq_append] at hnodup
  · rw [hretired, ← h.mem_retired]
    simp [Arena.retireNow, or_comm]
  · obtain ⟨s, hs⟩ := stage?_eq_some.1 hx
    rcases forward_retireNow hs with hy | ⟨hy, t, ht⟩
    · exact hnot (fun hyid => hself (hyid ▸ hy)) (hforward y hy)
    · exact hnot hy (h.forward x y (stage?_eq ht))

/-- When the retired states are freed, none is left. -/
theorem Tallied.sweepNow (h : a.Tallied) : a.sweepNow.Tallied := by
  have hnone (x : StateId) (f : Option StateId) : a.sweepNow.stage? x ≠ some (.retired f) := by
    rw [stage?_sweepNow]
    split
    · simp
    · rename_i hx
      exact fun hf => hx ((h.mem_retired x).2 ⟨f, hf⟩)
  refine ⟨.nil, fun x => ?_, fun x y hx => absurd hx (hnone x _)⟩
  rw [sweepNow_retired]
  exact iff_of_false List.not_mem_nil fun ⟨f, hf⟩ => hnone x f hf

/-! ### Numbers of freed states -/

theorem forgetNow_size (a : Arena) (id : StateId) : (a.forgetNow id).slots.size = a.slots.size := by
  unfold forgetNow
  split
  · rfl
  · exact Array.size_setIfInBounds

theorem forgetNow_retired (a : Arena) (id : StateId) : (a.forgetNow id).retired = a.retired := by
  unfold forgetNow
  split
  · rfl
  · rfl

/-- Whether every number that was given to a state of `a` is still given to it in `b`, or to none if
the state was freed. -/
structure Outlasts (a b : Arena) : Prop where
  size_le : a.slots.size ≤ b.slots.size
  freed : ∀ x < a.slots.size, a.slot? x = none → b.slot? x = none

theorem Outlasts.refl (a : Arena) : Outlasts a a :=
  ⟨Nat.le_refl _, fun _ _ hx => hx⟩

theorem Outlasts.trans (hab : Outlasts a b) (hbc : Outlasts b c) : Outlasts a c where
  size_le := Nat.le_trans hab.size_le hbc.size_le
  freed x hx hnone := hbc.freed x (Nat.lt_of_lt_of_le hx hab.size_le) (hab.freed x hx hnone)

theorem outlasts_forgetNow (a : Arena) (id : StateId) : Outlasts a (a.forgetNow id) where
  size_le := Nat.le_of_eq (forgetNow_size a id).symm
  freed x _ hx := by
    rw [slot?_forgetNow, hx, ite_self]

theorem outlasts_sweepNow (a : Arena) : Outlasts a a.sweepNow := by
  have hfold (ids : List StateId) (b : Arena) (hb : Outlasts a b) :
      Outlasts a (ids.foldl forgetNow b) := by
    induction ids generalizing b with
    | nil => exact hb
    | cons id ids ih => exact ih _ (hb.trans (outlasts_forgetNow b id))
  have hswept := hfold a.retired a (.refl a)
  exact ⟨hswept.size_le, hswept.freed⟩

end Arena

end OmegaAutomata
