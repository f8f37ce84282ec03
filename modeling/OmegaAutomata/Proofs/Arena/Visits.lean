/-
# What a classification leaves

A classification visits the live states in order, and a visit changes one slot: it retires the state
or marks it.  `Visited` says what is found in every slot and what the lists hold when some states
were visited.  Nothing is asked of the arena but that its lists tell the stages and that no state is
retired, so this also describes arenas with pending states and with marks that were wrong before.

Whether a state was reached is a matter of the paths from the root (`Tidy.isSome_iff_reachedFrom`),
and the mark of a state that was reached is a matter of the cycles through it.
-/

import OmegaAutomata.Proofs.Arena.Rest

namespace OmegaAutomata

namespace Arena

variable {a b : Arena} {n : Nat} {x y : StateId} {s : State} {cs : Components}
  {seen rest : List StateId} {root : Option StateId}

/-- Whether a path leads from the root, which has to be live, to a state. -/
def ReachedFrom (a : Arena) (root : Option StateId) (x : StateId) : Prop :=
  ∃ i s, root = some i ∧ a.LiveAt i s ∧ Relation.ReflTransGen a.Leads i x

/-- **The states with a component** are those that are reached. -/
theorem Tidy.isSome_iff_reachedFrom (h : a.Tidy) (hcs : a.components root = .ok cs) :
    (cs.component? x).isSome = true ↔ a.ReachedFrom root x := by
  rw [(decomposes_of_strongComponents hcs).isSome_iff x]
  simp only [Option.mem_toList, Option.filter_eq_some_iff, isLive_iff]
  constructor
  · rintro ⟨i, ⟨hi, s, hs⟩, hix⟩
    exact ⟨i, s, hi, hs, h.leads_of_reaches hix hs⟩
  · rintro ⟨i, s, hi, hs, hix⟩
    exact ⟨i, ⟨hi, s, hs⟩, h.reaches_of_leads hix⟩

/-! ### Visits -/

/-- The slot of a live state after it was visited. -/
def visitedSlot (cs : Components) (x : StateId) (s : State) : Slot :=
  if (cs.component? x).isSome then ⟨.live, marked cs x s⟩
  else ⟨.retired none, { s with transitions := [] }⟩

/-- What is found in the arena `b` after the states of `seen` were visited in the arena `a`, while
those of `rest` are left. -/
structure Visited (cs : Components) (a : Arena) (seen rest : List StateId) (b : Arena) : Prop where
  slot?_eq : ∀ x, b.slot? x =
    if x ∈ seen then (a.slot? x).map fun l => visitedSlot cs x l.state else a.slot? x
  live_eq : b.live = (seen.filter fun x => (cs.component? x).isSome) ++ rest
  retired_eq : b.retired = seen.filter fun x => (cs.component? x).isNone
  pending_eq : b.pending = a.pending
  keys_eq : b.keys = a.keys

theorem visited_nil (hretired : a.retired = []) : Visited cs a [] a.live a :=
  ⟨fun _ => rfl, rfl, hretired, rfl, rfl⟩

/-- A state that was not visited yet is as it was. -/
theorem Visited.slot?_of_not_mem (h : Visited cs a seen rest b) (hx : x ∉ seen) :
    b.slot? x = a.slot? x := by
  rw [h.slot?_eq, if_neg hx]

theorem Visited.slot?_of_mem (h : Visited cs a seen rest b) (hx : x ∈ seen)
    (hs : a.LiveAt x s) : b.slot? x = some (visitedSlot cs x s) := by
  rw [h.slot?_eq, if_pos hx, hs]
  rfl

/-- No state is retired in favour of another one. -/
theorem Visited.stage_ne_forward (h : Visited cs a seen rest b)
    (hnone : ∀ x f s, a.slot? x ≠ some ⟨.retired f, s⟩) {l : Slot} (hl : b.slot? y = some l) :
    l.stage ≠ .retired (some x) := by
  intro hstage
  rw [h.slot?_eq] at hl
  split at hl
  · obtain ⟨m, -, rfl⟩ := Option.map_eq_some_iff.1 hl
    unfold visitedSlot at hstage
    split at hstage
    · cases hstage
    · cases hstage
  · exact hnone y (some x) l.state (by rw [hl, ← hstage])

/-- A state that was not reached is retired, and no other slot changes. -/
theorem Visited.retire (h : Visited cs a seen (x :: rest) b)
    (hnone : ∀ x f s, a.slot? x ≠ some ⟨.retired f, s⟩) (hnodup : (seen ++ x :: rest).Nodup)
    (hs : a.LiveAt x s) (hx : cs.component? x = none) :
    Visited cs a (seen ++ [x]) rest (b.retireNow x none) := by
  obtain ⟨hseen, hxrest⟩ :=
    not_or.1 (mt List.mem_append.2 (List.nodup_cons.1 (List.nodup_middle.1 hnodup)).1)
  have hne {ys : List StateId} (hys : x ∉ ys) : ys.filter (· ≠ x) = ys :=
    List.filter_eq_self.2 fun y hy => decide_eq_true fun he => hys (he ▸ hy)
  refine ⟨fun y => ?_, ?_, ?_, h.pending_eq, h.keys_eq⟩
  · rw [slot?_retireNow]
    by_cases hy : y = x
    · subst hy
      rw [h.slot?_of_not_mem hseen, hs]
      simp [afterRetiring, visitedSlot, hx]
    · have hsame : (b.slot? y).map (afterRetiring x none y) = b.slot? y := by
        cases hl : b.slot? y with
        | none => rfl
        | some l => simp [afterRetiring, hy, h.stage_ne_forward hnone hl]
      rw [hsame, h.slot?_eq]
      simp [hy]
  · rw [Arena.retireNow, h.live_eq, List.filter_append, List.filter_cons_of_neg (by simp),
      hne hxrest, hne fun hmem => hseen (List.mem_of_mem_filter hmem), List.filter_append]
    simp [hx]
  · rw [Arena.retireNow, h.retired_eq, List.filter_append]
    simp [hx]

/-- A state that was reached is marked, and no other slot changes. -/
theorem Visited.mark (h : Visited cs a seen (x :: rest) b) (hseen : x ∉ seen)
    (hs : a.LiveAt x s) (hx : (cs.component? x).isSome = true) :
    Visited cs a (seen ++ [x]) rest (b.modify x (marked cs x)) := by
  refine ⟨fun y => ?_, ?_, ?_, h.pending_eq, h.keys_eq⟩
  · by_cases hy : y = x
    · subst hy
      rw [slot?_modify_self, h.slot?_of_not_mem hseen, hs]
      simp [visitedSlot, hx]
    · rw [slot?_modify_of_ne hy, h.slot?_eq]
      simp [hy]
  · rw [modify_live, h.live_eq, List.filter_append]
    simp [hx]
  · rw [modify_retired, h.retired_eq, List.filter_append]
    simp [Option.isSome_iff_ne_none.1 hx]

/-- Between two visits, the lists tell which states are live and which are retired. -/
theorem Visited.pooled (h : Visited cs a seen rest b)
    (hnone : ∀ x f s, a.slot? x ≠ some ⟨.retired f, s⟩) (hnodup : (seen ++ rest).Nodup)
    (hlive : ∀ y ∈ seen ++ rest, ∃ s, a.LiveAt y s) : b.Pooled where
  live_of_mem y hy := by
    obtain ⟨t, ht⟩ := hlive y (by
      rw [h.live_eq] at hy
      exact (List.filter_sublist.append_right rest).subset hy)
    rw [h.live_eq] at hy
    rcases List.mem_append.1 hy with hy | hy
    · obtain ⟨hseen, hsome⟩ := List.mem_filter.1 hy
      exact ⟨_, by rw [LiveAt, h.slot?_of_mem hseen ht, visitedSlot, if_pos hsome]⟩
    · have hseen : y ∉ seen := fun hseen => List.disjoint_of_nodup_append hnodup hseen hy
      exact ⟨t, (h.slot?_of_not_mem hseen).trans ht⟩
  mem_retired y := by
    rw [h.retired_eq, List.mem_filter]
    by_cases hseen : y ∈ seen
    · obtain ⟨t, ht⟩ := hlive y (List.mem_append_left rest hseen)
      rw [h.slot?_of_mem hseen ht, visitedSlot]
      cases cs.component? y with
      | none => simp [hseen]
      | some c => simp
    · rw [h.slot?_of_not_mem hseen]
      refine iff_of_false (fun hy => hseen hy.1) ?_
      rintro ⟨f, t, ht⟩
      exact hnone y f t ht

/-- **A visit of a live state** succeeds, and deals with this state. -/
theorem Visited.step (h : Visited cs a seen (x :: rest) b)
    (hnone : ∀ x f s, a.slot? x ≠ some ⟨.retired f, s⟩) (hnodup : (seen ++ x :: rest).Nodup)
    (hlive : ∀ y ∈ seen ++ x :: rest, ∃ s, a.LiveAt y s) :
    ∃ c, classifyOne cs b x = .ok c ∧ Visited cs a (seen ++ [x]) rest c := by
  have hseen : x ∉ seen := fun hx =>
    List.disjoint_of_nodup_append hnodup hx List.mem_cons_self
  obtain ⟨s, hs⟩ := hlive x (List.mem_append_right seen List.mem_cons_self)
  have hb : b.LiveAt x s := (h.slot?_of_not_mem hseen).trans hs
  unfold classifyOne
  split
  · rename_i hx
    exact ⟨_, (h.pooled hnone hnodup hlive).retire_eq hb (by simp), h.retire hnone hnodup hs hx⟩
  · rename_i c hx
    have hx : cs.component? x = some c := hx
    refine ⟨_, congrArg Except.ok ?_, h.mark hseen hs (by rw [hx]; rfl)⟩
    exact congrArg (b.modify x) (funext fun s => (marked_eq hx s).symm)

/-- **All visits** succeed, whatever the components are. -/
theorem Visited.exists_all (h : Visited cs a seen rest b)
    (hnone : ∀ x f s, a.slot? x ≠ some ⟨.retired f, s⟩) (hnodup : (seen ++ rest).Nodup)
    (hlive : ∀ x ∈ seen ++ rest, ∃ s, a.LiveAt x s) :
    ∃ c, rest.foldlM (classifyOne cs) b = .ok c ∧ Visited cs a (seen ++ rest) [] c := by
  induction rest generalizing seen b with
  | nil => exact ⟨b, rfl, by rwa [List.append_nil]⟩
  | cons x rest ih =>
    obtain ⟨c, hc, hvisited⟩ := h.step hnone hnodup hlive
    rw [List.append_cons] at hnodup hlive ⊢
    obtain ⟨d, hd, hvisited⟩ := ih hvisited hnodup hlive
    exact ⟨d, by rw [List.foldlM_cons, hc, bind_ok, hd], hvisited⟩

/-! ### After all visits -/

/-- **A classification succeeds** where the lists tell the stages and no state is retired, and it
returns how many states it retired. -/
theorem Enrolled.exists_classify (h : a.Enrolled) (hretired : a.retired = []) (htidy : a.Tidy)
    (root : Option StateId) : ∃ cs b, a.components root = .ok cs ∧
      a.classify root = .ok (b.retired.length, b) ∧ b.Pooled ∧ Visited cs a a.live [] b := by
  obtain ⟨cs, hcs⟩ := htidy.exists_components root
  have hnone (x : StateId) (f : Option StateId) (s : State) :
      a.slot? x ≠ some ⟨.retired f, s⟩ := fun hx => by
    have hmem := (h.mem_retired x).2 ⟨f, s, hx⟩
    rw [hretired] at hmem
    exact List.not_mem_nil hmem
  have hstart : Visited cs a [] a.live a := visited_nil hretired
  obtain ⟨b, hb, hvisited⟩ :=
    hstart.exists_all hnone h.live_nodup fun x hx => (h.mem_live x).1 hx
  have hpooled : b.Pooled := hvisited.pooled hnone (by rw [List.append_nil]; exact h.live_nodup)
    fun x hx => (h.mem_live x).1 (by rwa [List.append_nil] at hx)
  refine ⟨cs, b, hcs, ?_, hpooled, hvisited⟩
  rw [Arena.classify, hcs, bind_ok, hb, hvisited.retired_eq]
  rfl

/-- The live states that are left were live and reached. -/
theorem Visited.liveAt_iff (h : Visited cs a a.live [] b) (henrolled : a.Enrolled) :
    b.LiveAt x s ↔ ∃ t, a.LiveAt x t ∧ (cs.component? x).isSome = true ∧ s = marked cs x t := by
  by_cases hx : x ∈ a.live
  · obtain ⟨t, ht⟩ := (henrolled.mem_live x).1 hx
    rw [LiveAt, h.slot?_of_mem hx ht, visitedSlot]
    by_cases hsome : (cs.component? x).isSome = true
    · rw [if_pos hsome]
      constructor
      · intro hs
        cases hs
        exact ⟨t, ht, hsome, rfl⟩
      · rintro ⟨u, hu, -, rfl⟩
        rw [ht.unique hu]
    · rw [if_neg hsome]
      refine iff_of_false (fun hs => ?_) ?_
      · cases hs
      · rintro ⟨-, -, hs, -⟩
        exact hsome hs
  · rw [LiveAt, h.slot?_of_not_mem hx]
    refine iff_of_false (fun hs => hx ((henrolled.mem_live x).2 ⟨s, hs⟩)) ?_
    rintro ⟨t, ht, -⟩
    exact hx ((henrolled.mem_live x).2 ⟨t, ht⟩)

/-- Freeing the retired states frees no live one. -/
theorem Visited.liveAt_sweepNow (h : Visited cs a a.live [] b) (henrolled : a.Enrolled) :
    b.sweepNow.LiveAt x s ↔ b.LiveAt x s := by
  rw [LiveAt, slot?_sweepNow]
  split
  · rename_i hx
    rw [h.retired_eq, List.mem_filter, Option.isNone_iff_eq_none] at hx
    refine iff_of_false (by simp) fun hs => ?_
    obtain ⟨_, -, hsome, -⟩ := (h.liveAt_iff henrolled).1 hs
    rw [hx.2] at hsome
    contradiction
  · rfl

/-- **No state that is left leads to one that is freed**, since what is reached from a state that
was reached was reached as well. -/
theorem Visited.tidy_sweepNow (h : Visited cs a a.live [] b) (henrolled : a.Enrolled)
    (htidy : a.Tidy) (hcs : a.components root = .ok cs) : b.sweepNow.Tidy :=
  htidy.of_reached (decomposes_of_strongComponents hcs) fun _ _ =>
    (h.liveAt_sweepNow henrolled).trans (h.liveAt_iff henrolled)

/-- **The mark of a state that was reached.** -/
theorem Tidy.exists_marked (h : a.Tidy) (hcs : a.components root = .ok cs) (hs : a.LiveAt x s)
    (hx : (cs.component? x).isSome = true) :
    ∃ r, marked cs x s = { s with recurrence := r } ∧
      (s.recurrence = .recurrent ∨ a.OnCycle x → r = .recurrent) ∧
      (¬(s.recurrence = .recurrent ∨ a.OnCycle x) → r = .transient) := by
  refine ⟨_, rfl, fun hold => ?_, fun hnot => ?_⟩
  · rcases h.recurrence_marked (decomposes_of_strongComponents hcs) hs hx with
      ⟨hr, -⟩ | ⟨-, hne, hcycle⟩
    · exact hr
    · exact absurd hold (not_or.2 ⟨hne, hcycle⟩)
  · rcases h.recurrence_marked (decomposes_of_strongComponents hcs) hs hx with
      ⟨-, hold⟩ | ⟨hr, -, -⟩
    · exact absurd hold hnot
    · exact hr

/-- **A classification prunes and marks exactly.**  In an arena whose lists tell the stages, where no
state is retired and live states lead to live states only, it succeeds whatever the root is, and
returns the number of states that it retired.  These are the live states that the root does not
reach, all of them if there is no root or the root is not live, and none has a replacement.  A state
that is reached stays as it was but for its mark: it is recurrent if it was before or lies on a
cycle, and transient otherwise.  No other slot changes, and both lists keep their order.  The
retired states can be freed, which takes no live state away, and no live state leads to a slot that
was freed. -/
theorem classify_exact (h : a.Enrolled) (hretired : a.retired = []) (htidy : a.Tidy)
    (root : Option StateId) : ∃ b, a.classify root = .ok (b.retired.length, b) ∧
      (∀ x s, a.LiveAt x s → ¬a.ReachedFrom root x →
        b.slot? x = some ⟨.retired none, { s with transitions := [] }⟩) ∧
      (∀ x s, a.LiveAt x s → a.ReachedFrom root x →
        ∃ r, b.slot? x = some ⟨.live, { s with recurrence := r }⟩ ∧
          (s.recurrence = .recurrent ∨ a.OnCycle x → r = .recurrent) ∧
          (¬(s.recurrence = .recurrent ∨ a.OnCycle x) → r = .transient)) ∧
      (∀ x ∉ a.live, b.slot? x = a.slot? x) ∧
      (b.live.Sublist a.live ∧ ∀ x, x ∈ b.live ↔ x ∈ a.live ∧ a.ReachedFrom root x) ∧
      (b.retired.Sublist a.live ∧ ∀ x, x ∈ b.retired ↔ x ∈ a.live ∧ ¬a.ReachedFrom root x) ∧
      ((∀ i, root = some i → a.isLive i = false) → b.retired = a.live) ∧
      (b.pending = a.pending ∧ b.keys = a.keys) ∧
      ∃ c, b.sweep = .ok c ∧ (∀ x s, c.LiveAt x s ↔ b.LiveAt x s) ∧
        (∀ x ∈ b.retired, c.slot? x = none) ∧ c.Tidy := by
  obtain ⟨cs, b, hcs, hb, hpooled, hvisited⟩ := h.exists_classify hretired htidy root
  have hreached {x : StateId} := htidy.isSome_iff_reachedFrom (x := x) hcs
  have hretired : b.retired.Sublist a.live ∧
      ∀ x, x ∈ b.retired ↔ x ∈ a.live ∧ ¬a.ReachedFrom root x := by
    rw [hvisited.retired_eq]
    refine ⟨List.filter_sublist, fun x => ?_⟩
    rw [List.mem_filter, ← hreached, Option.isNone_iff_eq_none, Option.not_isSome_iff_eq_none]
  refine ⟨b, hb, fun x s hs hx => ?_, fun x s hs hx => ?_, fun x => hvisited.slot?_of_not_mem,
    ⟨?_, fun x => ?_⟩, hretired, fun hroot => ?_, ⟨hvisited.pending_eq, hvisited.keys_eq⟩,
    b.sweepNow, hpooled.sweep_eq (h.live_nodup.sublist hretired.1),
    fun x s => hvisited.liveAt_sweepNow h, fun x hx => ?_, hvisited.tidy_sweepNow h htidy hcs⟩
  · rw [hvisited.slot?_of_mem ((h.mem_live x).2 ⟨s, hs⟩) hs, visitedSlot, if_neg (mt hreached.1 hx)]
  · obtain ⟨r, hr, hmark⟩ := htidy.exists_marked hcs hs (hreached.2 hx)
    refine ⟨r, ?_, hmark⟩
    rw [hvisited.slot?_of_mem ((h.mem_live x).2 ⟨s, hs⟩) hs, visitedSlot, if_pos (hreached.2 hx), hr]
  · rw [hvisited.live_eq, List.append_nil]
    exact List.filter_sublist
  · rw [hvisited.live_eq, List.append_nil, List.mem_filter, hreached]
  · rw [hvisited.retired_eq, List.filter_eq_self]
    refine fun x _ => Option.isNone_iff_eq_none.2 (Option.not_isSome_iff_eq_none.1 fun hsome => ?_)
    obtain ⟨i, s, hi, hs, -⟩ := hreached.1 hsome
    exact Bool.eq_false_iff.1 (hroot i hi) (isLive_iff.2 ⟨s, hs⟩)
  · rw [slot?_sweepNow, if_pos hx]

/-- A root that leads to a loop which is marked as transient, a state that leads to the root, a freed
slot and a pending state. -/
def mismarked : Arena where
  slots := #[
    some ⟨.live, ⟨none, -1, 0, 0, .unknown, [⟨1, .always⟩]⟩⟩,
    some ⟨.live, ⟨some 0, 1, 0, 2, .transient, [⟨1, .always⟩]⟩⟩,
    none,
    some ⟨.live, ⟨some 1, 2, 0, 0, .unknown, [⟨0, .always⟩]⟩⟩,
    some ⟨.pending, ⟨some 2, 3, 0, 0, .unknown, []⟩⟩]
  keys := ∅
  pending := [4]
  live := [0, 3, 1]
  retired := []

theorem slot?_mismarked {l : Slot} (h : mismarked.slot? x = some l) :
    x = 0 ∧ l = ⟨.live, ⟨none, -1, 0, 0, .unknown, [⟨1, .always⟩]⟩⟩ ∨
    x = 1 ∧ l = ⟨.live, ⟨some 0, 1, 0, 2, .transient, [⟨1, .always⟩]⟩⟩ ∨
    x = 3 ∧ l = ⟨.live, ⟨some 1, 2, 0, 0, .unknown, [⟨0, .always⟩]⟩⟩ ∨
    x = 4 ∧ l = ⟨.pending, ⟨some 2, 3, 0, 0, .unknown, []⟩⟩ := by
  match x with
  | 0 | 1 | 3 | 4 => simpa [slot?, mismarked, eq_comm] using h
  | 2 | n + 5 => simp [slot?, mismarked] at h

theorem enrolled_mismarked : mismarked.Enrolled := by
  refine ⟨by decide, .nil, fun x => ⟨fun hx => ?_, ?_⟩, fun x => ⟨fun hx => ?_, ?_⟩,
    fun x f s hx => ?_⟩
  · simp only [mismarked, List.mem_cons, List.not_mem_nil, or_false] at hx
    rcases hx with rfl | rfl | rfl <;> exact ⟨_, rfl⟩
  · rintro ⟨s, hs⟩
    rcases slot?_mismarked hs with ⟨rfl, -⟩ | ⟨rfl, -⟩ | ⟨rfl, -⟩ | ⟨rfl, h⟩
    · decide
    · decide
    · decide
    · cases h
  · exact absurd hx List.not_mem_nil
  · rintro ⟨f, s, hs⟩
    rcases slot?_mismarked hs with ⟨-, h⟩ | ⟨-, h⟩ | ⟨-, h⟩ | ⟨-, h⟩ <;> cases h
  · rcases slot?_mismarked hx with ⟨-, h⟩ | ⟨-, h⟩ | ⟨-, h⟩ | ⟨-, h⟩ <;> cases h

theorem tidy_mismarked : mismarked.Tidy := by
  intro x s hs t ht
  rcases slot?_mismarked hs with ⟨-, h⟩ | ⟨-, h⟩ | ⟨-, h⟩ | ⟨-, h⟩
  · cases h
    cases List.mem_singleton.1 ht
    exact ⟨_, rfl⟩
  · cases h
    cases List.mem_singleton.1 ht
    exact ⟨_, rfl⟩
  · cases h
    cases List.mem_singleton.1 ht
    exact ⟨_, rfl⟩
  · cases h

theorem leads_mismarked (h : mismarked.Leads x y) : y = 1 ∨ x = 3 ∧ y = 0 := by
  obtain ⟨s, hs, hy⟩ := tidy_mismarked.leads_iff.1 h
  rcases slot?_mismarked hs with ⟨-, h⟩ | ⟨-, h⟩ | ⟨hx, h⟩ | ⟨-, h⟩
  · cases h
    exact .inl (List.mem_singleton.1 hy)
  · cases h
    exact .inl (List.mem_singleton.1 hy)
  · cases h
    exact .inr ⟨hx, List.mem_singleton.1 hy⟩
  · cases h

/-- The root only leads to the loop. -/
theorem start_mismarked (h : Relation.ReflTransGen mismarked.Leads 0 x) : x = 0 ∨ x = 1 := by
  rcases Relation.ReflTransGen.cases_tail h with hx | ⟨y, -, hyx⟩
  · exact .inl hx
  · exact (leads_mismarked hyx).symm.imp_left And.right

theorem reachedFrom_mismarked : mismarked.ReachedFrom (some 0) x ↔ x = 0 ∨ x = 1 := by
  constructor
  · rintro ⟨i, s, hi, hs, hix⟩
    cases hi
    exact start_mismarked hix
  · rintro (rfl | rfl)
    · exact ⟨0, _, rfl, rfl, .refl⟩
    · exact ⟨0, _, rfl, rfl,
        .single (tidy_mismarked.leads_iff.2 ⟨_, rfl, List.mem_singleton_self 1⟩)⟩

/-- The state that leads to the root is retired, the loop is recurrent, and the root is transient. -/
theorem classify_exact_mismarked : mismarked.Enrolled ∧ mismarked.retired = [] ∧ mismarked.Tidy ∧
    ∃ b, mismarked.classify (some 0) = .ok (1, b) ∧ b.retired = [3] ∧
      b.slot? 0 = some ⟨.live, ⟨none, -1, 0, 0, .transient, [⟨1, .always⟩]⟩⟩ ∧
      b.slot? 1 = some ⟨.live, ⟨some 0, 1, 0, 2, .recurrent, [⟨1, .always⟩]⟩⟩ ∧
      b.slot? 3 = some ⟨.retired none, ⟨some 1, 2, 0, 0, .unknown, []⟩⟩ ∧
      ∃ c, b.sweep = .ok c ∧ c.slot? 3 = none ∧ c.Tidy := by
  have hroot : ¬mismarked.OnCycle 0 := by
    intro hcycle
    obtain ⟨y, hy, hy0⟩ := Relation.TransGen.tail'_iff.1 hcycle
    rcases start_mismarked hy with rfl | rfl
    · exact absurd (leads_mismarked hy0) (by decide)
    · exact absurd (leads_mismarked hy0) (by decide)
  have hloop : mismarked.OnCycle 1 :=
    .single (tidy_mismarked.leads_iff.2 ⟨_, rfl, List.mem_singleton_self 1⟩)
  obtain ⟨b, hb, hgone, hkept, -, -, ⟨hsub, hmem⟩, -, -, c, hc, -, hfreed, hsweep⟩ :=
    classify_exact enrolled_mismarked rfl tidy_mismarked (some 0)
  have hretired : b.retired = [3] := by
    refine List.perm_singleton.1 ((List.perm_ext_iff_of_nodup
      (enrolled_mismarked.live_nodup.sublist hsub) (List.nodup_singleton 3)).2 fun x => ?_)
    rw [hmem, reachedFrom_mismarked]
    simp only [mismarked, List.mem_cons, List.not_mem_nil, or_false]
    constructor
    · rintro ⟨hx | hx | hx, hnot⟩
      · exact absurd (.inl hx) hnot
      · exact hx
      · exact absurd (.inr hx) hnot
    · rintro rfl
      decide
  obtain ⟨r, hr, -, htransient⟩ := hkept 0 _ rfl (reachedFrom_mismarked.2 (.inl rfl))
  obtain ⟨r', hr', hrecurrent, -⟩ := hkept 1 _ rfl (reachedFrom_mismarked.2 (.inr rfl))
  rw [htransient (by simpa using hroot)] at hr
  rw [hrecurrent (.inr hloop)] at hr'
  rw [hretired] at hb
  exact ⟨enrolled_mismarked, rfl, tidy_mismarked, b, hb, hretired, hr, hr',
    hgone 3 _ rfl (mt reachedFrom_mismarked.1 (by decide)), c, hc,
    hfreed 3 (by rw [hretired]; exact List.mem_singleton_self 3), hsweep⟩

end Arena

end OmegaAutomata
