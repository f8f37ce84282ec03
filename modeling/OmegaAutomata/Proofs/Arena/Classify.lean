/-
# Classification is right

In a tidy arena the graph that is decomposed is the graph of the arena
(`Tidy.edge_iff`).  A state alone in its component and without a transition to itself
lies on no cycle, so it may be marked as transient (`not_onCycle_of_alone`).  States
that are not reached from the root can be retired: the others do not lead to them.

The states are visited one after another, and what holds of the arena in between is
`Marking`: the states that were visited are gone or marked, and the others are as they
were.
-/

import OmegaAutomata.Arena.Classify
import OmegaAutomata.Proofs.Arena.Redirect
import OmegaAutomata.Proofs.Components.Correct

namespace OmegaAutomata

namespace Arena

variable {a b c : Arena} {k : Nat} {id x y : StateId} {s t : State} {cs : Components}
  {root : Option StateId}

/-- The successors of a state in the graph that is decomposed. -/
abbrev successors (a : Arena) (id : StateId) : Except Fault (List StateId) :=
  (a.state id).map State.targets

theorem LiveAt.successors_eq (h : a.LiveAt x s) : a.successors x = .ok s.targets := by
  rw [successors, h.state_eq_ok]
  rfl

/-- In a tidy arena a transition leads to its target. -/
theorem Tidy.leads_iff (h : a.Tidy) : a.Leads x y ↔ ∃ s, a.LiveAt x s ∧ y ∈ s.targets := by
  refine exists_congr fun s => and_congr_right fun hs => ?_
  rw [State.targets, List.mem_map]
  refine exists_congr fun t => and_congr_right fun ht => ?_
  obtain ⟨u, hu⟩ := h x s hs t ht
  rw [hu.destination?_eq, Option.some.injEq]

theorem Tidy.edge_iff (h : a.Tidy) (hx : a.LiveAt x s) :
    Search.Edge a.successors x y ↔ a.Leads x y := by
  rw [h.leads_iff]
  constructor
  · rintro ⟨out, hout, hy⟩
    cases hx.successors_eq.symm.trans hout
    exact ⟨s, hx, hy⟩
  · rintro ⟨t, ht, hy⟩
    exact ⟨_, ht.successors_eq, hy⟩

/-- Paths are paths of the graph that is decomposed. -/
theorem Tidy.reaches_of_leads (h : a.Tidy) (hxy : Relation.ReflTransGen a.Leads x y) :
    Search.Reaches a.successors x y := by
  induction hxy with
  | refl => exact .refl
  | tail _ huv ih =>
    obtain ⟨s, hs, -⟩ := id huv
    exact ih.tail ((h.edge_iff hs).2 huv)

/-- **A state alone in its component lies on no cycle**, unless it leads to itself. -/
theorem Tidy.not_onCycle_of_alone (h : a.Tidy) {n c : Nat} {roots : List Nat}
    (hcs : cs.Decomposes a.successors n roots) (hc : cs.component? x = some c)
    (hsize : cs.sizes[c]? = some 1) (hx : a.LiveAt x s) (hself : x ∉ s.targets) :
    ¬a.OnCycle x := by
  intro hcycle
  obtain ⟨y, hxy, hyx⟩ := Relation.TransGen.head'_iff.1 hcycle
  have hxy' : Search.Reaches a.successors x y := h.reaches_of_leads (.single hxy)
  have hyx' : Search.Reaches a.successors y x := h.reaches_of_leads hyx
  -- both states are in the one component
  obtain ⟨d, -, hd⟩ := hcs.le_of_reaches x y c hc hxy'
  obtain rfl : c = d := (hcs.eq_iff x y c d hc hd).2 ⟨hxy', hyx'⟩
  obtain ⟨-, hcard⟩ := hcs.sizes_eq c 1 hsize
  obtain ⟨z, hz⟩ := Finset.card_eq_one.1 hcard.symm
  have hmem {v : Nat} (hv : cs.component? v = some c) : v = z :=
    Finset.mem_singleton.1 (hz ▸ Finset.mem_filter.2 ⟨Finset.mem_range.2 (hcs.lt hv), hv⟩)
  obtain rfl : y = x := (hmem hd).trans (hmem hc).symm
  obtain ⟨t, ht, hy⟩ := h.leads_iff.1 hxy
  exact hself (hx.unique ht ▸ hy)

/-! ### Visiting the states -/

/-- A state with its mark. -/
def marked (cs : Components) (x : StateId) (s : State) : State :=
  { s with recurrence := recurrenceIn (((cs.component? x).bind fun c => cs.sizes[c]?).getD 0) x s }

/-- What holds of the arena `b` while the live states of `a` are visited and those of `rest` are
left: the others were marked, or retired if they were not reached. -/
structure Marking (cs : Components) (a : Arena) (rest : List StateId) (b : Arena) : Prop where
  valid : b.Valid
  leads : ∀ x y, b.Leads x y → a.Leads x y
  sublist : b.live.Sublist a.live
  pending_eq : b.pending = a.pending
  nodup : rest.Nodup
  live : ∀ x ∈ rest, ∃ s, a.LiveAt x s
  liveAt_iff : ∀ x s, b.LiveAt x s ↔ ∃ t, a.LiveAt x t ∧
    (x ∈ rest ∧ s = t ∨ x ∉ rest ∧ (cs.component? x).isSome = true ∧ s = marked cs x t)

theorem Valid.marking (h : a.Valid) (cs : Components) : Marking cs a a.live a where
  valid := h
  leads _ _ := id
  sublist := .refl _
  pending_eq := rfl
  nodup := h.live_nodup
  live x hx := (h.mem_live x).1 hx
  liveAt_iff x s := by
    constructor
    · exact fun hs => ⟨s, hs, .inl ⟨(h.mem_live x).2 ⟨s, hs⟩, rfl⟩⟩
    · rintro ⟨t, ht, ⟨-, rfl⟩ | ⟨hx, -⟩⟩
      · exact ht
      · exact absurd ((h.mem_live x).2 ⟨t, ht⟩) hx

theorem marked_transitions (cs : Components) (x : StateId) (s : State) :
    (marked cs x s).transitions = s.transitions := rfl

theorem marked_eq {c : Nat} (hc : cs.component? x = some c) (s : State) :
    marked cs x s = { s with recurrence := recurrenceIn (cs.sizes[c]?.getD 0) x s } := by
  rw [marked, hc]
  rfl

/-- A state that gets the mark of a transient one is on no cycle. -/
theorem Tidy.not_onCycle_of_marked (h : a.Tidy) {n : Nat} {roots : List Nat}
    (hcs : cs.Decomposes a.successors n roots) (hx : a.LiveAt x s)
    (hsome : (cs.component? x).isSome = true) (hflex : (marked cs x s).isFlexible = true) :
    ¬a.OnCycle x := by
  obtain ⟨c, hc⟩ := Option.isSome_iff_exists.1 hsome
  rw [marked_eq hc, State.isFlexible, beq_iff_eq] at hflex
  unfold recurrenceIn at hflex
  split at hflex
  · contradiction
  · split at hflex
    · rename_i halone
      simp only [Bool.and_eq_true, decide_eq_true_eq, Bool.not_eq_true'] at halone
      refine h.not_onCycle_of_alone hcs hc ?_ hx (by simpa using halone.2)
      cases hsize : cs.sizes[c]? with
      | none => simp [hsize] at halone
      | some m =>
        rw [hsize] at halone
        exact congrArg some halone.1
    · contradiction

/-- What is known of the states that were visited before stays known. -/
theorem Marking.liveAt_iff_of_ne {rest : List StateId} (h : Marking cs a (x :: rest) b) (hy : y ≠ x)
    (t : State) : b.LiveAt y t ↔ ∃ u, a.LiveAt y u ∧
      (y ∈ rest ∧ t = u ∨ y ∉ rest ∧ (cs.component? y).isSome = true ∧ t = marked cs y u) := by
  simp only [h.liveAt_iff, List.mem_cons, hy, false_or]

/-- A state that is still to be visited is as it was. -/
theorem Marking.exists_liveAt {rest : List StateId} (h : Marking cs a (x :: rest) b) :
    ∃ s, a.LiveAt x s ∧ b.LiveAt x s := by
  obtain ⟨s, hs⟩ := h.live x List.mem_cons_self
  exact ⟨s, hs, (h.liveAt_iff x s).2 ⟨s, hs, .inl ⟨List.mem_cons_self, rfl⟩⟩⟩

/-- A state that was not reached is retired. -/
theorem Marking.retire {rest : List StateId} (h : Marking cs a (x :: rest) b)
    (hx : cs.component? x = none) : Marking cs a rest (b.retireNow x none) := by
  obtain ⟨hxrest, hnodup⟩ := List.nodup_cons.1 h.nodup
  obtain ⟨s, -, hbx⟩ := h.exists_liveAt
  refine ⟨h.valid.retireNow_none hbx, fun y z hyz => ?_, ?_, h.pending_eq, hnodup,
    fun y hy => h.live y (List.mem_cons_of_mem x hy), fun y t => ?_⟩
  · exact h.leads y z ((leads_retireNow_none hbx).1 hyz).1
  · exact List.filter_sublist.trans h.sublist
  · rw [liveAt_retireNow]
    by_cases hy : y = x
    · subst hy
      simp [hxrest, hx]
    · rw [and_iff_right hy, h.liveAt_iff_of_ne hy]

/-- A state that was reached is marked. -/
theorem Marking.mark (htidy : a.Tidy) {n : Nat} {roots : List Nat}
    (hcs : cs.Decomposes a.successors n roots) {rest : List StateId}
    (h : Marking cs a (x :: rest) b) (hsome : (cs.component? x).isSome = true) :
    Marking cs a rest (b.modify x (marked cs x)) := by
  obtain ⟨hxrest, hnodup⟩ := List.nodup_cons.1 h.nodup
  obtain ⟨s, hs, hbx⟩ := h.exists_liveAt
  refine ⟨h.valid.modify (marked_transitions cs x) fun u hu hflex hcycle => ?_,
    fun y z hyz => ?_, h.sublist, h.pending_eq, hnodup,
    fun y hy => h.live y (List.mem_cons_of_mem x hy),
    fun y t => ?_⟩
  · cases hbx.unique hu
    exact htidy.not_onCycle_of_marked hcs hs hsome hflex (hcycle.mono h.leads)
  · exact h.leads y z ((leads_modify (marked_transitions cs x)).1 hyz)
  · rw [liveAt_modify]
    by_cases hy : y = x
    · subst hy
      constructor
      · rintro ⟨u, hu, rfl⟩
        cases hbx.unique hu
        exact ⟨_, hs, .inr ⟨hxrest, hsome, if_pos rfl⟩⟩
      · rintro ⟨u, hu, ⟨hmem, -⟩ | ⟨-, -, rfl⟩⟩
        · exact absurd hmem hxrest
        · cases hs.unique hu
          exact ⟨_, hbx, (if_pos rfl).symm⟩
    · simp only [if_neg hy, exists_eq_right', h.liveAt_iff_of_ne hy]

/-- **Each visit** deals with one state. -/
theorem Marking.step (htidy : a.Tidy) {n : Nat} {roots : List Nat}
    (hcs : cs.Decomposes a.successors n roots) {rest : List StateId}
    (h : Marking cs a (x :: rest) b) (hc : classifyOne cs b x = .ok c) : Marking cs a rest c := by
  rw [classifyOne] at hc
  split at hc
  · rename_i hnone
    obtain ⟨rfl, -, -⟩ := h.valid.retire_eq_ok hc
    exact h.retire hnone
  · rename_i d hd
    have hd : cs.component? x = some d := hd
    have hmark : (fun s : State =>
        { s with recurrence := recurrenceIn (cs.sizes[d]?.getD 0) x s }) = marked cs x :=
      funext fun s => (marked_eq hd s).symm
    rw [hmark] at hc
    cases hc
    exact h.mark htidy hcs (by rw [hd]; rfl)

/-! ### After all visits -/

theorem Marking.liveAt_end (h : Marking cs a [] b) : b.LiveAt x s ↔
    ∃ t, a.LiveAt x t ∧ (cs.component? x).isSome = true ∧ s = marked cs x t := by
  simp [h.liveAt_iff]

/-- What a reached state leads to was reached, too. -/
theorem Tidy.isSome_of_leads (htidy : a.Tidy) {n : Nat} {roots : List Nat}
    (hcs : cs.Decomposes a.successors n roots) (hx : (cs.component? x).isSome = true)
    (hxy : a.Leads x y) : (cs.component? y).isSome = true := by
  obtain ⟨d, hd⟩ := Option.isSome_iff_exists.1 hx
  obtain ⟨e, -, he⟩ := hcs.le_of_reaches x y d hd (htidy.reaches_of_leads (.single hxy))
  rw [he]
  rfl

/-- **What is left is tidy** when the states that were not reached are gone. -/
theorem Tidy.of_reached (htidy : a.Tidy) {n : Nat} {roots : List Nat}
    (hcs : cs.Decomposes a.successors n roots)
    (hlive : ∀ x s, b.LiveAt x s ↔
      ∃ t, a.LiveAt x t ∧ (cs.component? x).isSome = true ∧ s = marked cs x t) : b.Tidy := by
  intro x s hs t ht
  obtain ⟨u, hu, hx, rfl⟩ := (hlive x s).1 hs
  obtain ⟨r, hr⟩ := htidy x u hu t ht
  have hxt : a.Leads x t.target := htidy.leads_iff.2 ⟨u, hu, List.mem_map_of_mem ht⟩
  exact ⟨_, (hlive _ _).2 ⟨r, hr, htidy.isSome_of_leads hcs hx hxt, rfl⟩⟩

theorem Marking.tidy (htidy : a.Tidy) {n : Nat} {roots : List Nat}
    (hcs : cs.Decomposes a.successors n roots) (h : Marking cs a [] b) : b.Tidy :=
  htidy.of_reached hcs fun _ _ => h.liveAt_end

/-- The system that is left is the one before, without the states that were not reached. -/
theorem Marking.restricts (htidy : a.Tidy) {n : Nat} {roots : List Nat}
    (hcs : cs.Decomposes a.successors n roots) (h : Marking cs a [] b) (k : Nat) :
    (a.system k).Restricts (b.system k) fun x => (cs.component? x).isSome = true where
  step_iff v x y := by
    constructor
    · rintro ⟨s, hs, t, ht, hy, hholds⟩
      obtain ⟨u, hu, hx, rfl⟩ := h.liveAt_end.1 hs
      obtain ⟨r, hr⟩ := h.tidy htidy hcs x _ hs t ht
      rw [hr.destination?_eq, Option.some.injEq] at hy
      subst hy
      obtain ⟨r', hr'⟩ := htidy x u hu t ht
      have hxt : a.Leads x t.target := htidy.leads_iff.2 ⟨u, hu, List.mem_map_of_mem ht⟩
      exact ⟨hx, htidy.isSome_of_leads hcs hx hxt, u, hu, t, ht, hr'.destination?_eq, hholds⟩
    · rintro ⟨hx, hy, s, hs, t, ht, hdest, hholds⟩
      obtain ⟨r, hr⟩ := htidy x s hs t ht
      rw [hr.destination?_eq, Option.some.injEq] at hdest
      subst hdest
      exact ⟨_, h.liveAt_end.2 ⟨s, hs, hx, rfl⟩, t, ht,
        (h.liveAt_end.2 ⟨r, hr, hy, rfl⟩).destination?_eq, hholds⟩
  accepting_iff x hx := by
    constructor
    · rintro ⟨s, hs, hk⟩
      obtain ⟨u, hu, -, rfl⟩ := h.liveAt_end.1 hs
      exact ⟨u, hu, hk⟩
    · rintro ⟨s, hs, hk⟩
      exact ⟨_, h.liveAt_end.2 ⟨s, hs, hx, rfl⟩, hk⟩
  stays x y hx hxy _ := htidy.isSome_of_leads hcs hx (by rwa [edge_system] at hxy)

/-- What is left after all live states were visited keeps its languages. -/
theorem Marking.keeps (htidy : a.Tidy) {n : Nat} {roots : List Nat}
    (hcs : cs.Decomposes a.successors n roots) (h : Marking cs a [] b) (k : Nat) :
    Keeps k a b ∧ KeepsCounters a b := by
  refine ⟨⟨h.sublist, fun x s hs => ?_, fun x s hs w => ?_⟩, fun x s hs => ?_⟩
  · obtain ⟨t, ht, -⟩ := h.liveAt_end.1 hs
    exact ⟨t, ht⟩
  · obtain ⟨t, ht, hx, -⟩ := h.liveAt_end.1 hs
    exact (h.restricts htidy hcs k).acceptsFrom_iff hx
  · obtain ⟨t, ht, -, rfl⟩ := h.liveAt_end.1 hs
    exact ⟨t, ht, rfl⟩

/-- **Classification keeps the languages** of the states that the root reaches. -/
theorem Valid.classify (h : a.Valid) (htidy : a.Tidy) {n : Nat}
    (hb : a.classify root = .ok (n, b)) (k : Nat) :
    b.Valid ∧ b.Tidy ∧ Keeps k a b ∧ KeepsCounters a b ∧
      ∀ i s, root = some i → a.LiveAt i s → ∃ t, b.LiveAt i t := by
  rw [Arena.classify] at hb
  obtain ⟨cs, hcs, hb⟩ := bind_eq_ok.1 hb
  obtain ⟨c, hc, hb⟩ := bind_eq_ok.1 hb
  cases hb
  have hcs := decomposes_of_strongComponents hcs
  have hmarking : Marking cs a [] b := foldlM_induction (P := Marking cs a) hc (h.marking cs)
    fun x rest b c hstep hbc => hstep.step htidy hcs hbc
  obtain ⟨hkeeps, hcounters⟩ := hmarking.keeps htidy hcs k
  refine ⟨hmarking.valid, hmarking.tidy htidy hcs, hkeeps, hcounters, fun i s hi hs => ?_⟩
  have hroot : i ∈ (root.filter fun id => a.isLive id).toList := by
    rw [Option.mem_toList, hi, Option.filter_eq_some_iff]
    exact ⟨rfl, isLive_iff.2 ⟨s, hs⟩⟩
  exact ⟨_, (hmarking.liveAt_iff i _).2
    ⟨s, hs, .inr ⟨List.not_mem_nil, (hcs.isSome_iff i).2 ⟨i, hroot, .refl⟩, rfl⟩⟩⟩

end Arena

end OmegaAutomata
