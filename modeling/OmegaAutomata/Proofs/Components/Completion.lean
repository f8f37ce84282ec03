/-
# Leaving a call of a search for strong components

A call is left when all edges of its node are settled.  If the low link of the node is
less than its rank, the node reaches the caller, and its part of the stack is joined with
the caller's part (`Tracked.join`).  Otherwise every edge out of its part leads to the
part itself or to a completed component, so that the part is a component
(`Tracked.complete`).  `Invariant.exists_leave` puts both together: a call can always be
left, and the stack is never empty when a component is taken off it.
-/

import OmegaAutomata.Proofs.Components.Steps

namespace OmegaAutomata

namespace Search

variable {n : Nat} {successors : Nat → Except Fault (List Nat)} {roots todo : List Nat}
  {path rest : List (Part n)} {s s' : Search n} {g p : Part n} {u v x y : Fin n} {w r c k : Nat}

/-! ### Joining a part with the caller's -/

/-- **A node with a low link below its rank reaches the caller's part.** -/
theorem Tracked.reaches_caller (h : Tracked successors roots todo (g :: p :: rest) s)
    (hlow : g.low < g.rank) (hy : y ∈ p.nodes) : Reaches successors g.frame.node y := by
  obtain ⟨u, hu, hr, hreach⟩ := (h.sound g List.mem_cons_self).low_reached
  obtain ⟨l, hl, hul⟩ := h.mem_stack.1 hu
  have hbelow := List.pairwise_cons.1 (List.pairwise_cons.1 h.below).2
  rcases List.mem_cons.1 hl with rfl | hl
  · exact absurd (h.rank_le List.mem_cons_self hul hr) (Nat.not_le.2 hlow)
  · rcases List.mem_cons.1 hl with rfl | hl
    · exact hreach.trans ((h.sound l (by simp)).connected u hul y hy)
    · exact hreach.trans (hbelow.1 l.nodes (List.mem_map_of_mem hl) u hul y hy)

/-- **Joining the part of a call with the caller's part**, if its node reaches the caller. -/
theorem Tracked.join (h : Tracked successors roots todo (g :: p :: rest) s)
    (hpending : g.pending = []) (hlow : g.low < g.rank) (hle : p.low ≤ g.low) :
    Tracked successors roots todo ({ p with left := g.nodes ++ p.left } :: rest)
      { s with calls := p.frame :: rest.map Part.frame } := by
  have hnodes : Part.nodes { p with left := g.nodes ++ p.left } = g.nodes ++ p.nodes :=
    List.append_assoc ..
  have hg := h.sound g List.mem_cons_self
  have hp := h.sound p (by simp)
  have hup : Below successors g.nodes p.nodes := (List.pairwise_cons.1 h.below).1 _ (by simp)
  have hdown : Below successors p.nodes g.nodes := fun x hx y hy =>
    (hg.connected x hx _ (List.mem_append_right _ (List.mem_singleton_self _))).trans
      (h.reaches_caller hlow hy)
  have hsame {l : Part n} (hl : Sound successors s l) :
      Sound successors { s with calls := p.frame :: rest.map Part.frame } l :=
    hl.congr rfl rfl (fun _ hu hr => ⟨hu, hr⟩) fun _ hw => hw
  have hjoined : Sound successors { s with calls := p.frame :: rest.map Part.frame }
      { p with left := g.nodes ++ p.left } := by
    refine ⟨hp.rank_eq, hp.low_eq, hp.low_le, hp.low_reached, fun x hx y hy => ?_,
      hp.pending_edge, fun x hx w hw => ?_⟩
    · rw [hnodes] at hx hy
      rcases List.mem_append.1 hx with hx | hx
      · rcases List.mem_append.1 hy with hy | hy
        · exact hg.connected x hx y hy
        · exact hdown x hx y hy
      · rcases List.mem_append.1 hy with hy | hy
        · exact hup x hx y hy
        · exact hp.connected x hx y hy
    · rcases List.mem_append.1 (hnodes ▸ hx) with hx | hx
      · rcases hg.edges x hx w hw with hw | hw
        · exact absurd (hpending ▸ hw) List.not_mem_nil
        · exact .inr (hw.mono hle)
      · exact hp.edges x hx w hw
  obtain ⟨hbelow, hrest⟩ := List.pairwise_cons.1 h.below
  refine ⟨rfl, h.stack_eq.trans (by simp [Part.nodes]), h.ranked, h.sorted, h.onStack_iff,
    h.met_cases, h.of_component, fun l hl => ?_, ?_, h.completed, h.reached⟩
  · rcases List.mem_cons.1 hl with rfl | hl
    · exact hjoined
    · exact hsame (h.sound l (by simp [hl]))
  · refine List.pairwise_cons.2 ⟨fun l hl x hx y hy => ?_, (List.pairwise_cons.1 hrest).2⟩
    rcases List.mem_append.1 (hnodes ▸ hy) with hy | hy
    · exact hbelow l (List.mem_cons_of_mem _ hl) x hx y hy
    · exact (List.pairwise_cons.1 hrest).1 l hl x hx y hy

/-! ### Completing a component -/

/-- Whether `s'` comes from `s` when the nodes `top` are taken off the stack `top ++ below` and
become a component, whatever calls there are. -/
structure Takes (top below : List (Fin n)) (s s' : Search n) : Prop where
  rank_eq : s'.rank = s.rank
  lowlink_eq : s'.lowlink = s.lowlink
  counter_eq : s'.counter = s.counter
  roots_eq : s'.roots = s.roots
  stack_eq : s'.stack = below
  onStack_eq : ∀ w : Fin n, s'.onStack.get w = if w ∈ top then false else s.onStack.get w
  component_eq : ∀ w : Fin n, s'.component.get w = if w ∈ top then some s.sizes.size else
    s.component.get w

/-- Nodes are taken off the stack down to the first `v` on it. -/
theorem exists_complete {top : List (Fin n)} (below : List (Fin n)) (s : Search n) (size : Nat)
    (hv : v ∉ top) :
    ∃ s', Search.complete v s size (top ++ v :: below) = .ok s' ∧
      Takes (top ++ [v]) below s s' ∧ s'.sizes = s.sizes.push (size + top.length + 1) := by
  induction top generalizing s size with
  | nil =>
    refine ⟨{ s.takeOff v below with sizes := s.sizes.push (size + 1) }, if_pos rfl,
      ⟨rfl, rfl, rfl, rfl, rfl, fun w => ?_, fun w => ?_⟩, rfl⟩
    · simp only [takeOff, get_set, List.nil_append, List.mem_singleton]
    · simp only [takeOff, get_set, List.nil_append, List.mem_singleton]
  | cons x top ih =>
    obtain ⟨hne, hv⟩ := not_or.1 (mt List.mem_cons.2 hv)
    obtain ⟨s', hs', htakes, hsizes⟩ := ih (s.takeOff x (top ++ v :: below)) (size + 1) hv
    refine ⟨s', (if_neg (Ne.symm hne)).trans hs', ⟨htakes.rank_eq, htakes.lowlink_eq,
      htakes.counter_eq, htakes.roots_eq, htakes.stack_eq, fun w => ?_, fun w => ?_⟩,
      hsizes.trans (congrArg _ ?_)⟩
    · simp only [htakes.onStack_eq, takeOff, get_set, List.cons_append, List.mem_cons]
      by_cases hx : w = x <;> simp [hx]
    · simp only [htakes.component_eq, takeOff, get_set, List.cons_append, List.mem_cons]
      by_cases hx : w = x <;> simp [hx]
    · rw [List.length_cons]
      omega

/-- The part of the current call becomes a component.  All edges out of it are settled, and its low
link is its rank. -/
structure Completes (successors : Nat → Except Fault (List Nat)) (roots todo : List Nat)
    (g : Part n) (rest : List (Part n)) (s s' : Search n) : Prop where
  tracked : Tracked successors roots todo (g :: rest) s
  pending_eq : g.pending = []
  low_eq : g.low = g.rank
  takes : Takes g.nodes (rest.flatMap Part.nodes) s s'
  sizes_eq : s'.sizes = s.sizes.push g.nodes.length

namespace Completes

variable (h : Completes successors roots todo g rest s s')

include h

theorem mem_stack_cases (hu : u ∈ s.stack) : u ∈ g.nodes ∨ u ∈ s'.stack ∧ u ∉ g.nodes := by
  by_cases hmem : u ∈ g.nodes
  · exact .inl hmem
  · rw [h.tracked.stack_eq, List.flatMap_cons, List.mem_append] at hu
    exact .inr ⟨h.takes.stack_eq ▸ hu.resolve_left hmem, hmem⟩

theorem mem_stack_iff : u ∈ s'.stack ↔ u ∈ s.stack ∧ u ∉ g.nodes := by
  refine ⟨fun hu => ?_, fun hu => ((h.mem_stack_cases hu.1).resolve_left hu.2).1⟩
  rw [h.takes.stack_eq] at hu
  obtain ⟨l, hl, hul⟩ := List.mem_flatMap.1 hu
  exact ⟨h.tracked.mem_stack.2 ⟨l, List.mem_cons_of_mem g hl, hul⟩,
    fun hmem => h.tracked.disjoint hl hmem hul⟩

theorem component_of_mem (hu : u ∈ g.nodes) : s'.component.get u = some s.sizes.size := by
  rw [h.takes.component_eq, if_pos hu]

/-- What was completed before stays completed. -/
theorem component_of_component (hu : s.component.get u = some c) : s'.component.get u = some c := by
  have hnot : u ∉ g.nodes := fun hmem =>
    (h.tracked.of_component u c hu).1 (h.tracked.mem_stack.2 ⟨g, List.mem_cons_self, hmem⟩)
  rw [h.takes.component_eq, if_neg hnot, hu]

/-- What is completed now is in the new component, or was completed before. -/
theorem component_cases (hu : s'.component.get u = some c) :
    u ∈ g.nodes ∧ c = s.sizes.size ∨ s.component.get u = some c ∧ c < s.sizes.size := by
  by_cases hmem : u ∈ g.nodes
  · rw [h.component_of_mem hmem] at hu
    exact .inl ⟨hmem, (Option.some.inj hu).symm⟩
  · rw [h.takes.component_eq, if_neg hmem] at hu
    exact .inr ⟨hu, h.tracked.completed.lt_size u c hu⟩

/-- The parts below are as sound as before. -/
theorem sound (hp : p ∈ rest) : Sound successors s' p := by
  have hsound := h.tracked.sound p (List.mem_cons_of_mem g hp)
  refine hsound.congr (by rw [h.takes.rank_eq]) (by rw [h.takes.lowlink_eq]) ?_ ?_
  · -- the low link of a lower part is below the rank of the part that is taken off
    intro u hu hr
    have hlt : p.low < g.rank := Nat.lt_of_le_of_lt hsound.low_le <| h.tracked.rank_lt hp
      (List.mem_append_right _ (List.mem_singleton_self _)) hsound.rank_eq
    have hnot : u ∉ g.nodes := fun hmem =>
      absurd (h.tracked.rank_le List.mem_cons_self hmem hr) (Nat.not_le.2 hlt)
    exact ⟨h.mem_stack_iff.2 ⟨hu, hnot⟩, h.takes.rank_eq ▸ hr⟩
  · rintro w ⟨u, hw, ⟨c, hc⟩ | ⟨hu, r, hr, hle⟩⟩
    · exact ⟨u, hw, .inl ⟨c, h.component_of_component hc⟩⟩
    · rcases h.mem_stack_cases hu with hmem | ⟨hmem, -⟩
      · exact ⟨u, hw, .inl ⟨_, h.component_of_mem hmem⟩⟩
      · exact ⟨u, hw, .inr ⟨hmem, r, h.takes.rank_eq ▸ hr, hle⟩⟩

/-- **No edge leaves the new component**, except to earlier ones. -/
theorem edge_of_mem (hv : v ∈ g.nodes) (hvw : Edge successors v w) :
    ∃ u : Fin n, u.val = w ∧ ∃ d ≤ s.sizes.size, s'.component.get u = some d := by
  rcases (h.tracked.sound g List.mem_cons_self).edges v hv w hvw with hw | hw
  · exact absurd (h.pending_eq ▸ hw) List.not_mem_nil
  · obtain ⟨u, hw, ⟨c, hc⟩ | ⟨hu, r, hr, hle⟩⟩ := hw
    · exact ⟨u, hw, c, Nat.le_of_lt (h.tracked.completed.lt_size u c hc),
        h.component_of_component hc⟩
    · have hmem := h.tracked.mem_nodes_of_le hu hr (h.low_eq ▸ hle)
      exact ⟨u, hw, _, Nat.le_refl _, h.component_of_mem hmem⟩

theorem members_new : members s'.component s.sizes.size = g.nodes.toFinset := by
  ext u
  rw [mem_members, List.mem_toFinset]
  constructor
  · intro hu
    rcases h.component_cases hu with ⟨hu, -⟩ | ⟨-, hlt⟩
    · exact hu
    · exact absurd hlt (Nat.lt_irrefl _)
  · exact h.component_of_mem

theorem members_old (hc : c ≠ s.sizes.size) : members s'.component c = members s.component c := by
  ext u
  rw [mem_members, mem_members]
  exact ⟨fun hu => (h.component_cases hu).elim (fun hu => absurd hu.2 hc) And.left,
    h.component_of_component⟩

theorem nodes_nodup : g.nodes.Nodup := by
  have hnodup := h.tracked.stack_nodup
  rw [h.tracked.stack_eq, List.flatMap_cons] at hnodup
  exact (List.nodup_append.1 hnodup).1

/-- The components stay closed under edges, and the new one is strongly connected. -/
theorem completed : Completed successors s'.component s'.sizes where
  lt_size u c hu := by
    rw [h.sizes_eq, Array.size_push]
    rcases h.component_cases hu with ⟨-, rfl⟩ | ⟨-, hc⟩
    · exact Nat.lt_succ_self _
    · exact Nat.lt_succ_of_lt hc
  edge v w c hv hvw := by
    rcases h.component_cases hv with ⟨hmem, rfl⟩ | ⟨hv, -⟩
    · exact h.edge_of_mem hmem hvw
    · obtain ⟨u, hw, d, hd, hu⟩ := h.tracked.completed.edge v w c hv hvw
      exact ⟨u, hw, d, hd, h.component_of_component hu⟩
  reaches v u c hv hu := by
    rcases h.component_cases hv with ⟨hvm, rfl⟩ | ⟨hv, hc⟩
    · rcases h.component_cases hu with ⟨hum, -⟩ | ⟨-, hc⟩
      · exact (h.tracked.sound g List.mem_cons_self).connected v hvm u hum
      · exact absurd hc (Nat.lt_irrefl _)
    · rcases h.component_cases hu with ⟨-, rfl⟩ | ⟨hu, -⟩
      · exact absurd hc (Nat.lt_irrefl _)
      · exact h.tracked.completed.reaches v u c hv hu
  sizes_eq c k hk := by
    rw [h.sizes_eq, Array.getElem?_push] at hk
    split at hk
    · rename_i hc
      cases hk
      rw [hc, h.members_new, List.toFinset_card_of_nodup h.nodes_nodup]
      exact ⟨by simp [Part.nodes], rfl⟩
    · rename_i hc
      rw [h.members_old hc]
      exact h.tracked.completed.sizes_eq c k hk

end Completes

/-- **The part of the current call becomes a component.** -/
theorem Tracked.complete (h : Completes successors roots todo g rest s s')
    (hcalls : s'.calls = rest.map Part.frame) : Tracked successors roots todo rest s' where
  calls_eq := hcalls
  stack_eq := h.takes.stack_eq
  ranked u hu := by
    rw [h.takes.rank_eq, h.takes.counter_eq]
    exact h.tracked.ranked u (h.mem_stack_iff.1 hu).1
  sorted := by
    have hsorted := h.tracked.sorted
    rw [h.tracked.stack_eq, List.flatMap_cons] at hsorted
    rw [h.takes.stack_eq, h.takes.rank_eq]
    exact (List.pairwise_append.1 hsorted).2.1
  onStack_iff u := by
    rw [h.takes.onStack_eq, h.mem_stack_iff, ← h.tracked.onStack_iff]
    split <;> simp [*]
  met_cases u r hu := by
    rw [h.takes.rank_eq] at hu
    rcases h.tracked.met_cases u r hu with hu | ⟨c, hc⟩
    · rcases h.mem_stack_cases hu with hmem | ⟨hmem, -⟩
      · exact .inr ⟨_, h.component_of_mem hmem⟩
      · exact .inl hmem
    · exact .inr ⟨c, h.component_of_component hc⟩
  of_component u c hc := by
    rw [h.takes.rank_eq, h.mem_stack_iff]
    rcases h.component_cases hc with ⟨hmem, -⟩ | ⟨hc, -⟩
    · obtain ⟨r, hr, -⟩ := h.tracked.ranked u
        (h.tracked.mem_stack.2 ⟨g, List.mem_cons_self, hmem⟩)
      exact ⟨fun hu => hu.2 hmem, r, hr⟩
    · obtain ⟨hnot, hmet⟩ := h.tracked.of_component u c hc
      exact ⟨fun hu => hnot hu.1, hmet⟩
  sound p hp := h.sound hp
  below := (List.pairwise_cons.1 h.tracked.below).2
  completed := h.completed
  reached := by
    rw [h.takes.rank_eq]
    exact h.tracked.reached

/-! ### Leaving a call -/

/-- A call is left in two moves.  First the low link of the caller is lowered to that of the call's
node, and the parts of the stack are tracked as before. -/
theorem Invariant.exists_lowered (h : Invariant successors roots (g :: rest) s) :
    ∃ (t : Search n) (callers : List (Part n)),
      lowerCaller { s with calls := rest.map Part.frame } g.frame.node =
        { t with calls := rest.map Part.frame } ∧
      t.roots = s.roots ∧ callers.map Part.frame = rest.map Part.frame ∧
      Tracked successors roots s.roots (g :: callers) t ∧
      (∀ p ∈ callers, p.pending = p.frame.pending) ∧
      ∀ p ps, callers = p :: ps → p.low ≤ g.low := by
  have hg := h.sound g List.mem_cons_self
  obtain ⟨u, hu, hr, hreach⟩ := hg.low_reached
  cases rest with
  | nil =>
    exact ⟨s, [], rfl, rfl, rfl, h.toTracked, by simp, by simp⟩
  | cons p rest =>
    have hup : Reaches successors p.frame.node u := by
      refine ((List.pairwise_cons.1 h.below).1 p.nodes (by simp) _ ?_ _ ?_).trans hreach
      · exact List.mem_append_right _ (List.mem_singleton_self _)
      · exact List.mem_append_right _ (List.mem_singleton_self _)
    refine ⟨s.lower p.frame.node (some g.low), { p with low := min p.low g.low } :: rest, ?_, rfl,
      rfl, h.toTracked.lower [g] hu hr hup, fun q hq => ?_, fun q qs hq => ?_⟩
    · rw [List.map_cons, lowerCaller, hg.low_eq]
      rfl
    · rcases List.mem_cons.1 hq with rfl | hq
      · exact h.pending_eq p (by simp)
      · exact h.pending_eq q (by simp [hq])
    · cases hq
      exact Nat.min_le_right _ _

/-- **A call without pending edges can be left.** -/
theorem Invariant.exists_leave (h : Invariant successors roots (g :: rest) s)
    (hpending : g.frame.pending = []) :
    ∃ path s', s.leave g.frame.node (rest.map Part.frame) = .ok s' ∧
      Invariant successors roots path s' := by
  have hnil : g.pending = [] := (h.pending_eq g List.mem_cons_self).trans hpending
  obtain ⟨t, callers, hlowered, hroots, hframes, ht, hcallers, hle⟩ := h.exists_lowered
  have hg := ht.sound g List.mem_cons_self
  have hstack : t.stack = g.left ++ g.frame.node :: callers.flatMap Part.nodes :=
    ht.stack_eq.trans (by simp [Part.nodes])
  rw [leave, hlowered]
  dsimp only
  rw [hg.rank_eq, hg.low_eq]
  by_cases heq : g.low = g.rank
  · have hnot : g.frame.node ∉ g.left := by
      have hnodup := ht.stack_nodup
      rw [ht.stack_eq, List.flatMap_cons] at hnodup
      intro hmem
      exact (List.nodup_append.1 (List.nodup_append.1 hnodup).1).2.2 _ hmem _
        (List.mem_singleton_self _) rfl
    obtain ⟨s', hs', htakes, hsizes⟩ := exists_complete (callers.flatMap Part.nodes)
      { t with calls := rest.map Part.frame } 0 hnot
    have hcompletes : Completes successors roots s.roots g callers t s' := by
      refine ⟨ht, hnil, heq, ⟨htakes.rank_eq, htakes.lowlink_eq, htakes.counter_eq, htakes.roots_eq,
        htakes.stack_eq, htakes.onStack_eq, htakes.component_eq⟩, hsizes.trans ?_⟩
      simp [Part.nodes]
    have hcalls : s'.calls = callers.map Part.frame := (complete_eq hs').2.1.trans hframes.symm
    refine ⟨callers, s', ?_, ⟨?_, hcallers⟩⟩
    · rw [if_pos (congrArg some heq), ← hs']
      exact congrArg _ hstack
    · rw [htakes.roots_eq]
      exact hroots ▸ Tracked.complete hcompletes hcalls
  · have hlt := Nat.lt_of_le_of_ne hg.low_le heq
    cases callers with
    | nil =>
      obtain ⟨u, hu, hr, -⟩ := hg.low_reached
      rw [ht.stack_eq, List.flatMap_singleton] at hu
      exact absurd (ht.rank_le List.mem_cons_self hu hr) (Nat.not_le.2 hlt)
    | cons p ps =>
      have htracked : Tracked successors roots t.roots ({ p with left := g.nodes ++ p.left } :: ps)
          { t with calls := rest.map Part.frame } :=
        hframes ▸ hroots.symm ▸ ht.join hnil hlt (hle p ps rfl)
      refine ⟨_, _, if_neg fun hsome => heq (Option.some.inj hsome), ⟨htracked, fun q hq => ?_⟩⟩
      rcases List.mem_cons.1 hq with rfl | hq
      · exact hcallers p List.mem_cons_self
      · exact hcallers q (List.mem_cons_of_mem p hq)

end Search

end OmegaAutomata
