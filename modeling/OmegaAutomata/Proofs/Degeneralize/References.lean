/-
# Counting the transitions that lead to a state

The count that a state keeps of the transitions that lead to it is their number, and a
state that is pending is the target of one of them.  So a pending state that comes up
is never found to be superfluous, and nothing is freed during a construction.

The number is a sum over all states (`references`).  An operation changes the
transitions of one state, so it changes one of the terms (`references_of_change`).
-/

import OmegaAutomata.Proofs.Arena.Rewiring
import OmegaAutomata.Proofs.Degeneralize.Registered
import Mathlib.Algebra.BigOperators.Group.Finset.Basic
import Mathlib.Algebra.Order.BigOperators.Group.Finset

namespace OmegaAutomata

/-! ### Lists that grow -/

namespace Transition

variable {t u : Transition} {ts : List Transition} {onTheFly : Bool} {x : StateId}

/-- The transitions of a state after one more was added. -/
def grow (onTheFly : Bool) (t : Transition) (ts : List Transition) : List Transition :=
  if onTheFly then t.insertPruned ts else t :: ts

theorem grow_subset : ∀ r ∈ grow onTheFly t ts, r ∈ t :: ts := by
  intro r hr
  unfold grow at hr
  split at hr
  · exact insertPruned_subset r hr
  · exact hr

/-- A list that grows keeps a transition that subsumes the new one, and one for each old one. -/
theorem exists_mem_grow (onTheFly : Bool) (t : Transition) (ts : List Transition) :
    ∀ r ∈ t :: ts, ∃ u ∈ grow onTheFly t ts, r.subsumedBy u = true := by
  intro r hr
  unfold grow
  split
  · exact exists_mem_insertPruned r hr
  · exact ⟨r, hr, r.subsumedBy_refl⟩

/-- A list grows by one transition at most. -/
theorem length_grow_le (onTheFly : Bool) (t : Transition) (ts : List Transition) :
    (grow onTheFly t ts).length ≤ ts.length + 1 := by
  have hkept : (t.notSubsumed ts).length ≤ ts.length := List.length_filter_le _ _
  unfold grow
  split
  · rw [insertPruned_eq]
    split
    · omega
    · exact Nat.succ_le_succ hkept
  · exact Nat.le_refl _

/-- The number of transitions of a list that lead to a state. -/
def countTo (ts : List Transition) (x : StateId) : Nat :=
  (ts.map Transition.target).count x

theorem countTo_cons : countTo (t :: ts) x = countTo ts x + if t.target = x then 1 else 0 := by
  rw [countTo, List.map_cons, List.count_cons]
  simp [countTo]

theorem countTo_pos : 0 < countTo ts x ↔ ∃ t ∈ ts, t.target = x := by
  rw [countTo, List.count_pos_iff, List.mem_map]

theorem length_notSubsumed_le (t : Transition) (ts : List Transition) :
    (t.notSubsumed ts).length ≤ ts.length :=
  List.length_filter_le _ _

/-- The subsumed transitions all have the same target. -/
theorem countTo_notSubsumed : countTo ts x =
    countTo (t.notSubsumed ts) x +
      if t.target = x then ts.length - (t.notSubsumed ts).length else 0 := by
  induction ts with
  | nil => simp [notSubsumed, countTo]
  | cons u ts ih =>
    have hle := length_notSubsumed_le t ts
    cases hu : u.subsumedBy t with
    | true =>
      have htarget := (subsumedBy_iff.1 hu).1
      have hdrop : t.notSubsumed (u :: ts) = t.notSubsumed ts := by simp [notSubsumed, hu]
      rw [hdrop, countTo_cons, ih, htarget, List.length_cons]
      split
      · omega
      · rfl
    | false =>
      have hkeep : t.notSubsumed (u :: ts) = u :: t.notSubsumed ts := by simp [notSubsumed, hu]
      rw [hkeep, countTo_cons, countTo_cons, ih, List.length_cons, List.length_cons,
        Nat.add_sub_add_right]
      omega

theorem countTo_grow_of_ne (h : t.target ≠ x) : countTo (grow onTheFly t ts) x = countTo ts x := by
  unfold grow
  split
  · have hkept : countTo ts x = countTo (t.notSubsumed ts) x := by
      rw [countTo_notSubsumed (t := t), if_neg h, Nat.add_zero]
    rw [insertPruned_eq, hkept]
    split
    · rfl
    · rw [countTo_cons, if_neg h, Nat.add_zero]
  · rw [countTo_cons, if_neg h, Nat.add_zero]

/-- No state is led to by more than one transition more. -/
theorem countTo_grow_le : countTo (grow onTheFly t ts) x ≤ countTo ts x + 1 := by
  have hcons (us : List Transition) : countTo (t :: us) x ≤ countTo us x + 1 := by
    rw [countTo_cons]
    split <;> omega
  have hkept : countTo (t.notSubsumed ts) x ≤ countTo ts x :=
    (Nat.le_add_right _ _).trans_eq countTo_notSubsumed.symm
  unfold grow
  split
  · rw [insertPruned_eq]
    split
    · exact Nat.le_succ_of_le hkept
    · exact (hcons _).trans (Nat.succ_le_succ hkept)
  · exact hcons ts

end Transition

/-! ### Changing counts -/

namespace Arena

variable {a : Arena} {id x : StateId} {s : State} {r : Nat → Nat} {l : Slot}

/-- Changes the count of the transitions that lead to a state. -/
def recount (a : Arena) (id : StateId) (r : Nat → Nat) : Arena :=
  a.modify id fun s => { s with incoming := r s.incoming }

theorem recount_recount (a : Arena) (id : StateId) (r q : Nat → Nat) :
    (a.recount id r).recount id q = a.recount id fun i => q (r i) :=
  modify_modify a id _ _

theorem isSome_recount : ((a.recount id r).slot? x).isSome = (a.slot? x).isSome := by
  rw [recount, slot?_modify, Option.isSome_map]

/-- What is found after a count was changed: the count, and what was there before. -/
theorem slot?_recount (h : (a.recount id r).slot? x = some l) : ∃ m, a.slot? x = some m ∧
    l = { m with state := { m.state with incoming := l.state.incoming } } ∧
    l.state.incoming = if x = id then r m.state.incoming else m.state.incoming := by
  rw [recount, slot?_modify, Option.map_eq_some_iff] at h
  obtain ⟨m, hm, rfl⟩ := h
  refine ⟨m, hm, ?_, ?_⟩
  · split <;> rfl
  · split <;> rfl

end Arena

namespace Construction

variable {a b : Arena} {id source : StateId} {t : Transition} {onTheFly : Bool} {n : Nat}

theorem release_eq_ok (h : release a id n = .ok b) :
    ∃ l, a.slot? id = some l ∧ n ≤ l.state.incoming ∧ b = a.recount id (· - n) := by
  obtain ⟨s, hs, h⟩ := bind_eq_ok.1 h
  obtain ⟨stage, hs⟩ := Arena.state_eq_ok.1 hs
  split at h
  · contradiction
  · cases h
    exact ⟨_, hs, Nat.le_of_not_lt ‹_›, rfl⟩

theorem retain_eq_ok (h : retain a id = .ok b) :
    ∃ l, a.slot? id = some l ∧ b = a.recount id (· + 1) := by
  obtain ⟨s, hs, h⟩ := bind_eq_ok.1 h
  obtain ⟨stage, hs⟩ := Arena.state_eq_ok.1 hs
  split at h
  · cases h
    exact ⟨_, hs, rfl⟩
  · contradiction

/-- **What `link` did**: the list of transitions has grown, and the count of the target changed by
as much as the number of transitions to it. -/
theorem link_eq_ok (h : link onTheFly a source t = .ok b) :
    ∃ (l m : Slot) (r : Nat → Nat), a.slot? source = some l ∧ a.slot? t.target = some m ∧
      b = (a.recount t.target r).setTransitions source (t.grow onTheFly l.state.transitions) ∧
      r m.state.incoming + Transition.countTo l.state.transitions t.target =
        m.state.incoming + Transition.countTo (t.grow onTheFly l.state.transitions) t.target := by
  obtain ⟨s, hs, h⟩ := bind_eq_ok.1 h
  obtain ⟨stage, hs⟩ := Arena.state_eq_ok.1 hs
  dsimp only at h
  split at h
  · rename_i hfly
    obtain ⟨c, hc, h⟩ := bind_eq_ok.1 h
    obtain ⟨m, hm, hle, rfl⟩ := release_eq_ok hc
    have hcount : Transition.countTo s.transitions t.target =
        Transition.countTo (t.notSubsumed s.transitions) t.target +
          (s.transitions.length - (t.notSubsumed s.transitions).length) := by
      rw [Transition.countTo_notSubsumed (t := t), if_pos rfl]
    have hgrow : t.grow onTheFly s.transitions = t.insertPruned s.transitions := if_pos hfly
    split at h
    · rename_i hany
      cases h
      refine ⟨_, m, fun i => i - _, hs, hm, by rw [hgrow], ?_⟩
      rw [hgrow, Transition.insertPruned_eq, if_pos hany]
      dsimp only
      omega
    · rename_i hany
      obtain ⟨d, hd, h⟩ := bind_eq_ok.1 h
      cases h
      obtain ⟨-, -, rfl⟩ := retain_eq_ok hd
      refine ⟨_, m, fun i => i - _ + 1, hs, hm, by rw [hgrow, Arena.recount_recount], ?_⟩
      rw [hgrow, Transition.insertPruned_eq, if_neg hany, Transition.countTo_cons, if_pos rfl]
      dsimp only
      omega
  · rename_i hfly
    obtain ⟨c, hc, h⟩ := bind_eq_ok.1 h
    cases h
    obtain ⟨m, hm, rfl⟩ := retain_eq_ok hc
    have hgrow : t.grow onTheFly s.transitions = t :: s.transitions := if_neg hfly
    refine ⟨_, m, (· + 1), hs, hm, by rw [hgrow], ?_⟩
    rw [hgrow, Transition.countTo_cons, if_pos rfl]
    dsimp only
    omega

end Construction

/-! ### The number of references -/

namespace Arena

variable {g : Generalized} {a b : Arena} {id x y z : StateId} {s : State} {fresh : Option StateId}

/-- The number of transitions that lead to a state. -/
def references (a : Arena) (x : StateId) : Nat :=
  ∑ y ∈ Finset.range a.slots.size, Transition.countTo (a.transitionsOf y) x

/-- **One term changes** when an operation changes the transitions of one state. -/
theorem references_of_change (hsize : b.slots.size = a.slots.size) (hz : z < a.slots.size)
    (hother : ∀ y ≠ z, b.transitionsOf y = a.transitionsOf y) (x : StateId) :
    b.references x + Transition.countTo (a.transitionsOf z) x =
      a.references x + Transition.countTo (b.transitionsOf z) x := by
  have hmem : z ∈ Finset.range a.slots.size := Finset.mem_range.2 hz
  have hrest : ∑ y ∈ (Finset.range a.slots.size).erase z, Transition.countTo (b.transitionsOf y) x =
      ∑ y ∈ (Finset.range a.slots.size).erase z, Transition.countTo (a.transitionsOf y) x :=
    Finset.sum_congr rfl fun y hy => by rw [hother y (Finset.ne_of_mem_erase hy)]
  rw [references, references, hsize, ← Finset.add_sum_erase _ _ hmem,
    ← Finset.add_sum_erase (Finset.range a.slots.size)
      (fun y => Transition.countTo (a.transitionsOf y) x) hmem, hrest]
  omega

theorem references_congr (hsize : b.slots.size = a.slots.size)
    (h : ∀ y, b.transitionsOf y = a.transitionsOf y) (x : StateId) :
    b.references x = a.references x := by
  rw [references, references, hsize]
  exact Finset.sum_congr rfl fun y _ => by rw [h]

/-- A state that is led to is a target. -/
theorem references_pos (ht : ∃ t ∈ a.transitionsOf y, t.target = x) : 0 < a.references x := by
  have hy : y < a.slots.size := by
    obtain ⟨t, ht, -⟩ := ht
    by_contra hge
    rw [transitionsOf, slot?_eq_none_of_le (Nat.le_of_not_lt hge)] at ht
    exact List.not_mem_nil ht
  refine Nat.lt_of_lt_of_le (Transition.countTo_pos.2 ht) ?_
  exact Finset.single_le_sum (f := fun y => Transition.countTo (a.transitionsOf y) x)
    (fun _ _ => Nat.zero_le _) (Finset.mem_range.2 hy)

theorem references_eq_zero (h : ∀ y, ∀ t ∈ a.transitionsOf y, t.target ≠ x) :
    a.references x = 0 := by
  refine Finset.sum_eq_zero fun y _ => Nat.eq_zero_of_not_pos fun hpos => ?_
  obtain ⟨t, ht, hx⟩ := Transition.countTo_pos.1 hpos
  exact h y t ht hx

theorem transitionsOf_recount {r : Nat → Nat} (y : StateId) :
    (a.recount id r).transitionsOf y = a.transitionsOf y := by
  rw [transitionsOf, transitionsOf, recount, slot?_modify, Option.map_map]
  congr 2
  funext l
  by_cases hy : y = id <;> simp [hy]

theorem transitionsOf_setTransitions (ts : List Transition) (y : StateId) :
    (a.setTransitions id ts).transitionsOf y =
      if y = id ∧ (a.slot? id).isSome then ts else a.transitionsOf y := by
  rw [transitionsOf, transitionsOf, setTransitions, slot?_modify]
  by_cases hy : y = id
  · subst hy
    cases a.slot? y <;> simp
  · simp [hy]

/-- **Linking grows one list** and no other. -/
theorem transitionsOf_link {t : Transition} {onTheFly : Bool}
    (h : Construction.link onTheFly a id t = .ok b) (y : StateId) :
    b.transitionsOf y =
      if y = id then t.grow onTheFly (a.transitionsOf id) else a.transitionsOf y := by
  obtain ⟨l, m, r, hl, -, rfl, -⟩ := Construction.link_eq_ok h
  have hsome : ((a.recount t.target r).slot? id).isSome = true := by
    rw [isSome_recount, hl]
    rfl
  simp only [transitionsOf_setTransitions, transitionsOf_recount, hsome, and_true,
    transitionsOf_eq hl]

/-- Whether counts are right, and pending states are led to, except a fresh one. -/
structure Counted (fresh : Option StateId) (a : Arena) : Prop where
  references_eq : ∀ x l, a.slot? x = some l → a.references x = l.state.incoming
  wanted : ∀ x ∈ a.pending, some x ≠ fresh → 0 < a.references x

/-- Linking counts the new transition, and leads to the fresh state. -/
theorem Counted.link (h : a.Counted fresh) {source : StateId} {t : Transition} {onTheFly : Bool}
    (hfresh : ∀ x, fresh = some x → x = t.target)
    (hb : Construction.link onTheFly a source t = .ok b) : b.Counted none := by
  have hts := transitionsOf_link hb
  obtain ⟨l, m, r, hl, hm, rfl, hr⟩ := Construction.link_eq_ok hb
  have hchange (x : StateId) := references_of_change (a := a)
    (b := (a.recount t.target r).setTransitions source (t.grow onTheFly l.state.transitions))
    (by rw [setTransitions, modify_size, recount, modify_size]) (lt_size_of_slot? hl)
    (fun y hy => by rw [hts, if_neg hy]) x
  simp only [hts, transitionsOf_eq hl, if_true] at hchange
  refine ⟨fun x l' hl' => ?_, fun x hx _ => ?_⟩
  · rw [setTransitions, slot?_modify, Option.map_eq_some_iff] at hl'
    obtain ⟨l₁, hl₁, hl'⟩ := hl'
    obtain ⟨l₀, hl₀, -, hincoming⟩ := slot?_recount hl₁
    have hincoming' : l'.state.incoming = l₁.state.incoming := by
      subst hl'
      split <;> rfl
    have heq := h.references_eq x l₀ hl₀
    have hx := hchange x
    rw [hincoming', hincoming]
    split
    · rename_i hxt
      subst hxt
      cases hm.symm.trans hl₀
      omega
    · rename_i hxt
      rw [Transition.countTo_grow_of_ne (Ne.symm hxt)] at hx
      omega
  · by_cases hxt : x = t.target
    · obtain ⟨u, hu, htu⟩ := Transition.exists_mem_grow onTheFly t l.state.transitions t
        List.mem_cons_self
      refine references_pos (y := source) ⟨u, ?_, ?_⟩
      · rwa [hts, if_pos rfl, transitionsOf_eq hl]
      · rw [hxt, (Transition.subsumedBy_iff.1 htu).1]
    · have hpos := h.wanted x hx fun hfx => hxt (hfresh x hfx.symm)
      have hx := hchange x
      rw [Transition.countTo_grow_of_ne (Ne.symm hxt)] at hx
      omega

/-- A new state has no transitions, and all others keep theirs. -/
theorem transitionsOf_addPending (a : Arena) (q : Nat) (i : Int) (c : Nat) (y : StateId) :
    (a.addPending q i c).2.transitionsOf y = a.transitionsOf y := by
  rw [transitionsOf, transitionsOf, slot?_addPending]
  split
  · rename_i hy
    rw [hy, slot?_size]
    rfl
  · rfl

/-- A state that was just created is led to by nothing yet. -/
theorem Counted.addPending (h : a.Counted none) (hl : a.Listed) (q : Nat) (i : Int) (c : Nat) :
    (a.addPending q i c).2.Counted (some a.slots.size) := by
  have hts := transitionsOf_addPending a q i c
  have hreferences (x : StateId) : (a.addPending q i c).2.references x = a.references x := by
    have hsize : (a.addPending q i c).2.slots.size = a.slots.size + 1 := Array.size_push _
    have hnew : a.transitionsOf a.slots.size = [] := by
      rw [transitionsOf, slot?_size]
      rfl
    simp only [references, hsize, Finset.sum_range_succ, hts, hnew]
    rfl
  have htarget (y : StateId) (t : Transition) (ht : t ∈ a.transitionsOf y) :
      (a.slot? t.target).isSome = true := by
    cases hy : a.slot? y with
    | none =>
      rw [transitionsOf, hy] at ht
      exact absurd ht List.not_mem_nil
    | some l => exact hl.target_some y l hy t (transitionsOf_eq hy ▸ ht)
  refine ⟨fun x l hx => ?_, fun x hx hne => ?_⟩
  · rw [hreferences]
    rw [slot?_addPending] at hx
    split at hx
    · rename_i hsize
      cases hx
      refine references_eq_zero fun y t ht heq => ?_
      have hsome := htarget y t ht
      rw [heq, hsize, slot?_size] at hsome
      contradiction
    · exact h.references_eq x l hx
  · rw [hreferences]
    rcases List.mem_cons.1 hx with rfl | hx
    · exact absurd rfl hne
    · exact h.wanted x hx (by simp)

/-- Becoming live changes no transitions. -/
theorem transitionsOf_promoteNow (hid : a.slot? id = some ⟨.pending, s⟩) (y : StateId) :
    (a.promoteNow id s).transitionsOf y = a.transitionsOf y := by
  rw [transitionsOf, transitionsOf, slot?_promoteNow hid]
  split
  · rename_i hy
    rw [hy, hid]
    rfl
  · rfl

theorem Counted.promoteNow (h : a.Counted none) (hid : a.slot? id = some ⟨.pending, s⟩) :
    (a.promoteNow id s).Counted none := by
  have hslot (x : StateId) : ((a.promoteNow id s).slot? x).map Slot.state =
      (a.slot? x).map Slot.state := by
    rw [slot?_promoteNow hid]
    split
    · rename_i hx
      rw [hx, hid]
      rfl
    · rfl
  have hreferences (x : StateId) : (a.promoteNow id s).references x = a.references x :=
    references_congr (promoteNow_size a id s) (transitionsOf_promoteNow hid) x
  refine ⟨fun x l hl => ?_, fun x hx _ => ?_⟩
  · have hx := hslot x
    rw [hl, Option.map_some, eq_comm, Option.map_eq_some_iff] at hx
    obtain ⟨m, hm, hml⟩ := hx
    rw [hreferences, ← hml]
    exact h.references_eq x m hm
  · rw [hreferences]
    exact h.wanted x hx (by simp)

theorem Counted.setPending (h : a.Counted none) {ids : List StateId}
    (hids : ∀ x ∈ ids, x ∈ a.pending) : ({ a with pending := ids } : Arena).Counted none :=
  ⟨h.references_eq, fun x hx => h.wanted x (hids x hx)⟩

/-- What a change of one count keeps, lowering several counts keeps. -/
theorem releases_induction {P : Arena → Prop} {ids : List StateId}
    (h : ids.foldlM (fun a target => Construction.release a target 1) a = .ok b)
    (hP : ∀ c id r, P c → P (recount c id r)) (ha : P a) : P b :=
  foldlM_induction (P := fun _ => P) h ha fun _ _ c _ hc hrelease => by
    obtain ⟨-, -, -, rfl⟩ := Construction.release_eq_ok hrelease
    exact hP c _ _ hc

/-- Lowering counts changes no stage. -/
theorem Pooled.releases (h : a.Pooled) {ids : List StateId}
    (hb : ids.foldlM (fun a target => Construction.release a target 1) a = .ok b) : b.Pooled :=
  releases_induction hb (fun _ _ _ hc => hc.modify _ _) h

/-- What is found after some counts were lowered. -/
theorem slot?_of_releases {ids : List StateId}
    (h : ids.foldlM (fun a target => Construction.release a target 1) a = .ok b) {l : Slot}
    (hl : b.slot? x = some l) : ∃ m, a.slot? x = some m ∧
      l.state.transitions = m.state.transitions ∧
      l.state.incoming + ids.count x = m.state.incoming := by
  induction ids generalizing a with
  | nil =>
    cases h
    exact ⟨l, hl, rfl, rfl⟩
  | cons y ids ih =>
    rw [List.foldlM_cons] at h
    obtain ⟨c, hc, h⟩ := bind_eq_ok.1 h
    obtain ⟨ly, hly, hpos, rfl⟩ := Construction.release_eq_ok hc
    obtain ⟨m, hm, hts, hcount⟩ := ih h
    obtain ⟨m', hm', heq, hincoming⟩ := slot?_recount hm
    refine ⟨m', hm', hts.trans (by rw [heq]), ?_⟩
    rw [List.count_cons]
    by_cases hxy : x = y
    · subst hxy
      cases hly.symm.trans hm'
      rw [if_pos rfl] at hincoming
      simp only [beq_self_eq_true, if_true]
      omega
    · rw [if_neg hxy] at hincoming
      rw [if_neg (by simpa using Ne.symm hxy)]
      omega

/-- Only counts are changed by lowering them. -/
theorem releases_keeps {ids : List StateId}
    (h : ids.foldlM (fun a target => Construction.release a target 1) a = .ok b) :
    b.slots.size = a.slots.size ∧ b.pending = a.pending ∧
      ∀ y, b.transitionsOf y = a.transitionsOf y := by
  refine releases_induction (P := fun c => c.slots.size = a.slots.size ∧ c.pending = a.pending ∧
    ∀ y, c.transitionsOf y = a.transitionsOf y) h ?_ ⟨rfl, rfl, fun _ => rfl⟩
  rintro c id r ⟨hsize, hpending, hts⟩
  refine ⟨(modify_size c id _).trans hsize, hpending, fun y => ?_⟩
  rw [transitionsOf_recount, hts y]

/-- A retired state has no transitions, all others keep theirs. -/
theorem transitionsOf_retireNow (b : Arena) (id : StateId) (f : Option StateId) (y : StateId) :
    (b.retireNow id f).transitionsOf y = if y = id then [] else b.transitionsOf y := by
  rw [transitionsOf, transitionsOf, slot?_retireNow, Option.map_map]
  split
  · rename_i hy
    cases b.slot? y <;> simp [afterRetiring, hy]
  · rename_i hy
    congr 2
    funext m
    simp only [Function.comp_apply, afterRetiring, if_neg hy]
    split <;> rfl

/-- **A state can be retired** if the transitions to others that are lost were counted, and pending
states are still led to. -/
theorem Counted.retireNow (h : a.Counted none) {l : Slot} (hid : a.slot? id = some l)
    {f : Option StateId}
    (hb : l.state.targets.foldlM (fun a target => Construction.release a target 1) a = .ok b)
    (hother : ∀ t ∈ l.state.transitions, ∃ y ≠ id, ∃ u ∈ a.transitionsOf y, u.target = t.target) :
    (b.retireNow id f).Counted none := by
  obtain ⟨hsize, hpending, hbts⟩ := releases_keeps hb
  have hts (y : StateId) : (b.retireNow id f).transitionsOf y =
      if y = id then [] else a.transitionsOf y := by
    rw [transitionsOf_retireNow, hbts]
  have hchange (x : StateId) : (b.retireNow id f).references x +
      Transition.countTo l.state.transitions x = a.references x := by
    have hx := references_of_change (a := a) (b := b.retireNow id f)
      ((retireNow_size b id f).trans hsize) (lt_size_of_slot? hid)
      (fun y hy => by rw [hts, if_neg hy]) x
    rwa [hts, if_pos rfl, transitionsOf_eq hid] at hx
  refine ⟨fun x m hm => ?_, fun x hx _ => ?_⟩
  · rw [slot?_retireNow, Option.map_eq_some_iff] at hm
    obtain ⟨m₁, hm₁, rfl⟩ := hm
    obtain ⟨m₀, hm₀, -, hcount⟩ := slot?_of_releases hb hm₁
    have hincoming : (afterRetiring id f x m₁).state.incoming = m₁.state.incoming := by
      unfold afterRetiring
      split_ifs <;> rfl
    have heq := h.references_eq x m₀ hm₀
    have hx := hchange x
    rw [hincoming]
    unfold State.targets at hcount
    unfold Transition.countTo at hx
    omega
  · rw [Arena.retireNow, hpending] at hx
    have hpos := h.wanted x hx (by simp)
    by_cases hzero : Transition.countTo l.state.transitions x = 0
    · have hx := hchange x
      omega
    · obtain ⟨t, ht, rfl⟩ := Transition.countTo_pos.1 (Nat.pos_of_ne_zero hzero)
      obtain ⟨y, hy, u, hu, hut⟩ := hother t ht
      refine references_pos (y := y) ⟨u, ?_, hut⟩
      rwa [hts, if_neg hy]

end Arena

end OmegaAutomata
