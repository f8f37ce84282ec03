/-
# What an operation removes

No operation of a minimization creates a state.  What is left after one has the source
and the display id that it had before, and its counter is one that some state had
(`Removes`): a merged state may leave its counter to the state that it was merged
into.  Labels are only dropped.  The number that an operation returns is how many live
states are gone.

None of these operations fails in a valid arena either (`Valid.removes_redirect`,
`Valid.removes_mergeEach`, `Valid.removes_classify`): what they look up is there, nothing is
retired twice, and a replacement is live.
-/

import OmegaAutomata.Proofs.Arena.Classify
import OmegaAutomata.Proofs.Arena.Merge

namespace OmegaAutomata

namespace Arena

variable {a b c : Arena} {k n m : Nat} {id p x : StateId} {s t : State} {ids : List StateId}
  {spared root : Option StateId}

/-- Whether all labels of live states satisfy `P`. -/
def Labelled (P : Label → Prop) (a : Arena) : Prop :=
  ∀ x s, a.LiveAt x s → ∀ t ∈ s.transitions, P t.label

/-- Whether `b` is what is left of `a` after `n` of its live states were removed. -/
structure Removes (n : Nat) (a b : Arena) : Prop where
  length_eq : b.live.length + n = a.live.length
  pending_eq : b.pending = a.pending
  origin : ∀ x s, b.LiveAt x s →
    ∃ t, a.LiveAt x t ∧ t.source = s.source ∧ t.identity = s.identity
  counter : ∀ x s, b.LiveAt x s → ∃ y t, a.LiveAt y t ∧ t.counter = s.counter
  labelled : ∀ P, a.Labelled P → b.Labelled P

theorem Removes.refl (a : Arena) : Removes 0 a a :=
  ⟨rfl, rfl, fun _ s hs => ⟨s, hs, rfl, rfl⟩, fun x s hs => ⟨x, s, hs, rfl⟩, fun _ h => h⟩

theorem Removes.trans (hab : Removes n a b) (hbc : Removes m b c) : Removes (n + m) a c where
  length_eq := by
    have h₁ := hab.length_eq
    have h₂ := hbc.length_eq
    omega
  pending_eq := hbc.pending_eq.trans hab.pending_eq
  origin x s hs := by
    obtain ⟨t, ht, hsource, hidentity⟩ := hbc.origin x s hs
    obtain ⟨u, hu, hsource', hidentity'⟩ := hab.origin x t ht
    exact ⟨u, hu, hsource'.trans hsource, hidentity'.trans hidentity⟩
  counter x s hs := by
    obtain ⟨y, t, ht, hcounter⟩ := hbc.counter x s hs
    obtain ⟨z, u, hu, hcounter'⟩ := hab.counter y t ht
    exact ⟨z, u, hu, hcounter'.trans hcounter⟩
  labelled P h := hbc.labelled P (hab.labelled P h)

/-! ### Single operations -/

/-- A change to a state that keeps source, display id and transitions removes nothing, if the
counter is one that some state has. -/
theorem removes_modify {f : State → State}
    (hf : ∀ t, (f t).source = t.source ∧ (f t).identity = t.identity)
    (htransitions : ∀ t, (f t).transitions = t.transitions)
    (hcounter : ∀ t, a.LiveAt id t → ∃ y u, a.LiveAt y u ∧ u.counter = (f t).counter) :
    Removes 0 a (a.modify id f) where
  length_eq := rfl
  pending_eq := rfl
  origin x s hs := by
    obtain ⟨t, ht, rfl⟩ := liveAt_modify.1 hs
    refine ⟨t, ht, ?_⟩
    split
    · exact ⟨(hf t).1.symm, (hf t).2.symm⟩
    · exact ⟨rfl, rfl⟩
  counter x s hs := by
    obtain ⟨t, ht, rfl⟩ := liveAt_modify.1 hs
    split
    · rename_i hx
      subst hx
      exact hcounter t ht
    · exact ⟨x, t, ht, rfl⟩
  labelled P h x s hs := by
    obtain ⟨t, ht, rfl⟩ := liveAt_modify.1 hs
    split
    · rw [htransitions]
      exact h x t ht
    · exact h x t ht

theorem Listed.removes_retireNow (h : a.Listed) (hid : a.LiveAt id s) (f : Option StateId) :
    Removes 1 a (a.retireNow id f) where
  length_eq := by
    have hmem : id ∈ a.live := (h.mem_live id).2 ⟨s, hid⟩
    have hfilter : a.live.filter (· ≠ id) = a.live.erase id := by
      rw [h.live_nodup.erase_eq_filter]
      exact List.filter_congr fun x _ => by by_cases hx : x = id <;> simp [hx]
    show (a.live.filter (· ≠ id)).length + 1 = _
    rw [hfilter, List.length_erase_of_mem hmem, Nat.sub_add_cancel (List.length_pos_of_mem hmem)]
  pending_eq := rfl
  origin x t ht := ⟨t, (liveAt_retireNow.1 ht).2, rfl, rfl⟩
  counter x t ht := ⟨x, t, (liveAt_retireNow.1 ht).2, rfl⟩
  labelled P h x t ht := h x t (liveAt_retireNow.1 ht).2

/-- Changing transitions removes nothing, if no label comes up that was not there. -/
theorem Rewires.removes {f : List Transition → List Transition} (h : Rewires f a b)
    (hf : ∀ ts, ∀ t ∈ f ts, ∃ u ∈ ts, u.label = t.label) : Removes 0 a b where
  length_eq := by rw [h.live_eq, Nat.add_zero]
  pending_eq := h.pending_eq
  origin x s hs := by
    obtain ⟨t, ht, rfl⟩ := h.liveAt_iff.1 hs
    exact ⟨t, ht, rfl, rfl⟩
  counter x s hs := by
    obtain ⟨t, ht, rfl⟩ := h.liveAt_iff.1 hs
    exact ⟨x, t, ht, rfl⟩
  labelled P ha x s hs r hr := by
    obtain ⟨t, ht, rfl⟩ := h.liveAt_iff.1 hs
    obtain ⟨u, hu, hlabel⟩ := hf t.transitions r hr
    exact hlabel ▸ ha x t ht u hu

theorem Valid.removes_sweepNow (h : a.Valid) : Removes 0 a a.sweepNow where
  length_eq := by rw [sweepNow_live, Nat.add_zero]
  pending_eq := sweepNow_pending a
  origin x s hs := ⟨s, h.liveAt_sweepNow.1 hs, rfl, rfl⟩
  counter x s hs := ⟨x, s, h.liveAt_sweepNow.1 hs, rfl⟩
  labelled P ha x s hs := ha x s (h.liveAt_sweepNow.1 hs)

theorem Valid.removes_dropSubsumed (h : a.Valid) : Removes 0 a a.dropSubsumed.2 :=
  (h.rewires_mapTransitions Transition.prune).removes fun _ t ht =>
    ⟨t, Transition.prune_subset t ht, rfl⟩

/-- Different live states can all be retired. -/
theorem Valid.removes_retireAll (h : a.Valid) (hids : ids.Nodup)
    (hlive : ∀ x ∈ ids, ∃ s, a.LiveAt x s) :
    ∃ b, a.retireAll ids = .ok b ∧ Removes ids.length a b := by
  induction ids generalizing a with
  | nil => exact ⟨a, rfl, .refl a⟩
  | cons id ids ih =>
    obtain ⟨hid, hnodup⟩ := List.nodup_cons.1 hids
    obtain ⟨s, hs⟩ := hlive id List.mem_cons_self
    obtain ⟨b, hb, hremoves⟩ := ih (h.retireNow_none hs) hnodup fun x hx => by
      obtain ⟨t, ht⟩ := hlive x (List.mem_cons_of_mem id hx)
      exact ⟨t, liveAt_retireNow.2 ⟨fun he => hid (he ▸ hx), ht⟩⟩
    refine ⟨b, ?_, ?_⟩
    · rw [Arena.retireAll, List.foldlM_cons, h.pooled.retire_eq hs (by simp), bind_ok]
      exact hb
    · rw [List.length_cons, Nat.add_comm]
      exact (h.toListed.removes_retireNow hs none).trans hremoves

/-! ### Redirecting -/

/-- A round changes transitions only. -/
theorem Valid.removes_redirectOnce (h : a.Valid) {dead : List StateId}
    (hb : a.redirectOnce spared = .ok (dead, b)) : Removes 0 a b ∧
      ∃ c, b.retireAll dead = .ok c ∧ Removes dead.length b c := by
  obtain ⟨hrewires, hsublist, hdead⟩ := h.redirectOnce_eq hb
  obtain ⟨⟨hvalid, -⟩, -⟩ := h.redirectOnce hb
  refine ⟨hrewires.removes fun ts t ht => ?_,
    hvalid.removes_retireAll (h.live_nodup.sublist hsublist) fun x hx => ?_⟩
  · obtain ⟨u, hu, hut⟩ := List.mem_filterMap.1 ht
    obtain ⟨y, -, rfl⟩ := Option.map_eq_some_iff.1 hut
    exact ⟨u, hu, rfl⟩
  · obtain ⟨-, s, hs, -⟩ := hdead x hx
    exact ⟨s, hs⟩

theorem Valid.removes_redirectRounds (h : a.Valid) (spared : Option StateId) (bound : Nat) :
    ∃ n b, a.redirectRounds spared bound = .ok (n, b) ∧ Removes n a b ∧ b.Valid := by
  induction bound generalizing a with
  | zero => exact ⟨0, a, rfl, .refl a, h⟩
  | succ bound ih =>
    obtain ⟨dead, b, hb, -⟩ := h.redirectable.exists_redirectOnce spared
    obtain ⟨hremoves, c, hc, hremoves'⟩ := h.removes_redirectOnce hb
    obtain ⟨⟨hvalid, -⟩, -⟩ := h.redirectOnce hb
    rw [Arena.redirectRounds, hb]
    dsimp only [bind_ok]
    split
    · exact ⟨0, b, rfl, hremoves, hvalid⟩
    · obtain ⟨n, d, hd, hremoves'', hvalid''⟩ := ih (hvalid.retireAll hc).1
      refine ⟨dead.length + n, d, by rw [hc, bind_ok, hd]; rfl, ?_, hvalid''⟩
      simpa using (hremoves.trans hremoves').trans hremoves''

/-- **Redirecting never fails**, and reports how many live states died. -/
theorem Valid.removes_redirect (h : a.Valid) (spared : Option StateId) :
    ∃ n b, a.redirect spared = .ok (n, b) ∧ Removes n a b := by
  obtain ⟨n, b, hb, hremoves, hvalid⟩ := h.removes_redirectRounds spared (a.live.length + 1)
  refine ⟨n, b.sweepNow, ?_, hremoves.trans hvalid.removes_sweepNow⟩
  rw [Arena.redirect, hb, bind_ok]
  dsimp only
  rw [hvalid.sweep_eq]
  rfl

/-- Redirecting frees all retired states. -/
theorem retired_redirect (hb : a.redirect spared = .ok (n, b)) : b.retired = [] := by
  obtain ⟨⟨m, c⟩, -, hb⟩ := bind_eq_ok.1 hb
  obtain ⟨d, hd, hb⟩ := bind_eq_ok.1 hb
  cases hb
  rw [eq_sweepNow hd, sweepNow_retired]

/-! ### Merging -/

/-- Visiting a live state never fails, and reports whether it is gone. -/
theorem Valid.removes_mergeOne (h : a.Valid) {older : List StateId} (hid : a.LiveAt id s)
    (hold : id ∉ older) (k : Nat) : ∃ gone b, a.mergeOne k id older = .ok (gone, b) ∧
      Removes gone.toNat a b := by
  rw [Arena.mergeOne, hid.state_eq_ok]
  dsimp only [bind_ok]
  split
  · rw [h.pooled.retire_eq hid (by simp)]
    exact ⟨true, _, rfl, h.toListed.removes_retireNow hid none⟩
  · have hpartner : a.partner? k id older = _ := partner?_eq hid.state_eq_ok
    rw [hpartner, bind_ok]
    cases hp : older.find? (a.matchedBy k s) with
    | none => exact ⟨false, a, rfl, .refl a⟩
    | some p =>
      obtain ⟨hmem, t, ht, -⟩ := partner?_eq_some hid.state_eq_ok (hp ▸ hpartner)
      have hne : p ≠ id := fun he => hold (he ▸ hmem)
      have hid' : (a.modify p fun t => t.absorb s).LiveAt id s :=
        liveAt_modify.2 ⟨s, hid, (if_neg hne.symm).symm⟩
      have hp' : (a.modify p fun t => t.absorb s).LiveAt p (t.absorb s) :=
        liveAt_modify.2 ⟨t, ht, (if_pos rfl).symm⟩
      have hlisted : (a.modify p fun t => t.absorb s).Listed := h.toListed.modify fun l hl => by
        rw [State.absorb_transitions]
        exact h.target_some p l hl
      dsimp only
      rw [hlisted.pooled.retire_eq hid' fun y hy => by cases hy; exact ⟨hne, _, hp'⟩]
      refine ⟨true, _, rfl, ?_⟩
      have hmodify : Removes 0 a (a.modify p fun t => t.absorb s) := by
        refine removes_modify (fun t => ?_) (fun t => t.absorb_transitions s) fun t ht => ?_
        · unfold State.absorb
          split
          · exact ⟨rfl, rfl⟩
          · exact ⟨rfl, rfl⟩
        · unfold State.absorb
          split
          · exact ⟨id, s, hid, rfl⟩
          · exact ⟨p, t, ht, rfl⟩
      exact hmodify.trans (hlisted.removes_retireNow hid' (some p))

/-- **Merging never fails**, and reports how many states are gone. -/
theorem Merging.removes_mergeEach {start : Arena} (h : Merging k start (ids, a)) :
    ∃ n b, Arena.mergeEach k ids a = .ok (n, b) ∧ Removes n a b := by
  induction ids generalizing a with
  | nil => exact ⟨0, a, rfl, .refl a⟩
  | cons id older ih =>
    obtain ⟨s, hs⟩ := h.live id List.mem_cons_self
    obtain ⟨gone, b, hb, hremoves⟩ :=
      h.valid.removes_mergeOne hs (List.nodup_cons.1 h.nodup).1 k
    obtain ⟨n, c, hc, hremoves'⟩ := ih (h.step (.visit hb))
    refine ⟨n + gone.toNat, c, ?_, ?_⟩
    · rw [Arena.mergeEach, hb]
      dsimp only [bind_ok]
      rw [hc]
      rfl
    · rw [Nat.add_comm]
      exact hremoves.trans hremoves'

theorem Valid.removes_mergeEach (h : a.Valid) (k : Nat) :
    ∃ n b, Arena.mergeEach k a.live.reverse a = .ok (n, b) ∧ Removes n a b :=
  (h.merging k).removes_mergeEach

/-! ### Classification -/

/-- What is reached from live states is live. -/
theorem Tidy.liveAt_of_reaches (h : a.Tidy) {y : StateId} (hxy : Search.Reaches a.successors x y)
    (hx : a.LiveAt x s) : ∃ t, a.LiveAt y t := by
  induction hxy with
  | refl => exact ⟨s, hx⟩
  | tail _ hyz ih =>
    obtain ⟨t, ht⟩ := ih
    obtain ⟨u, hu, hz⟩ := h.leads_iff.1 ((h.edge_iff ht).1 hyz)
    obtain ⟨r, hr, rfl⟩ := List.mem_map.1 hz
    exact h _ u hu r hr

/-- **The graph of a tidy arena can be decomposed.** -/
theorem Tidy.exists_components (h : a.Tidy) (root : Option StateId) :
    ∃ cs, a.components root = .ok cs := by
  have hroots : ∀ x ∈ (root.filter fun id => a.isLive id).toList, ∃ s, a.LiveAt x s := by
    intro x hx
    rw [Option.mem_toList, Option.filter_eq_some_iff] at hx
    exact isLive_iff.1 hx.2
  refine exists_strongComponents (fun x hx => ?_) fun x hx v hv => ?_
  · obtain ⟨s, hs⟩ := hroots x hx
    exact lt_size_of_slot? hs
  · obtain ⟨s, hs⟩ := hroots x hx
    obtain ⟨t, ht⟩ := h.liveAt_of_reaches hv hs
    refine ⟨_, ht.successors_eq, fun w hw => ?_⟩
    obtain ⟨r, hr, rfl⟩ := List.mem_map.1 hw
    obtain ⟨u, hu⟩ := h v t ht r hr
    exact lt_size_of_slot? hu

/-- The live states that are left were reached. -/
theorem Marking.live_perm {cs : Components} (h : Marking cs a [] b) (ha : a.Valid) :
    b.live.Perm (a.live.filter fun id => (cs.component? id).isSome) := by
  refine (List.perm_ext_iff_of_nodup h.valid.live_nodup (ha.live_nodup.filter _)).2 fun x => ?_
  rw [h.valid.mem_live, List.mem_filter, ha.mem_live]
  constructor
  · rintro ⟨s, hs⟩
    obtain ⟨t, ht, hsome, -⟩ := h.liveAt_end.1 hs
    exact ⟨⟨t, ht⟩, hsome⟩
  · rintro ⟨⟨t, ht⟩, hsome⟩
    exact ⟨_, h.liveAt_end.2 ⟨t, ht, hsome, rfl⟩⟩

theorem Marking.removes {cs : Components} (h : Marking cs a [] b) (ha : a.Valid) :
    Removes (a.live.filter fun id => (cs.component? id).isNone).length a b where
  length_eq := by
    have hsplit := List.length_eq_length_filter_add (l := a.live)
      fun id => (cs.component? id).isSome
    have hnone : (a.live.filter fun id => !(cs.component? id).isSome) =
        a.live.filter fun id => (cs.component? id).isNone :=
      List.filter_congr fun x _ => by simp
    rw [(h.live_perm ha).length_eq, ← hnone]
    exact hsplit.symm
  pending_eq := h.pending_eq
  origin x s hs := by
    obtain ⟨t, ht, -, rfl⟩ := h.liveAt_end.1 hs
    exact ⟨t, ht, rfl, rfl⟩
  counter x s hs := by
    obtain ⟨t, ht, -, rfl⟩ := h.liveAt_end.1 hs
    exact ⟨x, t, ht, rfl⟩
  labelled P hlabelled x s hs := by
    obtain ⟨t, ht, -, rfl⟩ := h.liveAt_end.1 hs
    exact hlabelled x t ht

/-- **All live states can be visited.** -/
theorem Marking.exists_end (htidy : a.Tidy) {cs : Components} {n : Nat} {roots : List Nat}
    (hcs : cs.Decomposes a.successors n roots) {rest : List StateId} (h : Marking cs a rest b) :
    ∃ c, rest.foldlM (classifyOne cs) b = .ok c ∧ Marking cs a [] c := by
  induction rest generalizing b with
  | nil => exact ⟨b, rfl, h⟩
  | cons x rest ih =>
    obtain ⟨c, hc⟩ : ∃ c, classifyOne cs b x = .ok c := by
      obtain ⟨s, -, hs⟩ := h.exists_liveAt
      rw [classifyOne]
      split
      · exact ⟨_, h.valid.pooled.retire_eq hs (by simp)⟩
      · exact ⟨_, rfl⟩
    obtain ⟨d, hd, hmarking⟩ := ih (h.step htidy hcs hc)
    exact ⟨d, by rw [List.foldlM_cons, hc, bind_ok, hd], hmarking⟩

/-- **Classification never fails**, and reports how many states were not reached. -/
theorem Valid.removes_classify (h : a.Valid) (htidy : a.Tidy) (root : Option StateId) :
    ∃ n b, a.classify root = .ok (n, b) ∧ Removes n a b := by
  obtain ⟨cs, hcs⟩ := htidy.exists_components root
  obtain ⟨b, hb, hmarking⟩ :=
    (h.marking cs).exists_end htidy (decomposes_of_strongComponents hcs)
  refine ⟨_, b, ?_, hmarking.removes h⟩
  rw [Arena.classify, hcs, bind_ok, hb]
  rfl

end Arena

end OmegaAutomata
