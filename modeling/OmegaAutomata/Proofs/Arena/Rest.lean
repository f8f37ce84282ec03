/-
# Operations that change nothing

Subsumed transitions are not dropped twice (`dropSubsumed_eq_self`), nothing
is redirected when nothing is retired (`Valid.redirect_eq_self`), and a pass that merges
no state found none to merge (`Merging.mergeEach_eq_zero_iff`).

A classification marks a state according to the cycles through it
(`Tidy.recurrence_marked`).  These do not depend on marks, so classifying twice is
classifying once (`Valid.classify_eq_self`).
-/

import OmegaAutomata.Proofs.Arena.Removal

namespace OmegaAutomata

/-! ### Folds that change nothing -/

theorem foldl_eq_self {α σ : Type} {f : σ → α → σ} {l : List α} {a : σ} (h : ∀ x ∈ l, f a x = a) :
    l.foldl f a = a := by
  induction l with
  | nil => rfl
  | cons x l ih =>
    rw [List.foldl_cons, h x List.mem_cons_self]
    exact ih fun y hy => h y (List.mem_cons_of_mem x hy)

theorem foldlM_eq_self {ε α σ : Type} {f : σ → α → Except ε σ} {l : List α} {a : σ}
    (h : ∀ x ∈ l, f a x = .ok a) : l.foldlM f a = .ok a := by
  induction l with
  | nil => rfl
  | cons x l ih =>
    rw [List.foldlM_cons, h x List.mem_cons_self, bind_ok]
    exact ih fun y hy => h y (List.mem_cons_of_mem x hy)

namespace Arena

variable {a b c : Arena} {k n : Nat} {id x y : StateId} {s t : State} {ids older : List StateId}
  {spared root : Option StateId} {cs : Components}

theorem LiveAt.modify_eq_self (hid : a.LiveAt id s) {f : State → State} (hf : f s = s) :
    a.modify id f = a :=
  Arena.modify_eq_self fun l hl => by
    cases hid.symm.trans hl
    exact hf

/-- Transitions are not changed by what keeps their lists. -/
theorem mapTransitions_eq_self (hlive : ∀ x ∈ a.live, ∃ s, a.LiveAt x s)
    {f : List Transition → List Transition}
    (hf : ∀ x s, a.LiveAt x s → f s.transitions = s.transitions) : a.mapTransitions f = a := by
  refine foldl_eq_self fun x hx => ?_
  obtain ⟨s, hs⟩ := hlive x hx
  exact hs.modify_eq_self (by rw [hf x s hs])

/-- **Nothing is dropped twice.** -/
theorem dropSubsumed_eq_self (hlive : ∀ x ∈ a.live, ∃ s, a.LiveAt x s)
    (hpruned : ∀ x s, a.LiveAt x s → Transition.prune s.transitions = s.transitions) :
    a.dropSubsumed = (0, a) := by
  rw [dropSubsumed, mapTransitions_eq_self hlive hpruned, Nat.sub_self]

/-! ### Redirecting -/

theorem sweep_eq_self (h : a.retired = []) : a.sweep = .ok a := by
  rw [sweep, h, List.foldlM_nil, pure_eq_ok, ← h]

/-- **Nothing is redirected when nothing is retired.** -/
theorem Valid.redirect_eq_self (h : a.Valid) (htidy : a.Tidy) (hretired : a.retired = [])
    (spared : Option StateId) : a.redirect spared = .ok (0, a) := by
  have hforwarded {x : StateId} {s : State} (hs : a.LiveAt x s) :
      s.transitions.filterMap a.forwarded = s.transitions := by
    rw [List.filterMap_congr (g := some) fun t ht => ?_, List.filterMap_some]
    obtain ⟨u, hu⟩ := htidy x s hs t ht
    rw [forwarded, hu.destination?_eq]
    rfl
  have hfollow : (a.live.mapM fun id => do pure (id, ← a.followAll id) : Except Fault _) =
      .ok (a.live.map fun id => (id, a.transitionsOf id)) := by
    refine mapM_eq_ok fun x hx => ?_
    obtain ⟨s, hs⟩ := (h.mem_live x).1 hx
    rw [h.redirectable.followAll_eq hs, hforwarded hs, transitionsOf_eq hs]
    rfl
  have hsame : (a.live.map fun id => (id, a.transitionsOf id)).foldl
      (fun a p => a.setTransitions p.1 p.2) a = a := by
    refine foldl_eq_self fun p hp => ?_
    obtain ⟨x, hx, rfl⟩ := List.mem_map.1 hp
    obtain ⟨s, hs⟩ := (h.mem_live x).1 hx
    exact hs.modify_eq_self (by rw [transitionsOf_eq hs])
  have hdead : (a.live.map fun id => (id, a.transitionsOf id)).filter (fun p => p.2.isEmpty &&
      spared ≠ some p.1 && (a.slot? p.1).any fun s => !s.state.transitions.isEmpty) = [] := by
    refine List.filter_eq_nil_iff.2 fun p hp => ?_
    obtain ⟨x, hx, rfl⟩ := List.mem_map.1 hp
    obtain ⟨s, hs⟩ := (h.mem_live x).1 hx
    rw [transitionsOf_eq hs]
    dsimp only
    rw [hs]
    cases hts : s.transitions with
    | nil => simp [hts]
    | cons t ts => simp
  have hround : a.redirectOnce spared = .ok ([], a) := by
    rw [Arena.redirectOnce, hfollow, bind_ok, hdead, hsame]
    rfl
  rw [Arena.redirect, Arena.redirectRounds, hround]
  dsimp only [bind_ok]
  rw [if_pos (by rfl), pure_eq_ok, bind_ok, sweep_eq_self hretired]
  rfl

/-! ### Merging -/

theorem partner?_eq_none (hid : a.state id = .ok s) : a.partner? k id older = .ok none ↔
    ∀ y ∈ older, ∀ t, a.LiveAt y t → s.matchesIn k t = false := by
  rw [partner?_eq hid, Except.ok.injEq, List.find?_eq_none]
  refine forall₂_congr fun y _ => ?_
  rw [matchedBy_iff]
  simp

/-- Whether no state of a list would be removed by a merging pass: each has transitions, and none
matches one that comes later in the list. -/
structure Unmergeable (k : Nat) (ids : List StateId) (a : Arena) : Prop where
  nonempty : ∀ x ∈ ids, ∀ s, a.LiveAt x s → s.transitions ≠ []
  unmatched : ids.Pairwise fun x y => ∀ s t, a.LiveAt x s → a.LiveAt y t → s.matchesIn k t = false

/-- A visit that removes no state found nothing to do. -/
theorem mergeOne_eq_false (hid : a.LiveAt id s) (hb : a.mergeOne k id older = .ok (false, b)) :
    b = a ∧ s.transitions ≠ [] ∧ a.partner? k id older = .ok none := by
  rw [mergeOne, hid.state_eq_ok] at hb
  dsimp only [bind_ok] at hb
  split at hb
  · obtain ⟨c, -, hb⟩ := bind_eq_ok.1 hb
    cases hb
  · rename_i hne
    obtain ⟨partner, hpartner, hb⟩ := bind_eq_ok.1 hb
    cases partner with
    | none =>
      cases hb
      exact ⟨rfl, fun hnil => hne (by rw [hnil]; rfl), hpartner⟩
    | some p =>
      obtain ⟨c, -, hb⟩ := bind_eq_ok.1 hb
      cases hb

/-- **A merging pass that removes no state** found none to remove, and changed nothing. -/
theorem Merging.mergeEach_eq_zero {start : Arena} (h : Merging k start (ids, a))
    (hb : Arena.mergeEach k ids a = .ok (0, b)) : b = a ∧ Unmergeable k ids a := by
  induction ids generalizing a with
  | nil =>
    cases hb
    exact ⟨rfl, fun _ hx => absurd hx List.not_mem_nil, .nil⟩
  | cons id older ih =>
    obtain ⟨s, hs⟩ := h.live id List.mem_cons_self
    rw [Arena.mergeEach] at hb
    obtain ⟨⟨gone, c⟩, hc, hb⟩ := bind_eq_ok.1 hb
    obtain ⟨⟨n, d⟩, hd, hb⟩ := bind_eq_ok.1 hb
    obtain ⟨hn, rfl⟩ := Prod.mk.inj (Except.ok.inj hb)
    cases gone with
    | true => exact absurd hn (Nat.succ_ne_zero n)
    | false =>
      obtain rfl : n = 0 := hn
      obtain ⟨rfl, hne, hnone⟩ := mergeOne_eq_false hs hc
      obtain ⟨rfl, hold⟩ := ih (h.step (.visit hc)) hd
      refine ⟨rfl, fun x hx t ht => ?_, List.pairwise_cons.2 ⟨fun y hy s' t hs' ht => ?_,
        hold.unmatched⟩⟩
      · rcases List.mem_cons.1 hx with rfl | hx
        · exact hs.unique ht ▸ hne
        · exact hold.nonempty x hx t ht
      · cases hs.unique hs'
        exact (partner?_eq_none hs.state_eq_ok).1 hnone y hy t ht

/-- **Where no state would be removed**, a merging pass changes nothing. -/
theorem Merging.mergeEach_eq_self {start : Arena} (h : Merging k start (ids, a))
    (hids : Unmergeable k ids a) : Arena.mergeEach k ids a = .ok (0, a) := by
  induction ids with
  | nil => rfl
  | cons id older ih =>
    obtain ⟨s, hs⟩ := h.live id List.mem_cons_self
    obtain ⟨hmatch, hold⟩ := List.pairwise_cons.1 hids.unmatched
    have hne : ¬s.transitions.isEmpty = true := fun hnil =>
      hids.nonempty id List.mem_cons_self s hs (List.isEmpty_iff.1 hnil)
    have hone : a.mergeOne k id older = .ok (false, a) := by
      rw [Arena.mergeOne, hs.state_eq_ok, bind_ok, if_neg hne,
        (partner?_eq_none hs.state_eq_ok).2 fun y hy t ht => hmatch y hy s t hs ht]
      rfl
    rw [Arena.mergeEach, hone]
    dsimp only [bind_ok]
    rw [ih (h.step (.visit hone)) ⟨fun x hx => hids.nonempty x (List.mem_cons_of_mem id hx), hold⟩]
    rfl

/-! ### Classification -/

/-- Paths of the graph that is decomposed are paths of the arena. -/
theorem Tidy.leads_of_reaches (h : a.Tidy) (hxy : Search.Reaches a.successors x y)
    (hx : a.LiveAt x s) : Relation.ReflTransGen a.Leads x y := by
  induction hxy with
  | refl => exact .refl
  | tail hxy hyz ih =>
    obtain ⟨t, ht⟩ := h.liveAt_of_reaches hxy hx
    exact ih.tail ((h.edge_iff ht).1 hyz)

/-- **A state that lies on no cycle is alone** in its component, and does not lead to itself. -/
theorem Tidy.alone_of_not_onCycle (h : a.Tidy) {c : Nat} {roots : List Nat}
    (hcs : cs.Decomposes a.successors n roots) (hc : cs.component? x = some c)
    (hx : a.LiveAt x s) (hcycle : ¬a.OnCycle x) :
    cs.sizes[c]? = some 1 ∧ x ∉ s.targets := by
  have hlt : c < cs.sizes.size := hcs.lt_size x c hc
  obtain ⟨-, hcard⟩ := hcs.sizes_eq c cs.sizes[c] (Array.getElem?_eq_getElem hlt)
  have hxn : x < n := by
    by_contra hge
    rw [Components.component?, Array.getElem?_eq_none (hcs.size_eq ▸ Nat.le_of_not_lt hge)] at hc
    contradiction
  -- another state of the component would lie on a cycle with this one
  have hsingle : (Finset.range n).filter (fun v => cs.component? v = some c) = {x} := by
    refine Finset.eq_singleton_iff_unique_mem.2
      ⟨Finset.mem_filter.2 ⟨Finset.mem_range.2 hxn, hc⟩, fun y hy => ?_⟩
    by_contra hne
    obtain ⟨hxy, hyx⟩ := (hcs.eq_iff x y c c hc (Finset.mem_filter.1 hy).2).1 rfl
    obtain ⟨t, ht⟩ := h.liveAt_of_reaches hxy hx
    rcases Relation.reflTransGen_iff_eq_or_transGen.1 (h.leads_of_reaches hxy hx) with he | hpath
    · exact hne he
    · exact hcycle (hpath.trans_left (h.leads_of_reaches hyx ht))
  rw [hsingle, Finset.card_singleton] at hcard
  refine ⟨by rw [Array.getElem?_eq_getElem hlt, hcard], fun hmem => ?_⟩
  exact hcycle (.single (h.leads_iff.2 ⟨s, hx, hmem⟩))

/-- **Marks tell the cycles.**  A state that was not marked as recurrent before is marked as
transient exactly if it lies on no cycle. -/
theorem Tidy.recurrence_marked (h : a.Tidy) {roots : List Nat}
    (hcs : cs.Decomposes a.successors n roots) (hx : a.LiveAt x s)
    (hsome : (cs.component? x).isSome = true) :
    (marked cs x s).recurrence = .recurrent ∧ (s.recurrence = .recurrent ∨ a.OnCycle x) ∨
      (marked cs x s).recurrence = .transient ∧ s.recurrence ≠ .recurrent ∧ ¬a.OnCycle x := by
  obtain ⟨c, hc⟩ := Option.isSome_iff_exists.1 hsome
  by_cases hrec : s.recurrence = .recurrent
  · refine .inl ⟨?_, .inl hrec⟩
    rw [marked_eq hc]
    exact if_pos hrec
  · by_cases hcycle : a.OnCycle x
    · refine .inl ⟨?_, .inr hcycle⟩
      have hrigid := mt (h.not_onCycle_of_marked hcs hx hsome) (not_not.2 hcycle)
      rw [marked_eq hc, State.isFlexible, beq_iff_eq] at hrigid
      rw [marked_eq hc]
      unfold recurrenceIn at hrigid ⊢
      rw [if_neg hrec] at hrigid ⊢
      split at hrigid
      · exact absurd rfl hrigid
      · exact if_neg ‹_›
    · refine .inr ⟨?_, hrec, hcycle⟩
      obtain ⟨hsize, hself⟩ := h.alone_of_not_onCycle hcs hc hx hcycle
      rw [marked_eq hc]
      unfold recurrenceIn
      rw [if_neg hrec, if_pos]
      simp [hsize, hself]

/-- Whether the root reaches every live state. -/
def Reached (root : Option StateId) (a : Arena) : Prop :=
  ∀ x s, a.LiveAt x s → ∃ i t, root = some i ∧ a.LiveAt i t ∧ Relation.ReflTransGen a.Leads i x

/-- A state that the root reaches is in some component. -/
theorem Reached.isSome (h : a.Reached root) (htidy : a.Tidy) (hcs : a.components root = .ok cs)
    (hs : a.LiveAt x s) : (cs.component? x).isSome = true := by
  obtain ⟨i, t, rfl, ht, hix⟩ := h x s hs
  refine ((decomposes_of_strongComponents hcs).isSome_iff x).2
    ⟨i, ?_, htidy.reaches_of_leads hix⟩
  rw [Option.mem_toList, Option.filter_eq_some_iff]
  exact ⟨rfl, isLive_iff.2 ⟨t, ht⟩⟩

/-- **A classification removes nothing** where the root reaches every live state. -/
theorem Reached.eq_zero_of_classify (h : a.Reached root) (hvalid : a.Valid) (htidy : a.Tidy)
    {n : Nat} (hb : a.classify root = .ok (n, b)) : n = 0 := by
  obtain ⟨cs, hcs, hb⟩ := bind_eq_ok.1 hb
  obtain ⟨c, -, hb⟩ := bind_eq_ok.1 hb
  cases hb
  refine List.length_eq_zero_iff.2 (List.filter_eq_nil_iff.2 fun x hx => ?_)
  obtain ⟨s, hs⟩ := (hvalid.mem_live x).1 hx
  have hsome := h.isSome htidy hcs hs
  rw [Components.component?] at hsome
  simp [Option.isSome_iff_ne_none.1 hsome]

/-- Whether a classification would change nothing: every live state is reached from the root, and is
marked according to the cycles through it, or as recurrent. -/
structure Classified (root : Option StateId) (a : Arena) : Prop where
  reached : ∀ x s, a.LiveAt x s → ∃ i t, root = some i ∧ a.LiveAt i t ∧
    Relation.ReflTransGen a.Leads i x
  marked : ∀ x s, a.LiveAt x s → s.recurrence = .recurrent ∨
    s.recurrence = .transient ∧ ¬a.OnCycle x

/-- **Where everything is classified**, another classification changes nothing. -/
theorem Classified.classify_eq_self (h : a.Classified root) (hvalid : a.Valid) (htidy : a.Tidy) :
    a.classify root = .ok (0, a) := by
  obtain ⟨cs, hcs⟩ := htidy.exists_components root
  have hdec := decomposes_of_strongComponents hcs
  have hsome (x : StateId) (s : State) (hs : a.LiveAt x s) : (cs.component? x).isSome = true :=
    Reached.isSome h.reached htidy hcs hs
  have hmarked (x : StateId) (s : State) (hs : a.LiveAt x s) : Arena.marked cs x s = s := by
    have hrec : (Arena.marked cs x s).recurrence = s.recurrence := by
      rcases htidy.recurrence_marked hdec hs (hsome x s hs) with ⟨hm, hold⟩ | ⟨hm, hne, -⟩
      · rcases h.marked x s hs with hr | ⟨hr, hcycle⟩
        · rw [hm, hr]
        · rcases hold with hr' | hcycle'
          · rw [hm, hr']
          · exact absurd hcycle' hcycle
      · rw [hm, ((h.marked x s hs).resolve_left hne).1]
    calc
      Arena.marked cs x s = { s with recurrence := (Arena.marked cs x s).recurrence } := rfl
      _ = s := by rw [hrec]
  have hfold : a.live.foldlM (classifyOne cs) a = .ok a := by
    refine foldlM_eq_self fun x hx => ?_
    obtain ⟨s, hs⟩ := (hvalid.mem_live x).1 hx
    obtain ⟨c, hc⟩ := Option.isSome_iff_exists.1 (hsome x s hs)
    rw [classifyOne, show (cs.component[x]?).join = some c from hc]
    refine congrArg Except.ok (hs.modify_eq_self ?_)
    rw [← marked_eq hc, hmarked x s hs]
  have hnone : (a.live.filter fun id => ((cs.component[id]?).join).isNone) = [] := by
    refine List.filter_eq_nil_iff.2 fun x hx => ?_
    obtain ⟨s, hs⟩ := (hvalid.mem_live x).1 hx
    obtain ⟨c, hc⟩ := Option.isSome_iff_exists.1 (hsome x s hs)
    rw [show (cs.component[x]?).join = some c from hc]
    exact Bool.false_ne_true
  rw [Arena.classify, hcs, bind_ok, hfold, hnone]
  rfl

/-- **A classification that removes no state** leaves everything classified, and changes marks
only. -/
theorem Valid.classified_of_classify (h : a.Valid) (htidy : a.Tidy)
    (hb : a.classify root = .ok (0, b)) : b.Classified root ∧
      ∀ x s, b.LiveAt x s → ∃ r, a.LiveAt x { s with recurrence := r } := by
  rw [Arena.classify] at hb
  obtain ⟨cs, hcs, hb⟩ := bind_eq_ok.1 hb
  obtain ⟨c, hc, hb⟩ := bind_eq_ok.1 hb
  obtain ⟨hnone, rfl⟩ := Prod.mk.inj (Except.ok.inj hb)
  have hdec := decomposes_of_strongComponents hcs
  have hmarking : Marking cs a [] c := foldlM_induction (P := Marking cs a) hc (h.marking cs)
    fun x rest b c hstep hbc => hstep.step htidy hdec hbc
  have hctidy := hmarking.tidy htidy hdec
  -- all states were reached, so the graph is the one before
  have hsome (x : StateId) (s : State) (hs : a.LiveAt x s) : (cs.component? x).isSome = true := by
    have hx := List.filter_eq_nil_iff.1 (List.eq_nil_of_length_eq_zero hnone) x
      ((h.mem_live x).2 ⟨s, hs⟩)
    rw [Option.isNone_iff_eq_none, ← ne_eq, Option.ne_none_iff_isSome] at hx
    exact hx
  have hlive (x : StateId) (s : State) (hs : a.LiveAt x s) : c.LiveAt x (marked cs x s) :=
    hmarking.liveAt_end.2 ⟨s, hs, hsome x s hs, rfl⟩
  have hleads (x y : StateId) (hxy : a.Leads x y) : c.Leads x y := by
    obtain ⟨s, hs, hy⟩ := htidy.leads_iff.1 hxy
    exact hctidy.leads_iff.2 ⟨_, hlive x s hs, hy⟩
  refine ⟨⟨fun x s hs => ?_, fun x s hs => ?_⟩, fun x s hs => ?_⟩
  · obtain ⟨t, ht, hx, -⟩ := hmarking.liveAt_end.1 hs
    obtain ⟨i, hi, hix⟩ := (hdec.isSome_iff x).1 hx
    rw [Option.mem_toList, Option.filter_eq_some_iff] at hi
    obtain ⟨u, hu⟩ := isLive_iff.1 hi.2
    exact ⟨i, _, hi.1, hlive i u hu,
      Relation.ReflTransGen.mono hleads _ _ (htidy.leads_of_reaches hix hu)⟩
  · obtain ⟨t, ht, hx, rfl⟩ := hmarking.liveAt_end.1 hs
    refine (htidy.recurrence_marked hdec ht hx).imp And.left fun hm => ⟨hm.1, fun hcycle => ?_⟩
    exact hm.2.2 (hcycle.mono hmarking.leads)
  · obtain ⟨t, ht, -, rfl⟩ := hmarking.liveAt_end.1 hs
    exact ⟨t.recurrence, ht⟩

/-- Freeing the retired states changes nothing about it. -/
theorem Classified.sweepNow (h : a.Classified root) (hvalid : a.Valid) (htidy : a.Tidy) :
    a.sweepNow.Classified root := by
  have hleads : a.sweepNow.Leads = a.Leads := by
    rw [← edge_system _ 0, ← edge_system _ 0, hvalid.system_sweepNow htidy]
  refine ⟨fun x s hs => ?_, fun x s hs => ?_⟩
  · obtain ⟨i, t, hi, ht, hix⟩ := h.reached x s (hvalid.liveAt_sweepNow.1 hs)
    exact ⟨i, t, hi, hvalid.liveAt_sweepNow.2 ht, hleads ▸ hix⟩
  · rw [OnCycle, hleads]
    exact h.marked x s (hvalid.liveAt_sweepNow.1 hs)

end Arena

end OmegaAutomata
