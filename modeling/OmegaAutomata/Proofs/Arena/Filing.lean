/-
# States filed under their pairs

The table of an arena has an entry for each state but the initial one: the pair of a source and a
counter that the state was created for.  A state that takes over the counter of another one keeps
its entry, and when it is freed its entry is looked for under its counter of that time.  So a pass
may leave an entry that leads to a state with another counter, or to none.

`Filed` says what is left of an exact table, `Arena.Keyed`: each entry is under the pair that its
state was created for, and every state that was not freed has its entry.  It is exact as long
as each entry leads to a state that still has its counter (`Filed.keyed_iff`).

Much of what passes do changes neither pairs nor the table, or removes both.  `Persists` says of a
property that all of this keeps it; only a counter that is overwritten by a different one,
`Recounts`, is then left to deal with.
-/

import OmegaAutomata.Proofs.Arena.Operations
import OmegaAutomata.Proofs.Arena.Removal

namespace OmegaAutomata

theorem State.source_eq_node (s : State) : s.source = s.node.map Prod.fst := by
  cases h : s.source <;> simp [State.node, h]

theorem State.source_absorb (t s : State) : (t.absorb s).source = t.source := by
  unfold State.absorb
  split
  · rfl
  · rfl

namespace Arena

variable {a b c : Arena} {k n : Nat} {id p x y : StateId} {s t : State} {ids older : List StateId}
  {P : Arena → Prop} {pair : StateId → Node}

/-! ### What an entry says -/

/-- Whether each entry is under the pair that its state was created for, which `pair` tells, and
each state that was not freed still has its entry and its source. -/
structure Filed (pair : StateId → Node) (a : Arena) : Prop where
  entry : ∀ n x, a.keys[n]? = some x → pair x = some n
  allocated : ∀ (n : Nat × Nat) x, a.keys[n]? = some x → x < a.slots.size
  source : ∀ x l, a.slot? x = some l → l.state.source = (pair x).map Prod.fst
  found : ∀ x l n, a.slot? x = some l → pair x = some n → a.keys[n]? = some x

/-- In an exact table each state is filed under the pair that it has. -/
theorem Keyed.filed (h : a.Keyed) : a.Filed a.nodeOf where
  entry n x hn := (h n x).1 hn
  allocated n x hn := by
    obtain ⟨l, hl, -⟩ := nodeOf_eq_some.1 ((h n x).1 hn)
    exact lt_size_of_slot? hl
  source x l hl := by rw [nodeOf_eq hl, State.source_eq_node]
  found x l n _ hn := (h n x).2 hn

/-- **The table is exact** if each entry leads to a state with the counter that it is under. -/
theorem Filed.keyed_iff (h : a.Filed pair) : a.Keyed ↔
    ∀ (n : Nat × Nat) x, a.keys[n]? = some x →
      ∃ l, a.slot? x = some l ∧ l.state.counter = n.2 := by
  constructor
  · intro hkeyed n x hn
    obtain ⟨l, hl, -, hcounter⟩ := nodeOf_eq_some.1 ((hkeyed n x).1 hn)
    exact ⟨l, hl, hcounter⟩
  · intro hentry
    have hpair (n : Nat × Nat) (x : StateId) (hn : a.keys[n]? = some x) : a.nodeOf x = some n := by
      obtain ⟨l, hl, hcounter⟩ := hentry n x hn
      refine nodeOf_eq_some.2 ⟨l, hl, ?_, hcounter⟩
      rw [h.source x l hl, h.entry n x hn, Option.map_some]
    refine fun n x => ⟨hpair n x, fun hn => ?_⟩
    obtain ⟨l, hl, hsource, -⟩ := nodeOf_eq_some.1 hn
    rw [h.source x l hl] at hsource
    obtain ⟨m, hm, -⟩ := Option.map_eq_some_iff.1 hsource
    -- the state is found under some pair, and this can only be the one that it has
    have hmx := h.found x l m hl hm
    have heq := (hpair m x hmx).symm.trans hn
    rwa [Option.some.inj heq] at hmx

/-- What was created and is not there any more was freed. -/
theorem slot_eq_freed (hlt : x < a.slots.size) (hx : a.slot? x = none) :
    a.slot x = .error (.freed x) := by
  unfold slot? at hx
  unfold slot
  rw [Array.getElem?_eq_getElem hlt] at hx ⊢
  rw [show a.slots[x] = none from hx]

/-- **Resolving a pair** finds the state that was created for it, creates one if there is none, and
fails if the state was freed but not its entry. -/
theorem Filed.resolve (h : a.Filed pair) (hretired : ∀ x f s, a.slot? x ≠ some ⟨.retired f, s⟩)
    (q : Nat) (i : Int) (k : Nat) :
    (a.keys[(q, k)]? = none ∧ a.resolve q i k = .ok (a.addPending q i k)) ∨
    (∃ x l, pair x = some (q, k) ∧ a.slot? x = some l ∧ l.state.source = some q ∧
      a.resolve q i k = .ok (x, a)) ∨
    ∃ x, a.keys[(q, k)]? = some x ∧ a.slot? x = none ∧
      a.resolve q i k = .error (.freed x) := by
  unfold Arena.resolve
  cases hkey : a.keys[(q, k)]? with
  | none => exact .inl ⟨rfl, rfl⟩
  | some x =>
    have hpair := h.entry _ x hkey
    cases hx : a.slot? x with
    | none =>
      refine .inr (.inr ⟨x, rfl, hx, ?_⟩)
      dsimp only
      rw [slot_eq_freed (h.allocated _ x hkey) hx]
    | some l =>
      refine .inr (.inl ⟨x, l, hpair, hx, by rw [h.source x l hx, hpair, Option.map_some], ?_⟩)
      dsimp only
      rw [slot_eq_ok.2 hx]
      obtain ⟨stage, s⟩ := l
      cases stage with
      | pending => rfl
      | live => rfl
      | retired f => exact absurd hx (hretired x f s)

/-- **With an exact table** resolving never fails, and gives a state of that source and counter. -/
theorem Keyed.resolve (h : a.Keyed) (hretired : ∀ x f s, a.slot? x ≠ some ⟨.retired f, s⟩)
    (q : Nat) (i : Int) (k : Nat) : ∃ x b l, a.resolve q i k = .ok (x, b) ∧
      b.slot? x = some l ∧ l.state.source = some q ∧ l.state.counter = k := by
  rcases h.filed.resolve hretired q i k with
    ⟨-, hb⟩ | ⟨x, l, hpair, hl, hsource, hb⟩ | ⟨x, hkey, hx, -⟩
  · exact ⟨_, _, _, hb, (slot?_addPending ..).trans (if_pos rfl), rfl, rfl⟩
  · rw [nodeOf_eq hl] at hpair
    exact ⟨x, a, l, hb, hl, hsource, (State.node_eq_some hpair).2⟩
  · have hnode := (h _ x).1 hkey
    rw [nodeOf, hx] at hnode
    contradiction

/-! ### What changes no pair -/

/-- The pair of a state that was not freed; the initial one has none. -/
def node? (a : Arena) (x : StateId) : Option Node :=
  (a.slot? x).map fun l => l.state.node

/-- Whether two arenas have the same table, and states with the same pairs. -/
structure SamePairs (a b : Arena) : Prop where
  keys_eq : b.keys = a.keys
  size_eq : b.slots.size = a.slots.size
  node?_eq : ∀ x, b.node? x = a.node? x

theorem SamePairs.trans (hab : a.SamePairs b) (hbc : b.SamePairs c) : a.SamePairs c where
  keys_eq := hbc.keys_eq.trans hab.keys_eq
  size_eq := hbc.size_eq.trans hab.size_eq
  node?_eq x := (hbc.node?_eq x).trans (hab.node?_eq x)

theorem SamePairs.nodeOf_eq (h : a.SamePairs b) (x : StateId) : b.nodeOf x = a.nodeOf x := by
  have hjoin (c : Arena) : c.nodeOf x = (c.node? x).join := by
    rw [nodeOf, node?, Option.join, Option.bind_map]
    rfl
  rw [hjoin, hjoin, h.node?_eq]

theorem samePairs_modify {f : State → State}
    (hf : ∀ l, a.slot? id = some l → (f l.state).node = l.state.node) :
    a.SamePairs (a.modify id f) := by
  refine ⟨rfl, modify_size a id f, fun x => ?_⟩
  rw [node?, slot?_modify, node?, Option.map_map]
  refine Option.map_congr fun l hl => ?_
  by_cases hx : x = id
  · subst hx
    simp [hf l hl]
  · simp [hx]

theorem samePairs_retireNow (a : Arena) (id : StateId) (f : Option StateId) :
    a.SamePairs (a.retireNow id f) := by
  refine ⟨rfl, retireNow_size a id f, fun x => ?_⟩
  rw [node?, slot?_retireNow, node?, Option.map_map]
  refine Option.map_congr fun l _ => ?_
  simp only [Function.comp_apply, afterRetiring]
  split_ifs <;> rfl

/-- A slot that is replaced by one with the same pair. -/
theorem samePairs_setSlot {l m : Slot} (hl : a.slot? id = some l)
    (hm : m.state.node = l.state.node) (live : List StateId) :
    a.SamePairs { a.setSlot id m with live := live } := by
  refine ⟨rfl, Array.size_setIfInBounds, fun x => ?_⟩
  have hslot : slot? { a.setSlot id m with live := live } x =
      if x = id then some m else a.slot? x := slot?_setIfInBounds (lt_size_of_slot? hl) rfl
  rw [node?, hslot, node?]
  split
  · rename_i hx
    rw [hx, hl, Option.map_some, Option.map_some, hm]
  · rfl

/-- What `retire` does when it does not fail. -/
theorem retire_steps {f : Option StateId} (hb : a.retire id f = .ok b) :
    ∃ l c, a.slot? id = some l ∧
      a.retired.foldlM (reforward id f) (a.withdraw id f l) = .ok c ∧
        { c with retired := c.retired ++ [id] } = b := by
  have hlast (h : (do
      let s ← a.slot id
      if s.stage.isRetired then throw (.alreadyRetired id)
      let c ← a.retired.foldlM (reforward id f) (a.withdraw id f s)
      pure { c with retired := c.retired ++ [id] } : Except Fault Arena) = .ok b) :
      ∃ l c, a.slot? id = some l ∧
        a.retired.foldlM (reforward id f) (a.withdraw id f l) = .ok c ∧
          { c with retired := c.retired ++ [id] } = b := by
    obtain ⟨l, hl, h⟩ := bind_eq_ok.1 h
    split at h
    · contradiction
    · obtain ⟨c, hc, h⟩ := bind_eq_ok.1 h
      exact ⟨l, c, slot_eq_ok.1 hl, hc, Except.ok.inj h⟩
  have hself : f ≠ some id := by
    rintro rfl
    simp [Arena.retire] at hb
  unfold Arena.retire at hb
  dsimp only at hb
  rw [if_neg hself] at hb
  split at hb
  · obtain ⟨l, -, hb⟩ := bind_eq_ok.1 hb
    split at hb
    · contradiction
    · exact hlast hb
  · exact hlast hb

/-- **Retiring a state** leaves all pairs as they are. -/
theorem samePairs_retire {f : Option StateId} (hb : a.retire id f = .ok b) : a.SamePairs b := by
  obtain ⟨l, c, hl, hc, rfl⟩ := retire_steps hb
  have hwithdraw : a.SamePairs (a.withdraw id f l) :=
    samePairs_setSlot (m := l.retire f) hl rfl _
  have hc' : a.SamePairs c := foldlM_induction (P := fun _ => a.SamePairs) hc hwithdraw
    fun x _ d e hd he => by
      obtain ⟨m, hm, he⟩ := bind_eq_ok.1 he
      cases he
      refine hd.trans (samePairs_setSlot (slot_eq_ok.1 hm) ?_ d.live)
      unfold Slot.reforward
      split <;> rfl
  exact ⟨hc'.keys_eq, hc'.size_eq, hc'.node?_eq⟩

/-- Whether a property is about the table and the pairs of states only, and kept by freeing the
retired states. -/
structure Persists (P : Arena → Prop) : Prop where
  congr : ∀ a b, P a → a.SamePairs b → P b
  sweep : ∀ a, P a → P a.sweepNow

/-- **An exact table stays exact** as long as states keep their pairs. -/
theorem persists_keyed : Persists Keyed where
  congr _ _ h hb := h.congr hb.keys_eq hb.nodeOf_eq
  sweep _ h := h.sweepNow

/-- States stay filed when they keep their sources, whatever happens to their counters. -/
theorem Filed.congr (h : a.Filed pair) (hkeys : b.keys = a.keys)
    (hsize : b.slots.size = a.slots.size)
    (hslot : ∀ x l, b.slot? x = some l →
      ∃ m, a.slot? x = some m ∧ m.state.source = l.state.source) : b.Filed pair where
  entry n x hn := h.entry n x (hkeys ▸ hn)
  allocated n x hn := hsize ▸ h.allocated n x (hkeys ▸ hn)
  source x l hl := by
    obtain ⟨m, hm, hsource⟩ := hslot x l hl
    exact hsource.symm.trans (h.source x m hm)
  found x l n hl hn := by
    obtain ⟨m, hm, -⟩ := hslot x l hl
    rw [hkeys]
    exact h.found x m n hm hn

theorem Filed.modify (h : a.Filed pair) {f : State → State}
    (hf : ∀ l, a.slot? id = some l → (f l.state).source = l.state.source) :
    (a.modify id f).Filed pair := by
  refine h.congr rfl (modify_size a id f) fun x l hl => ?_
  rw [slot?_modify, Option.map_eq_some_iff] at hl
  obtain ⟨m, hm, rfl⟩ := hl
  refine ⟨m, hm, ?_⟩
  split
  · rename_i hx
    exact (hf m (hx ▸ hm)).symm
  · rfl

/-- **What is freed takes an entry of its own with it**, or none. -/
theorem keys_forget_eq (a : Arena) (id : StateId) (n : Nat × Nat) :
    (a.forgetNow id).keys[n]? = a.keys[n]? ∨
      a.keys[n]? = some id ∧ (a.forgetNow id).keys[n]? = none := by
  unfold Arena.forgetNow
  cases a.slot? id with
  | none => exact .inl rfl
  | some l =>
    dsimp only [keysWithout]
    cases l.state.source with
    | none => exact .inl rfl
    | some q =>
      dsimp only
      split
      · rename_i hkey
        rw [Std.HashMap.getElem?_erase]
        by_cases hn : (q, l.state.counter) = n
        · exact .inr ⟨hn ▸ hkey, by simp [hn]⟩
        · exact .inl (by simp [hn])
      · exact .inl rfl

theorem Filed.forgetNow (h : a.Filed pair) (id : StateId) : (a.forgetNow id).Filed pair where
  entry n x hn := by
    rcases keys_forget_eq a id n with heq | ⟨-, hnone⟩
    · exact h.entry n x (heq ▸ hn)
    · rw [hnone] at hn
      contradiction
  allocated n x hn := by
    rw [forgetNow_size]
    rcases keys_forget_eq a id n with heq | ⟨-, hnone⟩
    · exact h.allocated n x (heq ▸ hn)
    · rw [hnone] at hn
      contradiction
  source x l hl := by
    rw [slot?_forgetNow] at hl
    split at hl
    · contradiction
    · exact h.source x l hl
  found x l n hl hn := by
    rw [slot?_forgetNow] at hl
    split at hl
    · contradiction
    · rename_i hx
      have hkey := h.found x l n hl hn
      rcases keys_forget_eq a id n with heq | ⟨hid, -⟩
      · rw [heq, hkey]
      · rw [hkey] at hid
        exact absurd (Option.some.inj hid) hx

theorem persists_filed (pair : StateId → Node) : Persists (Filed pair) where
  congr a b h hb := h.congr hb.keys_eq hb.size_eq fun x l hl => by
    have hnode := hb.node?_eq x
    rw [node?, hl, Option.map_some] at hnode
    obtain ⟨m, hm, hmnode⟩ := Option.map_eq_some_iff.1 hnode.symm
    exact ⟨m, hm, by rw [State.source_eq_node, hmnode, ← State.source_eq_node]⟩
  sweep a h := by
    have hfold : (a.retired.foldl Arena.forgetNow a).Filed pair :=
      List.foldlRecOn a.retired _ h fun c hc id _ => hc.forgetNow id
    exact ⟨hfold.entry, hfold.allocated, hfold.source, hfold.found⟩

namespace Persists

theorem modify (hP : Persists P) (ha : P a) {f : State → State}
    (hf : ∀ l, a.slot? id = some l → (f l.state).node = l.state.node) : P (a.modify id f) :=
  hP.congr a _ ha (samePairs_modify hf)

theorem retireNow (hP : Persists P) (ha : P a) (id : StateId) (f : Option StateId) :
    P (a.retireNow id f) :=
  hP.congr a _ ha (samePairs_retireNow a id f)

theorem retire (hP : Persists P) (ha : P a) {f : Option StateId} (hb : a.retire id f = .ok b) :
    P b :=
  hP.congr a b ha (samePairs_retire hb)

theorem retireAll (hP : Persists P) (ha : P a) (hb : a.retireAll ids = .ok b) : P b :=
  foldlM_induction (P := fun _ => P) hb ha fun _ _ _ _ hc hd => hP.retire hc hd

theorem mapTransitions (hP : Persists P) (ha : P a) (f : List Transition → List Transition) :
    P (a.mapTransitions f) :=
  List.foldlRecOn a.live _ ha fun _ hc _ _ => hP.modify hc fun _ _ => rfl

theorem redirect (hP : Persists P) (ha : P a) {spared : Option StateId} {m : Nat}
    (hb : a.redirect spared = .ok (m, b)) : P b :=
  redirect_induction hb ha (fun _ _ _ hc => hP.modify hc fun _ _ => rfl)
    (fun _ _ _ hc hd => hP.retire hc hd) fun c _ hc hd => eq_sweepNow hd ▸ hP.sweep c hc

theorem classify (hP : Persists P) (ha : P a) {root : Option StateId}
    (hb : a.classify root = .ok (n, b)) : P b := by
  obtain ⟨cs, -, hb⟩ := bind_eq_ok.1 hb
  obtain ⟨c, hc, hb⟩ := bind_eq_ok.1 hb
  cases hb
  refine foldlM_induction (P := fun _ => P) hc ha fun x _ d e hd he => ?_
  rw [classifyOne] at he
  split at he
  · exact hP.retire hd he
  · cases he
    exact hP.modify hd fun _ _ => rfl

theorem separateEach (hP : Persists P) (ha : P a) {last last' : Int}
    (hb : Arena.separateEach ids last a = .ok (last', b)) : P b := by
  induction ids generalizing last a with
  | nil =>
    cases hb
    exact ha
  | cons id older ih =>
    rw [Arena.separateEach] at hb
    obtain ⟨s, -, hb⟩ := bind_eq_ok.1 hb
    obtain ⟨states, -, hb⟩ := bind_eq_ok.1 hb
    obtain ⟨⟨next, identity⟩, -, hb⟩ := bind_eq_ok.1 hb
    exact ih (hP.modify (f := fun t => { t with identity }) ha fun _ _ => rfl) hb

end Persists

/-! ### Counters that are overwritten -/

/-- Whether visiting `id`, whose state is `s`, overwrites the counter of `x` by a different one. -/
def Recounts (a : Arena) (k : Nat) (id : StateId) (older : List StateId) (x : StateId)
    (s : State) : Prop :=
  a.Overwrites k id older x ∧ a.LiveAt id s ∧ ∃ t, a.LiveAt x t ∧ t.counter ≠ s.counter

/-- **Visiting a state** keeps what persists, if a counter that is overwritten by a different one
does no harm. -/
theorem Persists.mergeOne (hP : Persists P) (h : a.Valid) (hs : a.LiveAt id s) (ha : P a)
    (hrecount : ∀ x, a.Recounts k id older x s → P (a.modify x fun t => t.absorb s)) {gone : Bool}
    (hb : a.mergeOne k id older = .ok (gone, b)) : P b := by
  rcases h.mergeOne_cases hs hb with
    ⟨-, rfl⟩ | ⟨rfl, -⟩ | ⟨p, t, hne, hpartner, -, hp, -, -, rfl⟩
  · exact hP.retireNow ha id none
  · exact ha
  · refine hP.retireNow ?_ id (some p)
    by_cases hx : t.isFlexible = true ∧ t.counter ≠ s.counter
    · exact hrecount p ⟨⟨s, t, hs, hne, hpartner, hp, hx.1⟩, hs, t, hp, hx.2⟩
    · refine hP.modify ha fun l hl => ?_
      cases hp.symm.trans hl
      cases hflex : t.isFlexible with
      | false => rw [State.absorb_eq_self hflex]
      | true =>
        have hcounter : t.counter = s.counter := not_not.1 fun hne => hx ⟨hflex, hne⟩
        rw [State.node, State.node, State.source_absorb, State.counter_absorb hflex, hcounter]

/-- A pass over the states as well. -/
theorem Persists.mergeEach (hP : Persists P) (h : a.Valid) (ha : P a)
    (hrecount : ∀ id older c x s, Relation.ReflTransGen (MergeStep k) (a.live.reverse, a)
      (id :: older, c) → P c → c.Recounts k id older x s → P (c.modify x fun t => t.absorb s))
    (hb : mergeEach k a.live.reverse a = .ok (n, b)) : P b := by
  have hkept : ∀ q, Relation.ReflTransGen (MergeStep k) (a.live.reverse, a) q → P q.2 := by
    intro q hq
    induction hq with
    | refl => exact ha
    | tail hsteps hstep ih =>
      cases hstep with
      | visit hc =>
        have hmerging := (h.merging k).steps hsteps
        obtain ⟨s, hs⟩ := hmerging.live _ List.mem_cons_self
        exact hP.mergeOne hmerging.valid hs ih
          (fun x hx => hrecount _ _ _ x s hsteps ih hx) hc
  exact hkept _ (mergeSteps_of_mergeEach hb)

/-- Nothing is overwritten by a different counter if there is only one. -/
theorem not_recounts_of_counter_le (h : a.Valid) (hzero : ∀ x s, a.LiveAt x s → s.counter = 0)
    {q : List StateId × Arena}
    (hsteps : Relation.ReflTransGen (MergeStep k) (a.live.reverse, a) q) :
    ¬q.2.Recounts k id older x s := by
  have hkept : ∀ y t, q.2.LiveAt y t → t.counter = 0 := by
    induction hsteps with
    | refl => exact hzero
    | tail hsteps hstep ih =>
      cases hstep with
      | visit hc =>
        have hmerging := (h.merging k).steps hsteps
        obtain ⟨t, ht⟩ := hmerging.live _ List.mem_cons_self
        obtain ⟨gone, c, hc', hremoves⟩ :=
          hmerging.valid.removes_mergeOne ht (List.nodup_cons.1 hmerging.nodup).1 k
        cases hc.symm.trans hc'
        intro y u hu
        obtain ⟨z, v, hv, hcounter⟩ := hremoves.counter y u hu
        rw [← hcounter]
        exact ih z v hv
  rintro ⟨-, hs, t, ht, hne⟩
  exact hne ((hkept x t ht).trans (hkept id s hs).symm)

end Arena

end OmegaAutomata
