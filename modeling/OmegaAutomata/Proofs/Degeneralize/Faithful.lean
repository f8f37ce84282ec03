/-
# What the transitions of states stand for

A state stands for a node if transitions to it lead to where transitions to the
state that was built for the node lead (`Stands`): it may be this state itself, or
its replacement.  The transitions of a state list the edges of its node if they are
edges, and every edge is among them or subsumed by one of them (`Lists`).

`Faithful` says this of all states that were dealt with.  One that was retired without
replacement has a node without edges; if it has a replacement, this lists its edges
and has the same marking.  The state whose transitions are being built is exempt.
-/

import OmegaAutomata.Proofs.Degeneralize.References

namespace OmegaAutomata

namespace Arena

variable {g : Generalized} {a b : Arena} {id x y : StateId} {s t : State} {n : Nat × Nat}
  {ts us : List Transition} {es : List (Label × Nat × Nat)} {current : Option StateId}

/-- Whether transitions to a state lead to where the state leads that was built for a pair. -/
def Stands (a : Arena) (id : StateId) (n : Nat × Nat) : Prop :=
  (a.slot? id).isSome = true ∧ ∃ x, a.keys[n]? = some x ∧ a.destination? id = a.destination? x

/-- Whether the transitions of a list are the given edges, up to subsumed ones. -/
structure Lists (a : Arena) (ts : List Transition) (es : List (Label × Nat × Nat)) : Prop where
  sound : ∀ t ∈ ts, ∃ e ∈ es, e.1 = t.label ∧ a.Stands t.target e.2
  complete : ∀ e ∈ es, ∃ t ∈ ts, e.1.implies t.label = true ∧ a.Stands t.target e.2

theorem Lists.nil (a : Arena) : a.Lists [] [] :=
  ⟨by simp, by simp⟩

theorem Lists.mono (h : a.Lists ts es) (hstands : ∀ x n, a.Stands x n → b.Stands x n) :
    b.Lists ts es where
  sound t ht := by
    obtain ⟨e, he, hlabel, hs⟩ := h.sound t ht
    exact ⟨e, he, hlabel, hstands _ _ hs⟩
  complete e he := by
    obtain ⟨t, ht, hlabel, hs⟩ := h.complete e he
    exact ⟨t, ht, hlabel, hstands _ _ hs⟩

theorem Lists.congr (h : a.Lists ts es) (hmem : ∀ r, r ∈ ts ↔ r ∈ us) : a.Lists us es where
  sound t ht := h.sound t ((hmem t).2 ht)
  complete e he := by
    obtain ⟨t, ht, hs⟩ := h.complete e he
    exact ⟨t, (hmem t).1 ht, hs⟩

/-- **A list that grows** by a transition lists one more edge. -/
theorem Lists.grow (h : a.Lists ts es) {r : Transition} (hr : a.Stands r.target n)
    (onTheFly : Bool) : a.Lists (r.grow onTheFly ts) (es ++ [(r.label, n)]) where
  sound t ht := by
    rcases List.mem_cons.1 (Transition.grow_subset t ht) with rfl | ht
    · exact ⟨(t.label, n), by simp, rfl, hr⟩
    · obtain ⟨e, he, hs⟩ := h.sound t ht
      exact ⟨e, List.mem_append_left _ he, hs⟩
  complete e he := by
    have hold : ∃ t ∈ r :: ts, e.1.implies t.label = true ∧ a.Stands t.target e.2 := by
      rcases List.mem_append.1 he with he | he
      · obtain ⟨t, ht, hs⟩ := h.complete e he
        exact ⟨t, List.mem_cons_of_mem r ht, hs⟩
      · cases List.mem_singleton.1 he
        exact ⟨r, List.mem_cons_self, r.label.implies_refl, hr⟩
    obtain ⟨t, ht, himplies, hs⟩ := hold
    obtain ⟨u, hu, htu⟩ := Transition.exists_mem_grow onTheFly r ts t ht
    obtain ⟨htarget, hlabel⟩ := Transition.subsumedBy_iff.1 htu
    exact ⟨u, hu, Label.implies_trans himplies hlabel, htarget ▸ hs⟩

/-- A node whose edges are listed by no transitions has none. -/
theorem Lists.eq_nil (h : a.Lists [] es) : es = [] := by
  refine List.eq_nil_iff_forall_not_mem.2 fun e he => ?_
  obtain ⟨t, ht, -⟩ := h.complete e he
  exact List.not_mem_nil ht

/-- Whether a state was dealt with that was built for a node. -/
def Settled (g : Generalized) (current : Option StateId) (a : Arena) (x : StateId) (n : Node) :
    Prop :=
  a.destination? x = none ∧ g.edges n = [] ∨
    ∃ y s, a.destination? x = some y ∧ some y ≠ current ∧ a.LiveAt y s ∧
      (s.counter = g.sets ↔ n.counter = g.sets) ∧ a.Lists s.transitions (g.edges n)

/-- Whether every state that is not pending was dealt with, apart from the current one. -/
def Faithful (g : Generalized) (current : Option StateId) (a : Arena) : Prop :=
  ∀ x l, a.slot? x = some l → l.stage ≠ .pending → some x ≠ current →
    Settled g current a x l.state.node

/-! ### Changing one state -/

theorem Stands.modify {f : State → State} (h : a.Stands x n) : (a.modify id f).Stands x n := by
  obtain ⟨hsome, z, hz, hdest⟩ := h
  refine ⟨?_, z, hz, ?_⟩
  · rw [slot?_modify, Option.isSome_map]
    exact hsome
  · rw [destination?_modify, destination?_modify, hdest]

/-- A change to the transitions of the current state, or to the count of any state, concerns no
state that was dealt with. -/
theorem Faithful.modify (h : a.Faithful g current) {f : State → State}
    (hf : ∀ t, (f t).source = t.source ∧ (f t).counter = t.counter)
    (htransitions : some id = current ∨ ∀ t, (f t).transitions = t.transitions) :
    (a.modify id f).Faithful g current := by
  intro x l hl hpending hx
  rw [slot?_modify, Option.map_eq_some_iff] at hl
  obtain ⟨m, hm, rfl⟩ := hl
  have hnode (t : State) : (f t).node = t.node := by
    rw [State.node, State.node, (hf t).1, (hf t).2]
  have hmnode : (if x = id then { m with state := f m.state } else m).state.node =
      m.state.node := by
    split
    · exact hnode m.state
    · rfl
  rw [hmnode]
  have hmpending : m.stage ≠ .pending := by
    split at hpending
    · exact hpending
    · exact hpending
  rcases h x m hm hmpending hx with ⟨hdest, hnil⟩ | ⟨y, s, hdest, hy, hs, hcounter, hlists⟩
  · exact .inl ⟨by rw [destination?_modify, hdest], hnil⟩
  · refine .inr ⟨y, _, by rw [destination?_modify, hdest], hy, liveAt_modify.2 ⟨s, hs, rfl⟩, ?_, ?_⟩
    · split
      · rw [(hf s).2]
        exact hcounter
      · exact hcounter
    · have hlists := hlists.mono (b := a.modify id f) fun _ _ => Stands.modify
      split
      · rename_i hyid
        rcases htransitions with hcurrent | htransitions
        · exact absurd (hyid ▸ hcurrent) hy
        · rw [htransitions]
          exact hlists
      · exact hlists

/-! ### Creating, promoting and retiring states -/

theorem Stands.addPending (h : a.Stands x n) (hreg : a.Registered g) {q c : Nat} {i : Int}
    (hnone : a.keys[(q, c)]? = none) : (a.addPending q i c).2.Stands x n := by
  obtain ⟨hsome, z, hz, hdest⟩ := h
  obtain ⟨l, hl⟩ := Option.isSome_iff_exists.1 hsome
  obtain ⟨m, hm, -⟩ := hreg.node n z hz
  have hsame {y : StateId} {k : Slot} (hk : a.slot? y = some k) :
      (a.addPending q i c).2.destination? y = a.destination? y := by
    rw [destination?, destination?, slot?_addPending_of_some hk, hk]
  refine ⟨by rw [slot?_addPending_of_some hl]; rfl, z, ?_, ?_⟩
  · rw [keys_addPending, if_neg, hz]
    rintro heq
    rw [heq, hz] at hnone
    contradiction
  · rw [hsame hl, hsame hm, hdest]

theorem Faithful.addPending (h : a.Faithful g current) (hreg : a.Registered g) {q c : Nat} {i : Int}
    (hnone : a.keys[(q, c)]? = none) : (a.addPending q i c).2.Faithful g current := by
  intro x l hl hpending hx
  rw [slot?_addPending] at hl
  split at hl
  · cases hl
    exact absurd rfl hpending
  · have hdest : (a.addPending q i c).2.destination? x = a.destination? x := by
      rw [destination?, destination?, slot?_addPending_of_some hl, hl]
    rcases h x l hl hpending hx with ⟨hnone', hnil⟩ | ⟨y, s, hy, hne, hs, hcounter, hlists⟩
    · exact .inl ⟨hdest.trans hnone', hnil⟩
    · exact .inr ⟨y, s, hdest.trans hy, hne, liveAt_addPending.2 hs, hcounter,
        hlists.mono fun _ _ hst => hst.addPending hreg hnone⟩

theorem destination?_promoteNow (hid : a.slot? id = some ⟨.pending, s⟩) (y : StateId) :
    (a.promoteNow id s).destination? y = a.destination? y := by
  rw [destination?, destination?, slot?_promoteNow hid]
  by_cases hy : y = id
  · rw [if_pos hy, hy, hid]
  · rw [if_neg hy]

theorem Stands.promoteNow (h : a.Stands x n) (hid : a.slot? id = some ⟨.pending, s⟩) :
    (a.promoteNow id s).Stands x n := by
  obtain ⟨hsome, z, hz, hdest⟩ := h
  refine ⟨?_, z, hz, ?_⟩
  · rw [slot?_promoteNow hid]
    split
    · rfl
    · exact hsome
  · rw [destination?_promoteNow hid, destination?_promoteNow hid, hdest]

/-- Becoming live concerns no other state than the current one. -/
theorem Faithful.promoteNow (h : a.Faithful g (some id)) (hid : a.slot? id = some ⟨.pending, s⟩) :
    (a.promoteNow id s).Faithful g (some id) := by
  intro x l hl hpending hx
  rw [slot?_promoteNow hid, if_neg (by simpa using hx)] at hl
  rcases h x l hl hpending hx with ⟨hdest, hnil⟩ | ⟨y, u, hdest, hy, hu, hcounter, hlists⟩
  · exact .inl ⟨by rw [destination?_promoteNow hid, hdest], hnil⟩
  · exact .inr ⟨y, u, by rw [destination?_promoteNow hid, hdest], hy,
      (liveAt_promoteNow hid).2 (.inr hu), hcounter, hlists.mono fun _ _ hst => hst.promoteNow hid⟩

/-- A pending state may be taken to become the current one. -/
theorem Faithful.setPending (h : a.Faithful g none) (hid : a.slot? id = some ⟨.pending, s⟩)
    (ids : List StateId) : ({ a with pending := ids } : Arena).Faithful g (some id) := by
  intro x l hl hpending _
  rcases h x l hl hpending (by simp) with hnil | ⟨y, u, hdest, -, hu, hcounter, hlists⟩
  · exact .inl hnil
  · refine .inr ⟨y, u, hdest, ?_, hu, hcounter, hlists.mono fun _ _ hst => hst⟩
    rintro hy
    cases hy
    cases hid.symm.trans hu

/-- **The current state was dealt with** when it is live and lists the edges of its node. -/
theorem Faithful.settle (h : a.Faithful g (some id)) (hid : a.LiveAt id s)
    (hcounter : s.node.counter = s.counter) (hlists : a.Lists s.transitions (g.edges s.node)) :
    a.Faithful g none := by
  intro x l hl hpending _
  by_cases hx : x = id
  · subst hx
    cases hid.symm.trans hl
    exact .inr ⟨x, s, hid.destination?_eq, by simp, hid, by rw [hcounter], hlists⟩
  · rcases h x l hl hpending (by simpa using hx) with hnil | ⟨y, u, hdest, -, hu⟩
    · exact .inl hnil
    · exact .inr ⟨y, u, hdest, by simp, hu⟩

theorem Stands.retireNow (h : a.Stands x n) (hid : a.slot? id = some ⟨.pending, s⟩)
    (f : Option StateId) : (a.retireNow id f).Stands x n := by
  obtain ⟨hsome, z, hz, hdest⟩ := h
  refine ⟨by rw [isSome_retireNow, hsome], z, hz, ?_⟩
  rw [destination?_retireNow hid rfl, destination?_retireNow hid rfl, hdest]

/-- The current state was dealt with when it is retired, if a replacement has its marking and lists
the edges of its node, and if without a replacement there are none. -/
theorem Faithful.retireNow (h : a.Faithful g (some id)) (hid : a.slot? id = some ⟨.pending, s⟩)
    {f : Option StateId}
    (hf : f = none ∧ g.edges s.node = [] ∨ ∃ p t, f = some p ∧ a.LiveAt p t ∧
      (t.counter = g.sets ↔ s.node.counter = g.sets) ∧ a.Lists t.transitions (g.edges s.node)) :
    (a.retireNow id f).Faithful g none := by
  intro x l hl hpending _
  have hmono {ts : List Transition} {es : List (Label × Nat × Nat)} (hts : a.Lists ts es) :
      (a.retireNow id f).Lists ts es := hts.mono fun _ _ hst => hst.retireNow hid f
  have hlive {y : StateId} {t : State} (ht : a.LiveAt y t) : (a.retireNow id f).LiveAt y t := by
    refine liveAt_retireNow.2 ⟨?_, ht⟩
    rintro rfl
    cases hid.symm.trans ht
  have hdest := destination?_retireNow (f := f) hid rfl x
  rw [slot?_retireNow, Option.map_eq_some_iff] at hl
  obtain ⟨m, hm, rfl⟩ := hl
  by_cases hx : x = id
  · subst hx
    cases hid.symm.trans hm
    have hnode : (afterRetiring x f x ⟨.pending, s⟩).state.node = s.node := by
      rw [afterRetiring, if_pos rfl]
      rfl
    rw [hnode]
    rw [destination?_of_not_retired hid rfl, Option.bind_some, if_pos rfl] at hdest
    rcases hf with ⟨rfl, hnil⟩ | ⟨p, t, rfl, ht, hcounter, hlists⟩
    · exact .inl ⟨hdest, hnil⟩
    · exact .inr ⟨p, t, hdest, by simp, hlive ht, hcounter, hmono hlists⟩
  · have hnode : (afterRetiring id f x m).state.node = m.state.node := by
      unfold afterRetiring
      rw [if_neg hx]
      split <;> rfl
    have hmpending : m.stage ≠ .pending := by
      intro hmp
      rw [afterRetiring, if_neg hx, if_neg (by rw [hmp]; simp)] at hpending
      exact hpending hmp
    rw [hnode]
    rcases h x m hm hmpending (by simpa using hx) with
      ⟨hnone, hnil⟩ | ⟨y, t, hy, hne, ht, hcounter, hlists⟩
    · rw [hnone] at hdest
      exact .inl ⟨hdest, hnil⟩
    · rw [hy, Option.bind_some, if_neg (by simpa using hne)] at hdest
      exact .inr ⟨y, t, hdest, by simp, hlive ht, hcounter, hmono hlists⟩

end Arena

end OmegaAutomata
