/-
# What a document tells of an automaton

A transition of a document names its ends by display ids, and display ids are given to the states of
the generalized automaton.  So states with the same display id in a minimized automaton were built
for the same state of the generalized one, with different counters, if that one uses every display
id once and none is negative or zero (`same_source`).  A document tells such states apart by
their counters, but it does not tell to which of them a transition leads.

Such states may be left together as soon as there is an acceptance set.  The automata for "infinitely
often `p`" and for "infinitely often not `p`" then have the same document (`document_ambiguous`).
If there are none, which is always so without acceptance sets, the document determines the
automaton (`document_determines`).
-/

import Mathlib
import OmegaAutomata.Proofs.Automaton.Renaming
import OmegaAutomata.Proofs.Document.Rebuild
import OmegaAutomata.Proofs.Idempotence
import OmegaAutomata.Proofs.Universal

namespace OmegaAutomata

variable {g : Generalized} {options : Options} {b c : Automaton} {stats : BuildStats}
  {x y : StateId} {s t : State} {doc : Document} {log : List Arena.Renaming}

/-! ### Sources -/

/-- **A built state has the display id of its source**, and the initial state its own. -/
theorem build_identity (hg : g.InRange) (h : build g options = .ok (b, stats))
    (hs : b.arena.LiveAt x s) : s.source = none ∧ s.identity = initialIdentity ∨
      ∃ q < g.states.size, s.source = some q ∧ s.identity = g.identity q := by
  obtain ⟨p, hbuilding, hpending, -, -, -, -, n, hn⟩ := build_eq_redirect h
  obtain ⟨m, c, hc, hremoves⟩ := (hbuilding.valid hpending).removes_redirect (some 0)
  cases hn.symm.trans hc
  obtain ⟨u, hu, hsource, hidentity⟩ := hremoves.origin x s hs
  have hnode := hbuilding.registered.identity x _ hu
  have hmem := hbuilding.registered.node_mem hg hu
  rw [← hsource, ← hidentity]
  cases hq : u.source with
  | none =>
    rw [State.node, hq] at hnode
    exact .inl ⟨rfl, hnode⟩
  | some q =>
    rw [State.node, hq] at hnode hmem
    obtain ⟨hlt, -⟩ := Finset.mem_product.1 (Finset.mem_insertNone.1 hmem _ rfl)
    exact .inr ⟨q, Finset.mem_range.1 hlt, rfl, hnode⟩

/-- **Built states with the same display id have the same source**, if display ids are positive and
used once. -/
theorem build_same_source (hg : g.InRange)
    (hdistinct : ∀ q < g.states.size, ∀ r < g.states.size, g.identity q = g.identity r → q = r)
    (hpositive : ∀ q < g.states.size, 0 < g.identity q) (h : build g options = .ok (b, stats))
    (hs : b.arena.LiveAt x s) (ht : b.arena.LiveAt y t) (hst : s.identity = t.identity) :
    x = y ∨ ∃ q, s.source = some q ∧ t.source = some q := by
  rcases build_identity hg h hs with ⟨hnone, hi⟩ | ⟨q, hq, hsome, hi⟩
  · rcases build_identity hg h ht with ⟨hnone', -⟩ | ⟨r, hr, -, hj⟩
    · have hx := (build_rooted h).sourceless x s hs hnone
      exact .inl (Option.some.inj (hx.symm.trans ((build_rooted h).sourceless y t ht hnone')))
    · have hrpos := hpositive r hr
      rw [← hj, ← hst, hi, initialIdentity] at hrpos
      omega
  · rcases build_identity hg h ht with ⟨-, hj⟩ | ⟨r, hr, hsome', hj⟩
    · have hqpos := hpositive q hq
      rw [← hi, hst, hj, initialIdentity] at hqpos
      omega
    · obtain rfl := hdistinct q hq r hr (hi.symm.trans (hst.trans hj))
      exact .inr ⟨q, hsome, hsome'⟩

/-- **So they have after any passes**: a fresh number is shown by one state only, and the other
states show what they showed when they were built. -/
theorem same_source (hg : g.InRange)
    (hdistinct : ∀ q < g.states.size, ∀ r < g.states.size, g.identity q = g.identity r → q = r)
    (hpositive : ∀ q < g.states.size, 0 < g.identity q) (h : build g options = .ok (b, stats))
    (hc : b.Tracked log c) (hs : c.arena.LiveAt x s) (ht : c.arena.LiveAt y t)
    (hst : s.identity = t.identity) : x = y ∨ ∃ q, s.source = some q ∧ t.source = some q := by
  have hfresh := hc.tracks.fresh (build_rooted h).le_last
  by_cases hm : b.lastIdentity < s.identity
  · exact .inl (hfresh.unique x y s t hs ht hm hst)
  · obtain ⟨-, u, hu, hus, hui⟩ := hc.tracks.of_le hs (Int.not_lt.1 hm)
    obtain ⟨-, v, hv, hvs, hvi⟩ := hc.tracks.of_le ht (Int.not_lt.1 (hst ▸ hm))
    rw [← hus, ← hvs]
    exact build_same_source hg hdistinct hpositive h hu hv (hui.trans (hst.trans hvi.symm))

/-! ### Minimized automata -/

/-- **Labels have declared propositions only**, after any passes. -/
theorem labels_declared {κ : Type} [BEq κ] {d : Builder κ} (hd : d.Collected)
    (hg : d.build = .ok g) (hpositive : ∀ q < g.states.size, 0 < g.identity q)
    (h : build g options = .ok (b, stats)) (hc : Automaton.ComesUp b c) :
    c.propositions = g.propositions ∧ c.arena.Labelled (Label.Below g.propositions.size) := by
  obtain ⟨hwf, -⟩ := build_eq_ok h
  obtain ⟨-, -, -, -, -, -, hbuilt, -⟩ := build_eq_redirect h
  -- no state is said to accept every word, as display ids are positive
  have huniversal (q : Nat) (hq : q < g.states.size) : g.identity q ≠ universalIdentity :=
    Int.ne_of_gt (hpositive q hq)
  have hhonest := build_honest (hd.inRange.build hg)
    (fun q hq hzero => absurd hzero (huniversal q hq)) (Builder.below_of_build hg) h
  obtain ⟨hhonest, hpropositions⟩ := hhonest.comesUp (build_rooted h) hwf hc
  exact ⟨hpropositions.trans hbuilt, hhonest.labelled⟩

/-- A minimized automaton comes up after the pass that minimizes what was built. -/
theorem degeneralize_eq_ok (hsimplify : options.simplify = true)
    (h : degeneralize g options = .ok (b, stats)) :
    ∃ a first, build g options = .ok (a, stats) ∧ a.minimize options.refine = .ok (first, b) ∧
      a.runPasses [.minimization options.refine] = .ok b := by
  obtain ⟨⟨a, stats'⟩, ha, h⟩ := bind_eq_ok.1 h
  dsimp only at h
  rw [hsimplify, if_pos rfl] at h
  obtain ⟨⟨first, c⟩, hc, h⟩ := bind_eq_ok.1 h
  cases h
  refine ⟨a, first, ha, hc, Automaton.runPasses_cons.2 ⟨c, ?_, rfl⟩⟩
  rw [Automaton.Pass.run, hc]
  rfl

namespace Automaton

/-- No display id is listed twice if it belongs to one state. -/
theorem WellFormed.nodup_identities (h : b.WellFormed)
    (hids : ∀ x y s t, b.arena.LiveAt x s → b.arena.LiveAt y t → s.identity = t.identity → x = y) :
    b.identities.Nodup := by
  refine List.Nodup.map_on (fun ⟨x, s⟩ hs ⟨y, t⟩ ht heq => ?_) h.nodup_states
  have hs := h.mem_states.1 hs
  have ht := h.mem_states.1 ht
  obtain rfl := hids x y s t hs ht heq
  rw [hs.unique ht]

/-- Without acceptance sets all counters are zero, so states differ in their display ids. -/
theorem Rooted.nodup_identities (hr : b.Rooted) (h : b.WellFormed) (hdistinct : b.arena.Distinct)
    (haccept : b.accept = 0) : b.identities.Nodup := by
  have hzero (x : StateId) (s : State) (hs : b.arena.LiveAt x s) : s.counter = 0 :=
    Nat.le_zero.1 (haccept ▸ hr.counter_le x s hs)
  exact h.nodup_identities fun x y s t hs ht hst =>
    hdistinct x y s t hs ht hst ((hzero x s hs).trans (hzero y t ht).symm)

/-- **State entries differ** in their display ids or counters. -/
theorem WellFormed.nodup_entries (h : b.WellFormed) (hdistinct : b.arena.Distinct)
    (hdoc : Document.ofAutomaton b = .ok doc) :
    (doc.states.map fun e => (e.id, e.counter)).Nodup := by
  cases hdoc.symm.trans h.document_eq
  rw [List.map_map]
  refine List.Nodup.map_on (fun ⟨x, s⟩ hs ⟨y, t⟩ ht heq => ?_) h.nodup_states
  obtain ⟨hi, hc⟩ := Prod.mk.inj heq
  have hs := h.mem_states.1 hs
  have ht := h.mem_states.1 ht
  obtain rfl := hdistinct x y s t hs ht hi hc
  rw [hs.unique ht]

/-- **Transition entries have ends**: some state has the display id of the source, and some state
that of the target. -/
theorem WellFormed.exists_ends (h : b.WellFormed) (hdoc : Document.ofAutomaton b = .ok doc) :
    ∀ e ∈ doc.transitions, (∃ f ∈ doc.states, f.id = e.source) ∧
      ∃ f ∈ doc.states, f.id = e.target := by
  cases hdoc.symm.trans h.document_eq
  intro e he
  obtain ⟨⟨x, s⟩, hs, he⟩ := List.mem_flatMap.1 he
  obtain ⟨t, ht, rfl⟩ := List.mem_map.1 he
  obtain ⟨u, hu⟩ := h.tidy x s (h.mem_states.1 hs) t ht
  exact ⟨⟨_, List.mem_map_of_mem hs, rfl⟩,
    ⟨_, List.mem_map_of_mem (h.mem_states.2 hu), (identityOf_eq hu).symm⟩⟩

end Automaton

/-! ### Documents -/

/-- **What a document determines.**  Let display ids be positive and used once in an automaton that
was collected by a builder.  In the document of the minimized automaton, state entries differ in
their display ids or counters, the ends of transition entries are among them, and states with the
same display id have the same source.

The ends are unique if and only if no two states show the same display id, so this is the case if
there are no acceptance sets, or if no two states have the same source.  Then the states, which begin
with the initial one, their markings and their transitions are rebuilt from the document, and it
accepts the words of the automaton if different propositions have different names. -/
theorem document_determines {κ : Type} [BEq κ] {d : Builder κ} (hd : d.Collected)
    (hg : d.build = .ok g)
    (hdistinct : ∀ q < g.states.size, ∀ r < g.states.size, g.identity q = g.identity r → q = r)
    (hpositive : ∀ q < g.states.size, 0 < g.identity q) (hsimplify : options.simplify = true)
    (h : degeneralize g options = .ok (b, stats)) :
    ∃ doc, Document.ofAutomaton b = .ok doc ∧
      (doc.states.map fun e => (e.id, e.counter)).Nodup ∧
      (∀ e ∈ doc.transitions, (∃ f ∈ doc.states, f.id = e.source) ∧
        ∃ f ∈ doc.states, f.id = e.target) ∧
      (∀ x y s t, b.liveState? x = some s → b.liveState? y = some t → s.identity = t.identity →
        x = y ∨ ∃ q, s.source = some q ∧ t.source = some q) ∧
      (doc.Unambiguous ↔ b.identities.Nodup) ∧
      (g.sets = 0 → doc.Unambiguous) ∧
      ((∀ x y s t, b.liveState? x = some s → b.liveState? y = some t → s.source = t.source →
        x = y) → doc.Unambiguous) ∧
      (doc.Unambiguous → b.initial = b.states.head?.map Prod.fst ∧ doc.rebuild = b.shape ∧
        (g.propositions.toList.Nodup → ∀ w, doc.Accepts g.propositions w ↔ b.Accepts w)) := by
  obtain ⟨a, first, ha, hmin, hrun⟩ := degeneralize_eq_ok hsimplify h
  obtain ⟨hwf, haccept, -⟩ := build_eq_ok ha
  have hinRange := hd.inRange.build hg
  obtain ⟨log, -, htracked, -⟩ := (build_rooted ha).exists_tracked hwf hrun
  obtain ⟨hcomesUp, hrest, -⟩ := (build_rooted ha).atRest_of_minimize hwf hmin
  have hb := htracked.wellFormed
  obtain ⟨doc, hdoc⟩ := hb.exists_document
  have hsource (x y : StateId) (s t : State) (hs : b.arena.LiveAt x s) (ht : b.arena.LiveAt y t)
      (hst : s.identity = t.identity) : x = y ∨ ∃ q, s.source = some q ∧ t.source = some q :=
    same_source hinRange hdistinct hpositive ha htracked hs ht hst
  have hunambiguous : doc.Unambiguous ↔ b.identities.Nodup :=
    hb.unambiguous_iff hdoc fun x s hs => hrest.unmergeable.nonempty x
      (List.mem_reverse.2 ((hb.valid.mem_live x).2 ⟨s, hs⟩)) s hs
  refine ⟨doc, hdoc, hb.nodup_entries hrest.distinct hdoc, hb.exists_ends hdoc,
    fun x y s t hs ht => hsource x y s t (Automaton.liveState?_eq_some.1 hs)
      (Automaton.liveState?_eq_some.1 ht), hunambiguous, fun hsets => ?_, fun hsources => ?_,
    fun hdoc' => ⟨hb.initial_eq, hb.rebuild_eq_shape hdoc (hunambiguous.1 hdoc'),
      fun hnames w => ?_⟩⟩
  · have hzero : b.accept = 0 :=
      ((hwf.comesUp hcomesUp).2.accept_eq.trans haccept).trans hsets
    exact hunambiguous.2 (htracked.rooted.nodup_identities hb hrest.distinct hzero)
  · refine hunambiguous.2 (hb.nodup_identities fun x y s t hs ht hst => ?_)
    refine (hsource x y s t hs ht hst).elim id fun ⟨q, hq, hq'⟩ => ?_
    exact hsources x y s t (Automaton.liveState?_eq_some.2 hs) (Automaton.liveState?_eq_some.2 ht)
      (hq.trans hq'.symm)
  · obtain ⟨hpropositions, hlabels⟩ := labels_declared hd hg hpositive ha hcomesUp
    rw [← hpropositions] at hnames hlabels ⊢
    exact hb.accepts_iff_of_document hdoc (hunambiguous.1 hdoc') hnames hlabels w

/-- The label of a literal. -/
def Literal.label (l : Literal) : Label :=
  if l.positive then
    ⟨.singleton l.proposition, ∅,
      IndexSet.isDisjoint_iff.2 fun x _ => IndexSet.not_mem_empty x⟩
  else
    ⟨∅, .singleton l.proposition,
      IndexSet.isDisjoint_iff.2 fun x hx => absurd hx (IndexSet.not_mem_empty x)⟩

/-- Collects an automaton that waits in a state with two loops, for `p` and for not `p`, which belong
to the sets of `acceptance` and `other`. -/
def Builder.often (acceptance other : IndexSet) : Builder Nat :=
  (((((Builder.empty 1).addProposition "p").2.markInitial 0).addTransition 0 ∅ ∅ ∅ 1)
    |>.addTransition 1 (.singleton 0) ∅ acceptance 1).addTransition 1 ∅ (.singleton 0) other 1

/-- What is collected. -/
def Generalized.often (acceptance other : IndexSet) : Generalized where
  states := #[⟨1, [⟨1, .always, ∅⟩]⟩,
    ⟨2, [⟨1, Literal.label ⟨0, true⟩, acceptance⟩, ⟨1, Literal.label ⟨0, false⟩, other⟩]⟩]
  initial := [0]
  sets := 1
  propositions := #["p"]

/-- The builder collects the automaton, with one display id for each state. -/
theorem Builder.often_collected (acceptance other : IndexSet) :
    (Builder.often acceptance other).Collected :=
  .addTransition 1 ∅ _ other 1 (.addTransition 1 _ ∅ acceptance 1 (.addTransition 0 ∅ ∅ ∅ 1
    (.markInitial 0 (.addProposition "p" (.empty 1)))))

/-- If both loops belong to the acceptance set, one state is left for each source, and the document
determines the minimized automaton. -/
theorem document_determines_often :
    (Builder.often (.singleton 0) (.singleton 0)).Collected ∧
    (Builder.often (.singleton 0) (.singleton 0)).build =
      .ok (.often (.singleton 0) (.singleton 0)) ∧
    (∀ q < 2, ∀ r < 2, (Generalized.often (.singleton 0) (.singleton 0)).identity q =
      (Generalized.often (.singleton 0) (.singleton 0)).identity r → q = r) ∧
    (∀ q < 2, 0 < (Generalized.often (.singleton 0) (.singleton 0)).identity q) ∧
    ∃ b stats doc, degeneralize (.often (.singleton 0) (.singleton 0)) ⟨true, true, true⟩ =
        .ok (b, stats) ∧ b.accept = 1 ∧ b.identities = [-1, 2] ∧
      Document.ofAutomaton b = .ok doc ∧ doc.Unambiguous ∧ doc.rebuild = b.shape ∧
        ∀ w, doc.Accepts #["p"] w ↔ b.Accepts w := by
  have hd := Builder.often_collected (.singleton 0) (.singleton 0)
  have hdeclared : ((Builder.empty 1).addProposition "p").2 =
      (⟨1, #["p"], #[], []⟩ : Builder Nat) := rfl
  have hg : (Builder.often (.singleton 0) (.singleton 0)).build =
      .ok (.often (.singleton 0) (.singleton 0)) := by
    rw [Builder.often, hdeclared]
    cbv
  have hdistinct : ∀ q < 2, ∀ r < 2, (Generalized.often (.singleton 0) (.singleton 0)).identity q =
      (Generalized.often (.singleton 0) (.singleton 0)).identity r → q = r := by decide
  have hpositive : ∀ q < 2, 0 < (Generalized.often (.singleton 0) (.singleton 0)).identity q := by
    decide
  have hrun : (degeneralize (.often (.singleton 0) (.singleton 0)) ⟨true, true, true⟩ >>= fun r =>
      pure (r.1.accept, r.1.identities)) = .ok (1, [-1, 2]) := by cbv
  obtain ⟨⟨b, stats⟩, hb, hrun⟩ := bind_eq_ok.1 hrun
  obtain ⟨haccept, hids⟩ := Prod.mk.inj (Except.ok.inj hrun)
  obtain ⟨doc, hdoc, -, -, -, hiff, -, -, hdetermines⟩ :=
    document_determines hd hg hdistinct hpositive rfl hb
  have hunambiguous : doc.Unambiguous := hiff.2 (by rw [hids]; decide)
  obtain ⟨-, hshape, haccepts⟩ := hdetermines hunambiguous
  exact ⟨hd, hg, hdistinct, hpositive, b, stats, doc, hb, haccept, hids, hdoc, hunambiguous, hshape,
    haccepts (List.nodup_singleton "p")⟩

/-- The document of both automata. -/
def Document.often : Document where
  states := [⟨-1, 0, false, "T0_init"⟩, ⟨2, 0, false, "T0_S2"⟩, ⟨2, 1, true, "accept_S2"⟩]
  transitions := [⟨-1, 2, [], []⟩, ⟨2, 2, [], ["p"]⟩, ⟨2, 2, ["p"], []⟩, ⟨2, 2, [], ["p"]⟩,
    ⟨2, 2, ["p"], []⟩]

/-- The word that repeats one letter. -/
def Lasso.constantly (v : IndexSet) : Lasso :=
  ⟨#[], #[v], Nat.one_pos⟩

/-- The document of the minimized automaton, and whether it accepts a word. -/
def documented (g : Generalized) (options : Options) (w : Lasso) :
    Except Fault (Document × Bool) := do
  let (b, _) ← degeneralize g options
  let doc ← Document.ofAutomaton b
  pure (doc, ← b.acceptsLasso w)

theorem documented_eq_ok {w : Lasso} {r : Bool} (h : documented g options w = .ok (doc, r)) :
    ∃ b stats, degeneralize g options = .ok (b, stats) ∧ Document.ofAutomaton b = .ok doc ∧
      b.acceptsLasso w = .ok r := by
  obtain ⟨⟨b, stats⟩, hb, h⟩ := bind_eq_ok.1 h
  obtain ⟨_, hdoc, h⟩ := bind_eq_ok.1 h
  obtain ⟨_, hr, h⟩ := bind_eq_ok.1 h
  cases h
  exact ⟨b, stats, hb, hdoc, hr⟩

/-- **With an acceptance set, a document may be that of two automata.**  The automaton for
"infinitely often `p`" accepts a word that the one for "infinitely often not `p`" does not, and the
document does not tell to which of two states the transitions lead. -/
theorem document_ambiguous :
    ((Builder.often (.singleton 0) ∅).Collected ∧ (Builder.often ∅ (.singleton 0)).Collected) ∧
    (Builder.often (.singleton 0) ∅).build = .ok (.often (.singleton 0) ∅) ∧
    (Builder.often ∅ (.singleton 0)).build = .ok (.often ∅ (.singleton 0)) ∧
    (∀ g ∈ [Generalized.often (.singleton 0) ∅, .often ∅ (.singleton 0)],
      (∀ q < g.states.size, ∀ r < g.states.size, g.identity q = g.identity r → q = r) ∧
        ∀ q < g.states.size, 0 < g.identity q) ∧
    (∃ e ∈ Document.often.transitions,
      (Document.often.states.countP fun f => f.id = e.source) = 2 ∧
        (Document.often.states.countP fun f => f.id = e.target) = 2) ∧
    ∃ b c stats stats',
      degeneralize (.often (.singleton 0) ∅) ⟨true, true, true⟩ = .ok (b, stats) ∧
        degeneralize (.often ∅ (.singleton 0)) ⟨true, true, true⟩ = .ok (c, stats') ∧
          Document.ofAutomaton b = .ok .often ∧ Document.ofAutomaton c = .ok .often ∧
            b.acceptsLasso (.constantly (.singleton 0)) = .ok true ∧
              c.acceptsLasso (.constantly (.singleton 0)) = .ok false := by
  have hdeclared : ((Builder.empty 1).addProposition "p").2 =
      (⟨1, #["p"], #[], []⟩ : Builder Nat) := rfl
  have hg : (Builder.often (.singleton 0) ∅).build = .ok (.often (.singleton 0) ∅) := by
    rw [Builder.often, hdeclared]
    cbv
  have hg' : (Builder.often ∅ (.singleton 0)).build = .ok (.often ∅ (.singleton 0)) := by
    rw [Builder.often, hdeclared]
    cbv
  obtain ⟨b, stats, hb, hbdoc, hbword⟩ := documented_eq_ok
    (show documented (.often (.singleton 0) ∅) ⟨true, true, true⟩ (.constantly (.singleton 0)) =
      .ok (.often, true) by cbv)
  obtain ⟨c, stats', hc, hcdoc, hcword⟩ := documented_eq_ok
    (show documented (.often ∅ (.singleton 0)) ⟨true, true, true⟩ (.constantly (.singleton 0)) =
      .ok (.often, false) by cbv)
  have htwo : ∃ e ∈ Document.often.transitions,
      (Document.often.states.countP fun f => f.id = e.source) = 2 ∧
        (Document.often.states.countP fun f => f.id = e.target) = 2 :=
    ⟨⟨2, 2, [], ["p"]⟩, by decide, by decide, by decide⟩
  refine ⟨⟨Builder.often_collected _ _, Builder.often_collected _ _⟩, hg, hg', fun g hmem => ?_,
    htwo, b, c, stats, stats', hb, hc, hbdoc, hcdoc, hbword, hcword⟩
  rcases List.mem_pair.1 hmem with rfl | rfl
  · exact ⟨by decide, by decide⟩
  · exact ⟨by decide, by decide⟩

end OmegaAutomata
