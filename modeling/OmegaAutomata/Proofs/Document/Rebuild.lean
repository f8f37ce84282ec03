/-
# Automata from their documents

In a document a transition names the states at its ends by their display ids.  `rebuild` reads
an automaton back: for each state its marking and its transitions, where the target is the position
of the first state with its display id.  `Automaton.shape` is what the automaton itself has there,
so it is the automaton up to the ids of its states.

A document is unambiguous if each of its transitions has one state at each end.  When every state
has a transition, this means that no two states show the same display id (`unambiguous_iff`), and
then the automaton is rebuilt as it was (`rebuild_eq_shape`).

What is rebuilt accepts words by itself, as the propositions are known by their names.  It accepts
the words of the automaton, if different propositions have different names
(`accepts_iff_of_document`).
-/

import Mathlib.Data.List.Nodup
import OmegaAutomata.Proofs.Automaton.Answers
import OmegaAutomata.Proofs.Generalized.Collected

namespace OmegaAutomata

namespace Document

/-- A state without ids: its marking, and for each of its transitions the propositions that must
hold, those that must not, and the position of the target. -/
structure Vertex where
  accepting : Bool
  transitions : List (List String × List String × Nat)
deriving DecidableEq, Repr

/-- The states that a document describes, in order. -/
def rebuild (doc : Document) : List Vertex :=
  doc.states.map fun e => ⟨e.accepting,
    (doc.transitions.filter fun t => t.source = e.id).map fun t =>
      (t.pos, t.neg, doc.states.findIdx fun f => f.id = t.target)⟩

/-- Whether each transition has one state with the display id of its source, and one with that of
its target. -/
def Unambiguous (doc : Document) : Prop :=
  ∀ t ∈ doc.transitions, (doc.states.countP fun e => e.id = t.source) = 1 ∧
    (doc.states.countP fun e => e.id = t.target) = 1

/-- Whether the proposition of a name is true in a letter. -/
def Holds (names : Array String) (v : IndexSet) (name : String) : Prop :=
  ∃ i ∈ v, names[i]? = some name

/-- The steps between positions, and the positions of accepting states. -/
def system (names : Array String) (vs : List Vertex) : System Nat where
  step v i j := ∃ n, vs[i]? = some n ∧ ∃ pos neg, (pos, neg, j) ∈ n.transitions ∧
    (∀ p ∈ pos, Holds names v p) ∧ ∀ p ∈ neg, ¬Holds names v p
  accepting i := ∃ n, vs[i]? = some n ∧ n.accepting = true

/-- Whether a word is accepted by what is rebuilt, of which the first state is initial. -/
def Accepts (names : Array String) (doc : Document) (w : Word) : Prop :=
  (system names doc.rebuild).AcceptsFrom 0 w

end Document

namespace Automaton

open Document (Vertex)

variable {b : Automaton} {x y : StateId} {s t : State} {doc : Document} {v : IndexSet} {i j : Nat}

/-- The names of the propositions of a set. -/
def names (b : Automaton) (x : IndexSet) : List String :=
  x.toList.map (propositionName b.propositions)

/-- The states of an automaton without their ids, in order. -/
def shape (b : Automaton) : List Vertex :=
  b.states.map fun p => ⟨b.isAccepting p.2, p.2.transitions.map fun t =>
    (b.names t.label.pos, b.names t.label.neg, b.states.findIdx fun q => q.1 = t.target)⟩

/-- The display id of a live state. -/
def identityOf (b : Automaton) (x : StateId) : Int :=
  (b.liveState? x).elim 0 State.identity

/-- The entry of a transition whose target is live. -/
def entryOf (b : Automaton) (s : State) (t : Transition) : Document.TransitionEntry :=
  ⟨s.identity, b.identityOf t.target, b.names t.label.pos, b.names t.label.neg⟩

/-! ### Entries -/

theorem identityOf_eq (h : b.arena.LiveAt x s) : b.identityOf x = s.identity := by
  rw [identityOf, liveState?_eq_some.2 h]
  rfl

/-- **What a document lists**: an entry for every state, and one for every transition. -/
theorem WellFormed.document_eq (h : b.WellFormed) : Document.ofAutomaton b =
    .ok ⟨b.states.map fun p => Document.stateEntry b p.2,
      b.states.flatMap fun p => p.2.transitions.map (b.entryOf p.2)⟩ := by
  have hentries : (b.states.map Prod.snd).mapM
      (fun s => s.transitions.mapM (Document.transitionEntry b s)) =
        .ok ((b.states.map Prod.snd).map fun s => s.transitions.map (b.entryOf s)) := by
    refine mapM_eq_ok fun s hs => mapM_eq_ok fun t ht => ?_
    obtain ⟨⟨x, _⟩, hx, rfl⟩ := List.mem_map.1 hs
    obtain ⟨u, hu⟩ := h.tidy x _ (h.liveAt_of_mem_states hx) t ht
    rw [Document.transitionEntry, state_eq_ok (liveState?_eq_some.2 hu), entryOf,
      identityOf_eq hu]
    rfl
  rw [Document.ofAutomaton, hentries, bind_ok, pure_eq_ok, List.map_map, List.map_map,
    ← List.flatMap_def]
  rfl

/-- The display ids of the states. -/
def identities (b : Automaton) : List Int :=
  b.states.map fun p => p.2.identity

theorem countP_entries (b : Automaton) (i : Int) :
    ((b.states.map fun p => Document.stateEntry b p.2).countP fun e => e.id = i) =
      b.identities.count i := by
  rw [List.countP_map, identities, List.count_eq_countP, List.countP_map]
  rfl

/-- Live states with the same display id are the same if no display id is listed twice. -/
theorem WellFormed.eq_of_identity (h : b.WellFormed) (hids : b.identities.Nodup)
    (hs : b.arena.LiveAt x s) (ht : b.arena.LiveAt y t) (heq : s.identity = t.identity) : x = y :=
  congrArg Prod.fst (List.inj_on_of_nodup_map hids (h.mem_states.2 hs) (h.mem_states.2 ht) heq)

/-- **A document is unambiguous** exactly if no two states show the same display id, when every
state has a transition. -/
theorem WellFormed.unambiguous_iff (h : b.WellFormed) (hdoc : Document.ofAutomaton b = .ok doc)
    (hne : ∀ x s, b.arena.LiveAt x s → s.transitions ≠ []) :
    doc.Unambiguous ↔ b.identities.Nodup := by
  cases hdoc.symm.trans h.document_eq
  simp only [Document.Unambiguous, countP_entries]
  constructor
  · refine fun hdoc => List.nodup_iff_count_le_one.2 fun i => ?_
    by_cases hi : i ∈ b.identities
    · obtain ⟨⟨x, s⟩, hs, rfl⟩ := List.mem_map.1 hi
      obtain ⟨t, ht⟩ := List.exists_mem_of_ne_nil _ (hne x s (h.mem_states.1 hs))
      have hone := (hdoc (b.entryOf s t)
        (List.mem_flatMap.2 ⟨_, hs, List.mem_map_of_mem ht⟩)).1
      exact Nat.le_of_eq hone
    · rw [List.count_eq_zero.2 hi]
      exact Nat.zero_le 1
  · intro hids e he
    obtain ⟨⟨x, s⟩, hs, he⟩ := List.mem_flatMap.1 he
    obtain ⟨t, ht, rfl⟩ := List.mem_map.1 he
    obtain ⟨u, hu⟩ := h.tidy x s (h.mem_states.1 hs) t ht
    refine ⟨List.count_eq_one_of_mem hids (List.mem_map_of_mem (f := fun p => p.2.identity) hs),
      List.count_eq_one_of_mem hids ?_⟩
    show b.identityOf t.target ∈ _
    rw [identityOf_eq hu]
    exact List.mem_map_of_mem (f := fun p => p.2.identity) (h.mem_states.2 hu)

/-! ### Rebuilding -/

/-- Of the transitions of all states, those with the display id of one state are its own. -/
theorem filter_entries {ps : List (StateId × State)} {p : StateId × State}
    (hids : (ps.map fun p => p.2.identity).Nodup) (hp : p ∈ ps) :
    (ps.flatMap fun q => q.2.transitions.map (b.entryOf q.2)).filter
      (fun t => t.source = p.2.identity) = p.2.transitions.map (b.entryOf p.2) := by
  have hother (q : StateId × State) (hq : q.2.identity ≠ p.2.identity) :
      (q.2.transitions.map (b.entryOf q.2)).filter (fun t => t.source = p.2.identity) = [] := by
    refine List.filter_eq_nil_iff.2 fun e he => ?_
    obtain ⟨t, -, rfl⟩ := List.mem_map.1 he
    simp [entryOf, hq]
  have hown : (p.2.transitions.map (b.entryOf p.2)).filter (fun t => t.source = p.2.identity) =
      p.2.transitions.map (b.entryOf p.2) := by
    refine List.filter_eq_self.2 fun e he => ?_
    obtain ⟨t, -, rfl⟩ := List.mem_map.1 he
    simp [entryOf]
  induction ps with
  | nil => exact absurd hp List.not_mem_nil
  | cons q ps ih =>
    rw [List.map_cons, List.nodup_cons] at hids
    rw [List.flatMap_cons, List.filter_append]
    rcases List.mem_cons.1 hp with rfl | hp
    · rw [hown, List.filter_flatMap, List.append_right_eq_self]
      refine List.flatMap_eq_nil_iff.2 fun q hq => hother q fun heq => hids.1 ?_
      exact List.mem_map.2 ⟨q, hq, heq⟩
    · rw [hother q fun heq => hids.1 (List.mem_map.2 ⟨p, hp, heq.symm⟩), List.nil_append]
      exact ih hids.2 hp

theorem findIdx_congr {α : Type} {l : List α} {p q : α → Bool} (h : ∀ x ∈ l, p x = q x) :
    l.findIdx p = l.findIdx q := by
  induction l with
  | nil => rfl
  | cons x l ih =>
    rw [List.findIdx_cons, List.findIdx_cons, h x List.mem_cons_self,
      ih fun y hy => h y (List.mem_cons_of_mem x hy)]

/-- **Rebuilding gives back the automaton** up to the ids of its states. -/
theorem WellFormed.rebuild_eq_shape (h : b.WellFormed) (hdoc : Document.ofAutomaton b = .ok doc)
    (hids : b.identities.Nodup) : doc.rebuild = b.shape := by
  cases hdoc.symm.trans h.document_eq
  rw [Document.rebuild, shape, List.map_map]
  refine List.map_congr_left fun p hp => ?_
  have hp' : b.arena.LiveAt p.1 p.2 := h.mem_states.1 hp
  show Vertex.mk _ ((List.filter (fun t : Document.TransitionEntry => t.source = p.2.identity) _).map
    _) = _
  rw [filter_entries hids hp, List.map_map]
  refine congrArg (Vertex.mk _) (List.map_congr_left fun t ht => ?_)
  obtain ⟨u, hu⟩ := h.tidy p.1 p.2 hp' t ht
  -- the first state with the display id of the target is the target
  have hposition : (b.states.map fun p => Document.stateEntry b p.2).findIdx
      (fun f => f.id = b.identityOf t.target) = b.states.findIdx fun q => q.1 = t.target := by
    rw [List.findIdx_map]
    refine findIdx_congr fun ⟨y, v⟩ hv => ?_
    have hv := h.mem_states.1 hv
    have hiff : v.identity = u.identity ↔ y = t.target := by
      refine ⟨h.eq_of_identity hids hv hu, ?_⟩
      rintro rfl
      rw [hv.unique hu]
    show decide (v.identity = b.identityOf t.target) = decide (y = t.target)
    rw [identityOf_eq hu, decide_eq_decide, hiff]
  exact congrArg (fun n => (_, _, n)) hposition

/-! ### Words -/

/-- A name is true if its proposition is, when different propositions have different names. -/
theorem holds_propositionName {names : Array String} (hnames : names.toList.Nodup) {p : Nat}
    (hp : p < names.size) : Document.Holds names v (propositionName names p) ↔ p ∈ v := by
  rw [propositionName, Array.getElem?_eq_getElem hp, Option.getD_some, Document.Holds]
  constructor
  · rintro ⟨q, hq, hname⟩
    obtain ⟨hlt, heq⟩ := Array.getElem?_eq_some_iff.1 hname
    have hsame : names.toList[q] = names.toList[p] := heq
    rwa [← (List.getElem_inj hnames).1 hsame]
  · exact fun hp' => ⟨p, hp', Array.getElem?_eq_getElem hp⟩

/-- So the names of a label hold where the label does. -/
theorem holds_names_iff (hnames : b.propositions.toList.Nodup) {l : Label}
    (hl : l.Below b.propositions.size) :
    ((∀ n ∈ b.names l.pos, Document.Holds b.propositions v n) ∧
      ∀ n ∈ b.names l.neg, ¬Document.Holds b.propositions v n) ↔ l.holds v = true := by
  rw [Label.holds_iff]
  simp only [names, List.forall_mem_map, IndexSet.mem_toList]
  refine and_congr (forall₂_congr fun p hp => ?_) (forall₂_congr fun p hp => not_congr ?_)
  · exact holds_propositionName hnames (hl p (.inl hp))
  · exact holds_propositionName hnames (hl p (.inr hp))

/-- A live state is found at its position. -/
theorem WellFormed.getElem?_position (h : b.WellFormed) (hs : b.arena.LiveAt x s) :
    b.states[b.states.findIdx fun q => q.1 = x]? = some (x, s) := by
  have hlt : (b.states.findIdx fun q => q.1 = x) < b.states.length :=
    List.findIdx_lt_length_of_exists ⟨_, h.mem_states.2 hs, by simp⟩
  have hx := List.findIdx_getElem (w := hlt)
  rw [decide_eq_true_eq] at hx
  rw [List.getElem?_eq_getElem hlt, Option.some.injEq]
  generalize hp : b.states[b.states.findIdx fun q => q.1 = x] = p at hx
  have hmem := h.mem_states.1 (hp ▸ List.getElem_mem hlt : (p.1, p.2) ∈ b.states)
  exact Prod.ext hx ((hx ▸ hmem).unique hs)

/-- Steps of the shape are those of the automaton. -/
theorem WellFormed.step_shape (h : b.WellFormed) (hnames : b.propositions.toList.Nodup)
    (hlabels : b.arena.Labelled (Label.Below b.propositions.size))
    (hi : b.states[i]? = some (x, s)) :
    (Document.system b.propositions b.shape).step v i j ↔
      ∃ y, b.Step v x y ∧ j = b.states.findIdx fun q => q.1 = y := by
  have hs := h.mem_states.1 (List.mem_of_getElem? hi)
  have hvertex : b.shape[i]? = some ⟨b.isAccepting s, s.transitions.map fun t =>
      (b.names t.label.pos, b.names t.label.neg, b.states.findIdx fun q => q.1 = t.target)⟩ := by
    rw [shape, List.getElem?_map, hi]
    rfl
  constructor
  · rintro ⟨n, hn, pos, neg, hmem, hholds⟩
    cases hvertex.symm.trans hn
    obtain ⟨t, ht, heq⟩ := List.mem_map.1 hmem
    cases heq
    exact ⟨t.target, ⟨s, liveState?_eq_some.2 hs, t, ht, rfl,
      (holds_names_iff hnames (hlabels x s hs t ht)).1 hholds⟩, rfl⟩
  · rintro ⟨_, ⟨s', hs', t, ht, rfl, hholds⟩, rfl⟩
    cases hs.unique (liveState?_eq_some.1 hs')
    exact ⟨_, hvertex, _, _, List.mem_map.2 ⟨t, ht, rfl⟩,
      (holds_names_iff hnames (hlabels x s hs t ht)).2 hholds⟩

/-- **The shape accepts the words of the automaton** from the position of a state. -/
theorem WellFormed.acceptsFrom_shape (h : b.WellFormed) (hnames : b.propositions.toList.Nodup)
    (hlabels : b.arena.Labelled (Label.Below b.propositions.size))
    (hi : b.states[i]? = some (x, s)) (w : Word) :
    (Document.system b.propositions b.shape).AcceptsFrom i w ↔ b.AcceptsFrom x w := by
  have haccepting {i : Nat} {x : StateId} {s : State} (hi : b.states[i]? = some (x, s)) :
      (Document.system b.propositions b.shape).accepting i ↔
        (b.arena.system b.accept).accepting x := by
    rw [← acceptingId_iff]
    have hs := h.mem_states.1 (List.mem_of_getElem? hi)
    have hvertex : b.shape[i]?.map Vertex.accepting = some (b.isAccepting s) := by
      rw [shape, List.getElem?_map, hi]
      rfl
    obtain ⟨n, hn, heq⟩ := Option.map_eq_some_iff.1 hvertex
    constructor
    · rintro ⟨m, hm, hacc⟩
      cases hn.symm.trans hm
      exact ⟨s, liveState?_eq_some.2 hs, heq ▸ hacc⟩
    · rintro ⟨s', hs', hacc⟩
      cases hs.unique (liveState?_eq_some.1 hs')
      exact ⟨n, hn, heq ▸ hacc⟩
  rw [acceptsFrom_iff h.tidy]
  constructor
  · refine fun hw => hw.simulate (R := fun i x => ∃ s, b.states[i]? = some (x, s)) ?_ ?_ ⟨s, hi⟩
    · rintro v i j x ⟨s, hi⟩ hstep -
      obtain ⟨y, hy, rfl⟩ := (h.step_shape hnames hlabels hi).1 hstep
      obtain ⟨s', hs', t, ht, rfl, -⟩ := id hy
      obtain ⟨u, hu⟩ := h.tidy x s' (liveState?_eq_some.1 hs') t ht
      exact ⟨t.target, (step_iff h.tidy).1 hy, u, h.getElem?_position hu⟩
    · rintro i x ⟨s, hi⟩
      exact (haccepting hi).1
  · refine fun hw => hw.simulate (R := fun x i => ∃ s, b.states[i]? = some (x, s)) ?_ ?_ ⟨s, hi⟩
    · rintro v x y i ⟨s, hi⟩ hstep -
      have hy := (step_iff h.tidy).2 hstep
      obtain ⟨s', hs', t, ht, rfl, -⟩ := id hy
      obtain ⟨u, hu⟩ := h.tidy x s' (liveState?_eq_some.1 hs') t ht
      exact ⟨_, (h.step_shape hnames hlabels hi).2 ⟨t.target, hy, rfl⟩, u, h.getElem?_position hu⟩
    · rintro x i ⟨s, hi⟩
      exact (haccepting hi).2

/-- The initial state is the first one. -/
theorem WellFormed.initial_eq (h : b.WellFormed) :
    b.initial = b.states.head?.map Prod.fst := by
  rw [← List.head?_map, h.fst_states]
  rcases h.initial with ⟨hnone, hnil⟩ | ⟨i, rest, hi, hlive⟩
  · rw [hnone, hnil]
    rfl
  · rw [hi, hlive]
    rfl

/-- **A document accepts the words of its automaton** if no two states show the same display id. -/
theorem WellFormed.accepts_iff_of_document (h : b.WellFormed)
    (hdoc : Document.ofAutomaton b = .ok doc) (hids : b.identities.Nodup)
    (hnames : b.propositions.toList.Nodup)
    (hlabels : b.arena.Labelled (Label.Below b.propositions.size)) (w : Word) :
    doc.Accepts b.propositions w ↔ b.Accepts w := by
  rw [Document.Accepts, h.rebuild_eq_shape hdoc hids, Accepts, h.initial_eq]
  cases hstates : b.states with
  | nil =>
    refine iff_of_false ?_ (by simp)
    rintro ⟨r, h0, hr, -⟩
    obtain ⟨n, hn, -⟩ := hr 0
    rw [shape, hstates] at hn
    simp at hn
  | cons p rest =>
    rw [List.head?_cons, Option.map_some]
    rw [h.acceptsFrom_shape hnames hlabels (i := 0) (x := p.1) (s := p.2) (by rw [hstates]; rfl)]
    simp

end Automaton

end OmegaAutomata
