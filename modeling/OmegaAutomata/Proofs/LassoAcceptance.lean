/-
# Acceptance of lassos

Whether a lasso is accepted is decided on the product of the automaton with the
lasso.  The decision is exact: it always comes to an answer, and the answer is that
the automaton accepts the infinite word of the lasso.  For generalized automata this
holds without exception (`Generalized.exists_acceptsLasso`); a Büchi automaton must
not lead from a live state to one that is not live (`Automaton.Closed`).

In both cases the traces over the lasso are the runs over its word, so
`Product.Explored.exists_cycles` translates between runs and cycles.
-/

import OmegaAutomata.Generalized.Language
import OmegaAutomata.Proofs.Automaton.Language
import OmegaAutomata.Proofs.Fallible
import OmegaAutomata.Proofs.Product.Traces

namespace OmegaAutomata

/-! ### Generalized automata -/

namespace Generalized

variable {g : Generalized} {w : Lasso}

theorem mem_moves {q : Nat} {v : IndexSet} {m : Move Nat} :
    m ∈ g.moves q v ↔
      ∃ t ∈ g.transitions q, t.label.holds v = true ∧ m = ⟨t.target, t.acceptance⟩ := by
  simp only [moves, List.mem_map, List.mem_filter, and_assoc, eq_comm]

/-- The states that can come up in a run. -/
def occurring (g : Generalized) : List Nat :=
  g.initial ++ (g.states.toList.flatMap State.transitions).map Transition.target

theorem length_occurring (g : Generalized) :
    g.occurring.length = g.initial.length + g.transitionCount := by
  rw [occurring, List.length_append, List.length_map, transitionCount]

theorem target_mem_occurring {q : Nat} {t : Transition} (ht : t ∈ g.transitions q) :
    t.target ∈ g.occurring :=
  List.mem_append_right _ (List.mem_map_of_mem (mem_flatMap_transitions ht))

/-- A run is a trace with the sets of its transitions. -/
theorem Run.trace (r : g.Run w.word) :
    Product.Trace w (fun q v => .ok (g.moves q v)) g.initial r.state
      fun i => (r.taken i).acceptance where
  start := r.start
  move i := ⟨_, rfl, mem_moves.2 ⟨r.taken i, r.taken_mem i, r.holds i, by rw [r.next i]⟩⟩

/-- A trace comes from a run. -/
theorem exists_run_of_trace {s : Nat → Nat} {a : Nat → IndexSet}
    (h : Product.Trace w (fun q v => .ok (g.moves q v)) g.initial s a) :
    ∃ r : g.Run w.word, ∀ i, (r.taken i).acceptance = a i := by
  have htaken : ∀ i, ∃ t ∈ g.transitions (s i), t.label.holds (w.word i) = true ∧
      s (i + 1) = t.target ∧ a i = t.acceptance := fun i => by
    obtain ⟨out, hout, hmem⟩ := h.move i
    cases hout
    obtain ⟨t, ht, hholds, heq⟩ := mem_moves.1 hmem
    exact ⟨t, ht, hholds, congrArg Move.state heq, congrArg Move.acceptance heq⟩
  choose t ht hholds hnext hacc using htaken
  exact ⟨⟨s, t, h.start, ht, hholds, hnext⟩, fun i => (hacc i).symm⟩

/-- **Lasso acceptance is exact** for generalized automata. -/
theorem exists_acceptsLasso (g : Generalized) (w : Lasso) :
    ∃ r, g.acceptsLasso w = .ok r ∧ (r = true ↔ g.Accepts w.word) := by
  obtain ⟨p, hp, hexplored⟩ := Product.exists_explore w (fun q v => .ok (g.moves q v)) g.initial
    g.occurring ((g.initial.length + g.transitionCount) * w.size)
    (fun _ hs => List.mem_append_left _ hs)
    (fun q _ v => ⟨_, rfl, fun m hm => by
      obtain ⟨t, ht, -, rfl⟩ := mem_moves.1 hm
      exact target_mem_occurring ht⟩)
    (by rw [length_occurring])
  obtain ⟨cycs, hcycs, htrace, hcycle⟩ := hexplored.exists_cycles
  have hresult : g.acceptsLasso w =
      .ok (cycs.any fun c => (List.range g.sets).all c.acceptance.contains) := by
    simp only [acceptsLasso, hp, hcycs, bind_ok, pure_eq_ok]
  refine ⟨_, hresult, ?_⟩
  simp only [List.any_eq_true, List.all_eq_true, List.mem_range, IndexSet.contains_iff]
  constructor
  · rintro ⟨cyc, hcyc, hall⟩
    obtain ⟨s, a, hsa, -, hio⟩ := hcycle cyc hcyc
    obtain ⟨r, hr⟩ := exists_run_of_trace hsa
    refine ⟨r, fun j hj => (hio j (hall j hj)).mono fun i hi => ?_⟩
    rw [hr i]
    exact hi
  · rintro ⟨r, hr⟩
    obtain ⟨cyc, hcyc, N, hN⟩ := htrace _ _ r.trace
    refine ⟨cyc, hcyc, fun j hj => ?_⟩
    obtain ⟨i, hi, hmem⟩ := hr j hj N
    exact (hN i hi).2 j hmem

end Generalized

/-! ### Büchi automata -/

namespace Automaton

variable {b : Automaton} {w : Lasso}

/-- Whether live states only lead to live states, and a run can only begin in one. -/
structure Closed (b : Automaton) : Prop where
  target : ∀ id s, b.liveState? id = some s → ∀ t ∈ s.transitions, b.arena.isLive t.target = true
  initial : ∀ i, b.initial = some i → b.arena.isLive i = true

/-- The moves of a live state are its transitions whose labels hold. -/
theorem exists_moves {id : StateId} {s : State} (h : b.liveState? id = some s) (v : IndexSet) :
    ∃ out, b.moves id v = .ok out ∧
      ∀ m, m ∈ out ↔ ∃ t ∈ s.transitions, t.label.holds v = true ∧ m = ⟨t.target, ∅⟩ := by
  refine ⟨_, by rw [moves, state_eq_ok h]; rfl, fun m => ?_⟩
  simp only [List.mem_map, List.mem_filter, and_assoc, eq_comm]

/-- A run is a trace without acceptance sets. -/
theorem Run.trace {i : StateId} (hi : b.initial = some i) (r : b.Run i w.word) :
    Product.Trace w b.moves b.initial.toList r.state fun _ => ∅ where
  start := by rw [hi, r.starts]; exact List.mem_singleton_self i
  move n := by
    obtain ⟨s, hs, t, ht, htarget, hholds⟩ := r.step n
    obtain ⟨out, hout, hmem⟩ := exists_moves hs (w.word n)
    exact ⟨out, hout, (hmem _).2 ⟨t, ht, hholds, by rw [htarget]⟩⟩

/-- A trace of a closed automaton comes from a run. -/
theorem Closed.exists_run_of_trace (hb : b.Closed) {s : Nat → StateId} {a : Nat → IndexSet}
    (h : Product.Trace w b.moves b.initial.toList s a) :
    ∃ i, b.initial = some i ∧ ∃ r : b.Run i w.word, r.state = s := by
  have hi : b.initial = some (s 0) := Option.mem_toList.1 h.start
  have hlive : ∀ n, ∃ st, b.liveState? (s n) = some st := by
    intro n
    induction n with
    | zero =>
      obtain ⟨st, hst⟩ := Arena.isLive_iff.1 (hb.initial _ hi)
      exact ⟨st, liveState?_eq_some.2 hst⟩
    | succ n ih =>
      obtain ⟨st, hst⟩ := ih
      obtain ⟨out, hout, hmem⟩ := h.move n
      obtain ⟨out', hout', hmem'⟩ := exists_moves hst (w.word n)
      cases Except.ok.inj (hout.symm.trans hout')
      obtain ⟨t, ht, -, heq⟩ := (hmem' _).1 hmem
      obtain ⟨st', hst'⟩ := Arena.isLive_iff.1 (hb.target _ st hst t ht)
      have hnext : s (n + 1) = t.target := congrArg Move.state heq
      rw [hnext]
      exact ⟨st', liveState?_eq_some.2 hst'⟩
  refine ⟨s 0, hi, ⟨s, rfl, fun n => ?_⟩, rfl⟩
  obtain ⟨st, hst⟩ := hlive n
  obtain ⟨out, hout, hmem⟩ := h.move n
  obtain ⟨out', hout', hmem'⟩ := exists_moves hst (w.word n)
  cases Except.ok.inj (hout.symm.trans hout')
  obtain ⟨t, ht, hholds, heq⟩ := (hmem' _).1 hmem
  exact ⟨st, hst, t, ht, (congrArg Move.state heq).symm, hholds⟩

/-- A node with a live state is accepting when its state is. -/
theorem exists_acceptingNode {p : Product StateId w} {v : Nat} {x : StateId × Fin w.size}
    (hv : p.nodes[v]? = some x) (hx : b.arena.isLive x.1 = true) :
    ∃ r, b.acceptingNode p v = .ok r ∧ (r = true ↔ b.AcceptingId x.1) := by
  obtain ⟨s, hs⟩ := Arena.isLive_iff.1 hx
  have hstate := state_eq_ok (liveState?_eq_some.2 hs)
  refine ⟨b.isAccepting s, by rw [acceptingNode, Product.state, hv, bind_ok, hstate]; rfl, ?_⟩
  constructor
  · exact fun h => ⟨s, liveState?_eq_some.2 hs, h⟩
  · rintro ⟨s', hs', h⟩
    cases (liveState?_eq_some.1 hs').symm.trans hs
    exact h

/-- **The product of a closed automaton can be explored**, and all its nodes have live states. -/
theorem Closed.exists_explored (hb : b.Closed) (w : Lasso) :
    ∃ p, Product.explore w (b.arena.slots.size * w.size + 1) b.initial.toList b.moves = .ok p ∧
      p.Explored b.moves b.initial.toList ∧
        ∀ (i : Nat) x, p.nodes[i]? = some x → b.arena.isLive x.1 = true := by
  let lives := (List.range b.arena.slots.size).filter fun id => b.arena.isLive id
  have hlives {id : StateId} : id ∈ lives ↔ b.arena.isLive id = true := by
    rw [List.mem_filter, List.mem_range, and_iff_right_iff_imp]
    intro hid
    obtain ⟨s, hs⟩ := Arena.isLive_iff.1 hid
    exact Arena.lt_size_of_slot? hs
  have hmoves (id : StateId) (hid : b.arena.isLive id = true) (v : IndexSet) :
      ∃ out, b.moves id v = .ok out ∧ ∀ m ∈ out, b.arena.isLive m.state = true := by
    obtain ⟨s, hs⟩ := Arena.isLive_iff.1 hid
    obtain ⟨out, hout, hmem⟩ := exists_moves (liveState?_eq_some.2 hs) v
    refine ⟨out, hout, fun m hm => ?_⟩
    obtain ⟨t, ht, -, rfl⟩ := (hmem m).1 hm
    exact hb.target id s (liveState?_eq_some.2 hs) t ht
  obtain ⟨p, hp, hexplored⟩ := Product.exists_explore w b.moves b.initial.toList lives
    (b.arena.slots.size * w.size + 1)
    (fun i hi => hlives.2 (hb.initial i (Option.mem_toList.1 hi)))
    (fun id hid v => by
      obtain ⟨out, hout, hmem⟩ := hmoves id (hlives.1 hid) v
      exact ⟨out, hout, fun m hm => hlives.2 (hmem m hm)⟩)
    (by
      have hlength : lives.length ≤ b.arena.slots.size :=
        Nat.le_trans (List.length_filter_le _ _) (Nat.le_of_eq List.length_range)
      exact Nat.le_succ_of_le (Nat.mul_le_mul_right _ hlength))
  refine ⟨p, hp, hexplored, fun i x hx => ?_⟩
  obtain ⟨s, hs, hreach⟩ := hexplored.reached hx
  clear hx
  induction hreach with
  | refl => exact hb.initial s (Option.mem_toList.1 hs)
  | tail _ hstep ih =>
    obtain ⟨_, -, out, hout, hmem⟩ := hstep
    obtain ⟨out', hout', hlive⟩ := hmoves _ ih (w.letter _)
    cases Except.ok.inj (hout.symm.trans hout')
    exact hlive _ hmem

/-- **Lasso acceptance is exact** for closed Büchi automata. -/
theorem Closed.exists_acceptsLasso (hb : b.Closed) (w : Lasso) :
    ∃ r, b.acceptsLasso w = .ok r ∧ (r = true ↔ b.Accepts w.word) := by
  obtain ⟨p, hp, hexplored, hlive⟩ := hb.exists_explored w
  obtain ⟨cycs, hcycs, htrace, hcycle⟩ := hexplored.exists_cycles
  let accepting (v : Nat) : Bool := (b.acceptingNode p v).toOption.getD false
  have haccepting {v : Nat} {x : StateId × Fin w.size} (hv : p.nodes[v]? = some x) :
      b.acceptingNode p v = .ok (accepting v) ∧ (accepting v = true ↔ b.AcceptingId x.1) := by
    obtain ⟨r, hr, hiff⟩ := exists_acceptingNode hv (hlive v x hv)
    simp only [accepting, hr, Except.toOption, Option.getD_some, true_and, hiff]
  have hresult : b.acceptsLasso w = .ok (cycs.any fun c => c.nodes.toList.any accepting) := by
    simp only [acceptsLasso, hp, hcycs, bind_ok]
    refine anyM_eq_ok fun cyc hcyc => anyM_eq_ok fun v hv => ?_
    -- the trace that belongs to the cycle visits its nodes
    obtain ⟨s, a, -, hio, -⟩ := hcycle cyc hcyc
    obtain ⟨i, -, q, hq⟩ := hio v (Array.mem_toList_iff.1 hv) 0
    exact (haccepting hq).1
  refine ⟨_, hresult, ?_⟩
  simp only [List.any_eq_true, Array.mem_toList_iff]
  constructor
  · rintro ⟨cyc, hcyc, v, hv, hacc⟩
    obtain ⟨s, a, hsa, hio, -⟩ := hcycle cyc hcyc
    obtain ⟨i, hi, r, hr⟩ := hb.exists_run_of_trace hsa
    refine ⟨i, hi, r, (hio v hv).mono fun n hn => ?_⟩
    obtain ⟨q, hq⟩ := hn
    rw [hr]
    exact (haccepting hq).2.1 hacc
  · rintro ⟨i, hi, r, hr⟩
    obtain ⟨cyc, hcyc, N, hN⟩ := htrace _ _ (r.trace hi)
    obtain ⟨n, hn, hacc⟩ := hr N
    obtain ⟨⟨v, hv, q, hq⟩, -⟩ := hN n hn
    exact ⟨cyc, hcyc, v, hv, (haccepting hq).2.2 hacc⟩

end Automaton

/-! ### Both kinds of automata -/

/-- **Deciding a lasso decides its word.**  For a generalized automaton, and for a closed Büchi
automaton, there is an answer, and it is yes exactly if the word of the lasso is accepted. -/
theorem decides_word (w : Lasso) :
    (∀ g : Generalized, ∃ r, g.acceptsLasso w = .ok r ∧ (r = true ↔ g.Accepts w.word)) ∧
      ∀ b : Automaton, b.Closed → ∃ r, b.acceptsLasso w = .ok r ∧ (r = true ↔ b.Accepts w.word) :=
  ⟨fun g => g.exists_acceptsLasso w, fun _ hb => hb.exists_acceptsLasso w⟩

/-- The transitions of both states of the automaton for "infinitely often not `p`". -/
def Automaton.attempts : List OmegaAutomata.Transition :=
  [⟨0, .always⟩, ⟨1, ⟨∅, .ofList [0], rfl⟩⟩]

/-- The automaton for "infinitely often not `p`": its second state accepts, and is reached by letters
without `p`. -/
def Automaton.retrying : Automaton where
  arena := {
    slots := #[some ⟨.live, ⟨none, initialIdentity, 0, 2, .recurrent, attempts⟩⟩,
      some ⟨.live, ⟨some 0, 1, 1, 2, .recurrent, attempts⟩⟩]
    keys := ∅
    pending := []
    live := [0, 1]
    retired := [] }
  initial := some 0
  accept := 1
  lastIdentity := 1
  propositions := #["p"]

theorem Automaton.liveState?_retrying {id : StateId} {s : State}
    (h : retrying.liveState? id = some s) :
    (id = 0 ∨ id = 1) ∧ s.transitions = attempts ∧ s.counter = id := by
  have hslot := liveState?_eq_some.1 h
  match id with
  | 0 =>
    cases hslot
    exact ⟨.inl rfl, rfl, rfl⟩
  | 1 =>
    cases hslot
    exact ⟨.inr rfl, rfl, rfl⟩
  | _ + 2 => contradiction

theorem Automaton.closed_retrying : retrying.Closed := by
  refine ⟨fun id s hs t ht => ?_, fun i hi => ?_⟩
  · rw [(liveState?_retrying hs).2.1] at ht
    rcases List.mem_pair.1 ht with rfl | rfl
    · rfl
    · rfl
  · cases hi
    rfl

/-- The run that goes to the accepting state whenever it can. -/
def Automaton.retryingRun (w : Word) : retrying.Run 0 w where
  state
    | 0 => 0
    | i + 1 => if 0 ∈ w i then 0 else 1
  starts := rfl
  step i := by
    have hlive : ∀ q ≤ 1, ∃ s, retrying.liveState? q = some s ∧ s.transitions = attempts
      | 0, _ => ⟨_, rfl, rfl⟩
      | 1, _ => ⟨_, rfl, rfl⟩
    have hle : (match i with | 0 => 0 | i + 1 => if 0 ∈ w i then 0 else 1) ≤ 1 := by
      split
      · exact Nat.zero_le 1
      · split <;> decide
    obtain ⟨s, hs, htransitions⟩ := hlive _ hle
    refine ⟨s, hs, ?_⟩
    rw [htransitions]
    by_cases h : 0 ∈ w i
    · exact ⟨_, List.mem_cons_self, (if_pos h).symm, rfl⟩
    · refine ⟨_, List.mem_cons_of_mem _ (List.mem_singleton_self _), (if_neg h).symm,
        Label.holds_iff.2 ⟨fun x hx => absurd hx (IndexSet.not_mem_empty x), fun x hx => ?_⟩⟩
      rw [List.mem_singleton.1 (IndexSet.mem_ofList.1 hx)]
      exact h

/-- It accepts the words that lack the proposition infinitely often. -/
theorem Automaton.retrying_accepts (w : Word) :
    retrying.Accepts w ↔ InfinitelyOften fun i => 0 ∉ w i := by
  constructor
  · rintro ⟨i, hi, r, hr⟩ n
    cases hi
    obtain ⟨m, hm, s, hs, hacc⟩ := hr (n + 1)
    obtain ⟨m, rfl⟩ := Nat.exists_eq_add_of_le' (Nat.le_trans (Nat.le_add_left 1 n) hm)
    have hone : r.state (m + 1) = 1 :=
      (liveState?_retrying hs).2.2.symm.trans (of_decide_eq_true hacc)
    obtain ⟨u, hu, t, ht, htarget, hholds⟩ := r.step m
    rw [(liveState?_retrying hu).2.1] at ht
    rcases List.mem_pair.1 ht with rfl | rfl
    · exact absurd (htarget.trans hone) (by decide)
    · exact ⟨m, by omega, (Label.holds_iff.1 hholds).2 0
        (IndexSet.mem_ofList.2 (List.mem_singleton_self 0))⟩
  · intro h
    refine ⟨0, rfl, retryingRun w, fun n => ?_⟩
    obtain ⟨m, hm, hmem⟩ := h n
    refine ⟨m + 1, by omega, ⟨some 0, 1, 1, 2, .recurrent, attempts⟩, ?_, rfl⟩
    show retrying.liveState? (if 0 ∈ w m then 0 else 1) = _
    rw [if_neg hmem]
    rfl

/-- Of two lassos it accepts the one whose cycle has a letter without the proposition. -/
theorem retrying_acceptsLasso : Automaton.retrying.Closed ∧
    Automaton.retrying.acceptsLasso ⟨#[], #[.singleton 0, ∅], Nat.two_pos⟩ = .ok true ∧
      Automaton.retrying.acceptsLasso ⟨#[∅], #[.singleton 0], Nat.one_pos⟩ = .ok false := by
  obtain ⟨r, hr, hiff⟩ := (decides_word ⟨#[], #[.singleton 0, ∅], Nat.two_pos⟩).2 _
    Automaton.closed_retrying
  obtain ⟨r', hr', hiff'⟩ := (decides_word ⟨#[∅], #[.singleton 0], Nat.one_pos⟩).2 _
    Automaton.closed_retrying
  rw [Automaton.retrying_accepts] at hiff hiff'
  refine ⟨Automaton.closed_retrying, hr.trans ?_, hr'.trans ?_⟩
  · rw [hiff.2 fun n => ⟨2 * n + 1, by omega, ?_⟩]
    have hodd : (2 * n + 1) % 2 = 1 := by omega
    simp [Lasso.word, hodd]
  · have hno : ¬r' = true := fun h => by
      -- every letter but the first has the proposition
      obtain ⟨m, hm, hmem⟩ := hiff'.1 h 1
      have hlt : ¬m < 1 := by omega
      exact hmem (by simp [Lasso.word, hlt, Nat.mod_one])
    rw [Bool.eq_false_iff.2 hno]

end OmegaAutomata
