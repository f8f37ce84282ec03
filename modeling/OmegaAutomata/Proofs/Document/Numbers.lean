/-
# The numbers of documents

A document has the display ids and the counters of states.  These are 32-bit numbers if those of the
generalized automaton are: passes replace display ids by larger ones and give out no number
that is too large (`lastIdentity_le`), and counters stay as they are (`numbered_of_build`).
-/

import OmegaAutomata.Json.Document
import OmegaAutomata.Proofs.DisplayIds

namespace OmegaAutomata

variable {g : Generalized} {options : Options} {b c : Automaton} {stats : BuildStats}

namespace Document

/-- Whether a number can be a display id. -/
def IsId (n : Int) : Prop :=
  leastId ≤ n ∧ n ≤ maxDisplayId

/-- Whether a number can be a counter. -/
def IsCounter (n : Nat) : Prop :=
  n ≤ maxCounter

/-- Whether all numbers of a document can be what they stand for. -/
structure InRange (d : Document) : Prop where
  id : ∀ e ∈ d.states, IsId e.id
  counter : ∀ e ∈ d.states, IsCounter e.counter
  source : ∀ t ∈ d.transitions, IsId t.source
  target : ∀ t ∈ d.transitions, IsId t.target

end Document

open Document (IsId IsCounter)

namespace Arena

variable {a a' : Arena} {last last' identity identity' : Int} {k : Nat}

/-- **No display id is too large**: the next one is only given out if it is not. -/
theorem le_of_identityAgainst {older : List State}
    (h : identityAgainst k last identity older = .ok (last', identity'))
    (hlast : last ≤ maxDisplayId) : last' ≤ maxDisplayId := by
  induction older generalizing last identity with
  | nil =>
    cases h
    exact hlast
  | cons t older ih =>
    rw [identityAgainst] at h
    split at h
    · obtain ⟨next, hnext, h⟩ := bind_eq_ok.1 h
      obtain ⟨hlt, rfl⟩ := nextIdentity_eq_ok.1 hnext
      exact ih h hlt
    · exact ih h hlast

theorem le_of_separateEach {ids : List StateId} (h : separateEach ids last a = .ok (last', a'))
    (hlast : last ≤ maxDisplayId) : last' ≤ maxDisplayId := by
  induction ids generalizing last a with
  | nil =>
    cases h
    exact hlast
  | cons id older ih =>
    rw [separateEach] at h
    obtain ⟨s, -, h⟩ := bind_eq_ok.1 h
    obtain ⟨states, -, h⟩ := bind_eq_ok.1 h
    obtain ⟨⟨next, identity⟩, hnext, h⟩ := bind_eq_ok.1 h
    exact ih h (le_of_identityAgainst hnext hlast)

end Arena

namespace Automaton

/-- So passes keep the largest display id in range. -/
theorem WellFormed.lastIdentity_le (h : b.WellFormed) (hc : ComesUp b c)
    (hlast : b.lastIdentity ≤ maxDisplayId) : c.lastIdentity ≤ maxDisplayId := by
  induction hc with
  | start => exact hlast
  | dropSubsumed _ ih => exact ih
  | classify hd he ih =>
    obtain ⟨m, f, hf, hreduces⟩ := (h.comesUp hd).1.reduces_classify
    cases he.symm.trans hf
    rw [hreduces.lastIdentity_eq]
    exact ih
  | mergeStates hd he ih =>
    obtain ⟨f, last, a, hreduces, ha, rfl⟩ := (h.comesUp hd).1.reduces_mergeStates he
    rw [← hreduces.lastIdentity_eq] at ih
    exact Arena.le_of_separateEach ha ih

/-- Whether the numbers of all states can be what they stand for. -/
def Numbered (b : Automaton) : Prop :=
  ∀ x l, b.arena.slot? x = some l → IsId l.state.identity ∧ IsCounter l.state.counter

/-- **The document of an automaton** has no other numbers. -/
theorem Numbered.inRange (h : b.Numbered) {d : Document} (hd : Document.ofAutomaton b = .ok d) :
    d.InRange := by
  have hstates : ∀ s ∈ b.states.map Prod.snd, IsId s.identity ∧ IsCounter s.counter := by
    intro s hs
    obtain ⟨p, hp, rfl⟩ := List.mem_map.1 hs
    obtain ⟨x, -, hp⟩ := List.mem_filterMap.1 hp
    obtain ⟨l, hl, rfl⟩ := Option.map_eq_some_iff.1 hp
    exact h x l hl
  obtain ⟨entries, hentries, hd⟩ := bind_eq_ok.1 hd
  cases hd
  have htransitions : ∀ e ∈ entries.flatten, IsId e.source ∧ IsId e.target := by
    intro e he
    obtain ⟨es, hes, he⟩ := List.mem_flatten.1 he
    obtain ⟨s, hs, hes⟩ := (of_mapM_eq_ok hentries).2 es hes
    obtain ⟨t, -, he⟩ := (of_mapM_eq_ok hes).2 e he
    obtain ⟨u, hu, he⟩ := bind_eq_ok.1 he
    cases he
    unfold state at hu
    split at hu
    · obtain ⟨stage, hslot⟩ := Arena.state_eq_ok.1 hu
      exact ⟨(hstates s hs).1, (h _ _ hslot).1⟩
    · contradiction
  exact ⟨List.forall_mem_map.2 fun s hs => (hstates s hs).1,
    List.forall_mem_map.2 fun s hs => (hstates s hs).2,
    fun e he => (htransitions e he).1, fun e he => (htransitions e he).2⟩

end Automaton

/-- The largest display id of a generalized automaton is one. -/
theorem Generalized.maxIdentity_le (hg : ∀ q, IsId (g.identity q)) :
    g.maxIdentity ≤ maxDisplayId := by
  have hstate : ∀ s ∈ g.states.toList, s.identity ≤ maxDisplayId := by
    intro s hs
    obtain ⟨q, hq⟩ := List.getElem?_of_mem hs
    rw [Array.getElem?_toList] at hq
    have hle := (hg q).2
    rwa [identity, hq] at hle
  rw [maxIdentity, ← Array.foldl_toList]
  exact List.foldlRecOn (motive := fun m => m ≤ maxDisplayId) g.states.toList _ (by decide)
    fun m hm s hs => Int.max_le.2 ⟨hm, hstate s hs⟩

/-- A built state has the display id of its source, or that of the initial state. -/
theorem leastId_le_of_build (hg : ∀ q, IsId (g.identity q))
    (h : build g options = .ok (b, stats)) {x : StateId} {s : State} (hs : b.arena.LiveAt x s) :
    Document.leastId ≤ s.identity := by
  obtain ⟨p, hbuilding, hpending, -, -, -, -, n, hn⟩ := build_eq_redirect h
  obtain ⟨m, a, ha, hremoves⟩ := (hbuilding.valid hpending).removes_redirect (some 0)
  cases hn.symm.trans ha
  obtain ⟨t, ht, -, hidentity⟩ := hremoves.origin x s hs
  rw [← hidentity, hbuilding.registered.identity x _ ht]
  cases t.node with
  | none =>
    show Document.leastId ≤ initialIdentity
    decide
  | some n => exact (hg n.1).1

/-- **What is built has such numbers**, and keeps them in passes. -/
theorem numbered_of_build (hg : ∀ q, IsId (g.identity q)) (hsets : IsCounter g.sets)
    (h : build g options = .ok (b, stats)) {passes : List Automaton.Pass}
    (hc : b.runPasses passes = .ok c) : c.Numbered := by
  obtain ⟨hwf, -⟩ := build_eq_ok h
  have hup := Automaton.comesUp_of_runPasses hc
  obtain ⟨-, -, -, -, -, hlast, -⟩ := build_eq_redirect h
  have hle : c.lastIdentity ≤ maxDisplayId :=
    hwf.lastIdentity_le hup (hlast ▸ Generalized.maxIdentity_le hg)
  have hconsistent := ((consistent_of_build h).2 c hup).1
  obtain ⟨-, hlargest, -, log, -, honce⟩ := distinct_names_of_runPasses h hc
  have hlive (x : StateId) (s : State) (hs : c.liveState? x = some s) :
      IsId s.identity ∧ IsCounter s.counter := by
    refine ⟨⟨?_, Int.le_trans (hlargest x s hs) hle⟩,
      Nat.le_trans (hconsistent.counter_le x s hs) hsets⟩
    obtain ⟨t, ht, hshown⟩ := honce.shown x s hs
    have hleast := leastId_le_of_build hg h (Automaton.liveState?_eq_some.1 ht)
    rcases hshown with ⟨heq, -⟩ | hmem
    · exact heq ▸ hleast
    · obtain ⟨before, after, hlog⟩ := List.append_of_mem hmem
      have hlt := (honce.fresh before _ after hlog).1 x t ht
      exact Int.le_trans hleast (Int.le_of_lt hlt)
  intro x l hl
  obtain ⟨stage, s⟩ := l
  cases stage with
  | pending => exact absurd hl (hconsistent.pending.2 x s)
  | live => exact hlive x s (Automaton.liveState?_eq_some.2 hl)
  | retired f => exact absurd hl (hconsistent.retired.2 x f s)

end OmegaAutomata
