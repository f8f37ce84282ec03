/-
# What builds answer

Nothing is checked before a build, so a proposition may be declared after it was used.  What a build
answers depends on what was collected before it and on nothing else: the answers of all other builds
are the same without it (`build_exact`).  It is the automaton that was collected, if all transitions
that were added are valid at that point, and otherwise it names the first violation.
-/

import OmegaAutomata.Proofs.Generalized.Calls
import OmegaAutomata.Proofs.Generalized.Checks

namespace OmegaAutomata

namespace Builder

open Calls

/-- All transitions that were added: by the order of the states, then of the calls. -/
def Calls.ordered {κ : Type} [BEq κ] (calls : List (Call κ)) : List (Addition κ) :=
  (keys calls).flatMap (additions calls)

variable {κ : Type} [BEq κ] [EquivBEq κ] {calls : List (Call κ)} {t : Addition κ}

/-- Every transition that was added is in its place. -/
theorem mem_ordered : t ∈ ordered calls ↔
    ∃ source, .addTransition source t.pos t.neg t.acceptance t.target ∈ calls := by
  rw [ordered, List.mem_flatMap]
  constructor
  · rintro ⟨key, -, ht⟩
    obtain ⟨c, hc, ht⟩ := List.mem_filterMap.1 ht
    split at ht
    · split at ht
      · cases ht
        exact ⟨_, hc⟩
      · contradiction
    · contradiction
  · rintro ⟨source, hc⟩
    obtain ⟨key, hkey, hsource⟩ :=
      List.contains_iff_exists_mem_beq.1 (contains_keys hc List.mem_cons_self)
    exact ⟨key, hkey, List.mem_filterMap.2 ⟨_, hc, if_pos (BEq.symm hsource)⟩⟩

omit [EquivBEq κ] in
/-- A build checks them in this order. -/
theorem drafts_collected (calls : List (Call κ)) (sets : Nat) : (collected calls sets).drafts =
    (ordered calls).map (transitionDraft calls) := by
  simp [drafts, collected, ordered, draft, List.flatMap_map, List.map_flatMap]

omit [EquivBEq κ] in
/-- **A build gives the first violation** in this order. -/
theorem build_collected_eq_error {sets : Nat} {e : BuildError} :
    (collected calls sets).build = .error e ↔
      ∃ before t after, ordered calls = before ++ t :: after ∧
        (∀ u ∈ before, Valid (names calls).length sets u.pos u.neg u.acceptance) ∧
          Violates (names calls).length sets t.pos t.neg t.acceptance e := by
  have hsize : (collected calls sets).propositions.size = (names calls).length := rfl
  rw [build_eq_error, drafts_collected, hsize]
  constructor
  · rintro ⟨before, t, after, heq, hbefore, ht⟩
    obtain ⟨before, rest, hordered, rfl, hrest⟩ := List.map_eq_append_iff.1 heq
    obtain ⟨t, after, rfl, rfl, rfl⟩ := List.map_eq_cons_iff.1 hrest
    exact ⟨before, t, after, hordered, fun u hu => hbefore _ (List.mem_map_of_mem hu), ht⟩
  · rintro ⟨before, t, after, heq, hbefore, ht⟩
    refine ⟨before.map (transitionDraft calls), transitionDraft calls t,
      after.map (transitionDraft calls), by rw [heq, List.map_append, List.map_cons],
      List.forall_mem_map.2 hbefore, ht⟩

/-- **A build succeeds** if all transitions that were added are valid. -/
theorem exists_build_collected {sets : Nat} : (∃ g, (collected calls sets).build = .ok g) ↔
    ∀ source pos neg acceptance target, .addTransition source pos neg acceptance target ∈ calls →
      Valid (names calls).length sets pos neg acceptance := by
  have hsize : (collected calls sets).propositions.size = (names calls).length := rfl
  rw [exists_build, drafts_collected, hsize, List.forall_mem_map]
  constructor
  · intro h source pos neg acceptance target hc
    exact h ⟨pos, neg, acceptance, target⟩ (mem_ordered.2 ⟨source, hc⟩)
  · intro h t ht
    obtain ⟨source, hc⟩ := mem_ordered.1 ht
    exact h source t.pos t.neg t.acceptance t.target hc

omit [EquivBEq κ] in
/-- **What is built** has the states that were mentioned, in order. -/
theorem build_collected_eq_ok {sets : Nat} {g : Generalized}
    (hg : (collected calls sets).build = .ok g) : g.states.size = (keys calls).length ∧
      ∀ q key, (keys calls)[q]? = some key →
        g.identity q = (identity? calls key).getD (q + 1) ∧
          (g.transitions q).map (fun t => (t.target, t.label.pos, t.label.neg, t.acceptance)) =
            (additions calls key).map fun t =>
              (number calls t.target, t.pos, t.neg, t.acceptance) := by
  have hparts := build_eq_ok hg
  have hsize := (of_build hg).1
  have hkeys : (collected calls sets).states.toList = (keys calls).map (draft calls) := rfl
  rw [hkeys] at hparts
  refine ⟨hsize.trans (by simp [collected]), fun q key hq => ?_⟩
  have hpart := congrArg (fun l => l[q]?) hparts
  simp only [List.getElem?_map, List.getElem?_zipIdx, hq, Array.getElem?_toList] at hpart
  cases hs : g.states[q]? with
  | none =>
    rw [hs] at hpart
    simp at hpart
  | some s =>
    rw [hs] at hpart
    simp only [Option.map_some, draft, List.map_map, Option.some_inj, Prod.mk.injEq,
      Nat.zero_add] at hpart
    rw [Generalized.identity, Generalized.transitions, hs]
    exact hpart

/-- **Builds validate exactly, and late.**  Whatever is called before and after a build, the other
builds answer as they would without it.  Its answer is an automaton if and only if every
transition that was added before uses only propositions declared before it, requires and forbids
none of them at once, and belongs to sets that there are.  Otherwise it is the error of the first
transition that does not, by the order of the states and then of the calls.

The automaton has a state for each key that was mentioned, numbered as they were first mentioned,
with the display id that was set last, or with its number plus one, and with its transitions as they
were added.  The initial states are those that were marked, in the order in which they first
were, and there are no repeats and no numbers without a state. -/
theorem build_exact (sets : Nat) (before after : List (Call κ)) :
    ∃ (answer : Except BuildError Generalized) (rest : List (Except BuildError Generalized)),
      Calls.answers (.empty sets) (before ++ .build :: after) =
        Calls.answers (.empty sets) before ++ answer :: rest ∧
      Calls.answers (.empty sets) (before ++ after) =
        Calls.answers (.empty sets) before ++ rest ∧
      ((∃ g, answer = .ok g) ↔ ∀ source pos neg acceptance target,
        .addTransition source pos neg acceptance target ∈ before →
          Valid (names before).length sets pos neg acceptance) ∧
      (∀ e, answer = .error e ↔ ∃ passed t further, ordered before = passed ++ t :: further ∧
        (∀ u ∈ passed, Valid (names before).length sets u.pos u.neg u.acceptance) ∧
          Violates (names before).length sets t.pos t.neg t.acceptance e) ∧
      ∀ g, answer = .ok g →
        g.sets = sets ∧ g.propositions.toList = names before ∧
        g.states.size = (keys before).length ∧
        (∀ q key, (keys before)[q]? = some key →
          g.identity q = (identity? before key).getD (q + 1) ∧
          (g.transitions q).map (fun t => (t.target, t.label.pos, t.label.neg, t.acceptance)) =
            (additions before key).map fun t =>
              (number before t.target, t.pos, t.neg, t.acceptance)) ∧
        g.initial = (marked before).map (number before) ∧ g.InRange := by
  have hcollected := foldl_apply sets before
  refine ⟨(collected before sets).build, Calls.answers (collected before sets) after, ?_, ?_,
    exists_build_collected, fun e => build_collected_eq_error, fun g hg => ?_⟩
  · rw [answers_append, hcollected]
    rfl
  · rw [answers_append, hcollected]
  · obtain ⟨hsize, hstates⟩ := build_collected_eq_ok hg
    obtain ⟨-, hinitial, hpropositions, -⟩ := of_build hg
    have hrange := ((Collected.empty sets).foldl_apply before).inRange
    rw [hcollected] at hrange
    refine ⟨?_, ?_, hsize, hstates, hinitial, hrange.build hg⟩
    · obtain ⟨states, -, hg⟩ := bind_eq_ok.1 hg
      cases hg
      rfl
    · rw [hpropositions]
      rfl

/-- Calls that add a transition with a proposition that is not declared. -/
def Calls.early : List (Call Nat) :=
  [.addState 5, .addTransition 3 (.singleton 0) ∅ (.singleton 0) 5]

/-- Calls that declare the proposition, set a display id twice, and mark a state twice. -/
def Calls.late : List (Call Nat) :=
  [.addProposition "p", .setIdentity 5 7, .setIdentity 5 0, .markInitial 3, .markInitial 3]

/-- The build in between names the proposition, and the one at the end gives the automaton. -/
theorem build_exact_late : ∃ g,
    Calls.answers (.empty 1) (early ++ .build :: late) = [.error (.propositionOutOfRange 0 0)] ∧
      Calls.answers (.empty 1) (early ++ .build :: late ++ .build :: []) =
        [.error (.propositionOutOfRange 0 0), .ok g] ∧
      g.states.size = 2 ∧ g.identity 0 = 0 ∧ g.identity 1 = 2 ∧ g.initial = [1] ∧
        (g.transitions 1).map (fun t => (t.target, t.label.pos)) = [(0, .singleton 0)] := by
  have hmem (i : Nat) (hi : i ∈ IndexSet.singleton 0) : i = 0 := IndexSet.mem_singleton.1 hi
  have hearly : Calls.answers (.empty 1) (early ++ .build :: late) =
      [.error (.propositionOutOfRange 0 0)] := by
    obtain ⟨answer, rest, hanswers, hrest, -, herror, -⟩ := build_exact 1 early late
    have hfails : answer = .error (.propositionOutOfRange 0 0) := by
      refine (herror _).2 ⟨[], ⟨.singleton 0, ∅, .singleton 0, 5⟩, [], rfl,
        fun u hu => absurd hu List.not_mem_nil, .pos ⟨⟨IndexSet.mem_singleton.2 rfl, ?_⟩, ?_⟩⟩
      · exact Nat.le_refl 0
      · exact fun i hi => Nat.le_of_eq (hmem i hi.1)
    rw [hanswers, hfails, ← List.self_eq_append_right.1 hrest]
    rfl
  obtain ⟨answer, rest, hanswers, hrest, hok, -, hstates⟩ :=
    build_exact 1 (early ++ .build :: late) []
  rw [List.append_nil] at hrest
  obtain ⟨g, rfl⟩ := hok.2 fun source pos neg acceptance target hc => by
    simp only [early, late, List.cons_append, List.nil_append, List.mem_cons, List.not_mem_nil,
      reduceCtorEq, or_false, false_or, Call.addTransition.injEq] at hc
    obtain ⟨rfl, rfl, rfl, rfl, rfl⟩ := hc
    refine ⟨fun i hi => ?_, fun i hi => ?_, fun i _ hi => ?_, fun i hi => ?_⟩
    · cases hmem i hi
      decide
    · exact absurd hi (IndexSet.not_mem_empty i)
    · exact IndexSet.not_mem_empty i hi
    · cases hmem i hi
      decide
  obtain ⟨-, -, hsize, hstate, hinitial, -⟩ := hstates g rfl
  obtain ⟨hidentity₀, -⟩ := hstate 0 5 rfl
  obtain ⟨hidentity₁, htransitions⟩ := hstate 1 3 rfl
  have htargets := congrArg (List.map fun t => (t.1, t.2.1)) htransitions
  rw [List.map_map] at htargets
  refine ⟨g, hearly, ?_, hsize, hidentity₀, hidentity₁, hinitial, htargets⟩
  rw [hanswers, hearly, List.self_eq_append_right.1 hrest]
  rfl

end Builder

end OmegaAutomata
