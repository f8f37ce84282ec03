/-
# Calls of a builder

A builder may be called in any order, and `build` at any time.  The readings in `Calls` say what a
list of calls comes to without a builder: the keys in the order in which they were first mentioned,
the names of the propositions, the keys that were marked as initial, and for each key the display
id that was set last and the transitions that were added.

A builder collects just that (`foldl_apply`).  Each operation first mentions its keys, so what
`mention` does to a builder is the one place where numbers of states have to be compared
(`mention_collected`); after it, an operation changes the data of one key.
-/

import OmegaAutomata.Proofs.Generalized.Collected
import OmegaAutomata.Proofs.Generalized.Keys

namespace OmegaAutomata

namespace Builder

variable {κ : Type}

/-- A call of a builder. -/
inductive Call (κ : Type) where
  | addProposition (name : String)
  | addState (key : κ)
  | setIdentity (key : κ) (identity : Int)
  | markInitial (key : κ)
  | addTransition (source : κ) (pos neg acceptance : IndexSet) (target : κ)
  | build

/-- A transition as it is added to a state. -/
structure Addition (κ : Type) where
  pos : IndexSet
  neg : IndexSet
  acceptance : IndexSet
  target : κ

namespace Call

/-- The keys that a call mentions; a transition mentions its source before its target. -/
def mentions : Call κ → List κ
  | addProposition _ | build => []
  | addState key | setIdentity key _ | markInitial key => [key]
  | addTransition source _ _ _ target => [source, target]

variable [BEq κ]

/-- The builder after a call. -/
def apply (b : Builder κ) : Call κ → Builder κ
  | addProposition name => (b.addProposition name).2
  | addState key => b.addState key
  | setIdentity key identity => b.setIdentity key identity
  | markInitial key => b.markInitial key
  | addTransition source pos neg acceptance target =>
    b.addTransition source pos neg acceptance target
  | build => b

/-- What a call answers if it is a build. -/
def answers (b : Builder κ) : Call κ → List (Except BuildError Generalized)
  | build => [b.build]
  | _ => []

end Call

/-! ### Readings of calls -/

namespace Calls

variable [BEq κ] (calls : List (Call κ)) (key : κ)

/-- The names of the declared propositions, in order. -/
def names (calls : List (Call κ)) : List String :=
  calls.filterMap fun
    | .addProposition name => some name
    | _ => none

/-- The different keys, in the order in which they were first mentioned. -/
def keys : List κ :=
  (calls.flatMap Call.mentions).eraseDups

/-- The number of the state for a key. -/
def number : Nat :=
  (keys calls).idxOf key

/-- The different keys that were marked as initial, in the order in which they first were. -/
def marked : List κ :=
  (calls.filterMap fun
    | .markInitial key => some key
    | _ => none).eraseDups

/-- The display id that was set last for a key. -/
def identity? : Option Int :=
  (calls.filterMap fun
    | .setIdentity k identity => if key == k then some identity else none
    | _ => none).getLast?

/-- The transitions that were added to the state for a key, in order. -/
def additions : List (Addition κ) :=
  calls.filterMap fun
    | .addTransition source pos neg acceptance target =>
      if key == source then some ⟨pos, neg, acceptance, target⟩ else none
    | _ => none

/-- The draft of a transition. -/
def transitionDraft (t : Addition κ) : TransitionDraft :=
  ⟨number calls t.target, t.pos, t.neg, t.acceptance⟩

/-- The draft of the state for a key. -/
def draft : StateDraft κ :=
  ⟨key, identity? calls key, ((additions calls key).map (transitionDraft calls)).toArray⟩

/-- The builder that has collected what the calls come to. -/
def collected (sets : Nat) : Builder κ :=
  ⟨sets, (names calls).toArray, ((keys calls).map (draft calls)).toArray,
    (marked calls).map (number calls)⟩

/-- What the builds among the calls answer, in order. -/
def answers (b : Builder κ) : List (Call κ) → List (Except BuildError Generalized)
  | [] => []
  | c :: calls => c.answers b ++ answers (c.apply b) calls

end Calls

open Calls

variable [BEq κ] [EquivBEq κ] {calls more : List (Call κ)} {c : Call κ} {key k : κ} {sets : Nat}
  {t : Addition κ}

/-! ### Keys that were mentioned -/

omit [EquivBEq κ] in
theorem keys_append_congr {more' : List (Call κ)}
    (h : more.flatMap Call.mentions = more'.flatMap Call.mentions) :
    keys (calls ++ more) = keys (calls ++ more') := by
  rw [keys, keys, List.flatMap_append, List.flatMap_append, h]

omit [EquivBEq κ] in
/-- Drafts only depend on the numbers of their targets. -/
theorem transitionDraft_congr (h : keys calls = keys more) :
    transitionDraft calls = transitionDraft more :=
  funext fun t => by rw [transitionDraft, number, h, transitionDraft, number]

/-- **A key gets a number** when it is first mentioned. -/
theorem keys_concat_addState (calls : List (Call κ)) (key : κ) : keys (calls ++ [.addState key]) =
    if (keys calls).contains key then keys calls else keys calls ++ [key] := by
  rw [keys, List.flatMap_append, keys, contains_eraseDups]
  exact eraseDups_concat _ key

theorem contains_keys (hc : c ∈ calls) (hk : k ∈ c.mentions) : (keys calls).contains k = true := by
  rw [keys, contains_eraseDups]
  exact List.contains_iff_exists_mem_beq.2 ⟨k, List.mem_flatMap.2 ⟨c, hc, hk⟩, BEq.rfl⟩

theorem contains_keys_of_beq (h : (k == key) = true) (hk : (keys calls).contains key = true) :
    (keys calls).contains k = true := by
  obtain ⟨a, ha, hka⟩ := List.contains_iff_exists_mem_beq.1 hk
  exact List.contains_iff_exists_mem_beq.2 ⟨a, ha, BEq.trans h hka⟩

/-- What is added to a state mentions both ends. -/
theorem contains_of_mem_additions (ht : t ∈ additions calls key) :
    (keys calls).contains key = true ∧ (keys calls).contains t.target = true := by
  obtain ⟨c, hc, ht⟩ := List.mem_filterMap.1 ht
  split at ht
  · split at ht
    · rename_i hkey
      cases ht
      exact ⟨contains_keys_of_beq hkey (contains_keys hc List.mem_cons_self),
        contains_keys hc (List.mem_cons_of_mem _ List.mem_cons_self)⟩
    · contradiction
  · contradiction

theorem contains_of_mem_marked (hk : k ∈ marked calls) : (keys calls).contains k = true := by
  have hk : (marked calls).contains k = true :=
    List.contains_iff_exists_mem_beq.2 ⟨k, hk, BEq.rfl⟩
  rw [marked, contains_eraseDups] at hk
  obtain ⟨a, ha, hka⟩ := List.contains_iff_exists_mem_beq.1 hk
  obtain ⟨c, hc, ha⟩ := List.mem_filterMap.1 ha
  split at ha
  · cases ha
    exact contains_keys_of_beq hka (contains_keys hc List.mem_cons_self)
  · contradiction

/-- There is nothing for a key that was not mentioned. -/
theorem draft_eq_of_not_contains (h : (keys calls).contains key = false) :
    draft calls key = ⟨key, none, #[]⟩ := by
  have hidentity : identity? calls key = none := by
    rw [identity?, List.getLast?_eq_none_iff, List.filterMap_eq_nil_iff]
    intro c hc
    split
    · refine if_neg fun hkey => ?_
      rw [contains_keys_of_beq hkey (contains_keys hc List.mem_cons_self)] at h
      contradiction
    · rfl
  have hadditions : additions calls key = [] := by
    refine List.eq_nil_iff_forall_not_mem.2 fun t ht => ?_
    rw [(contains_of_mem_additions ht).1] at h
    contradiction
  rw [draft, hidentity, hadditions]
  rfl

/-! ### What an operation collects -/

/-- Numbers that were given do not change. -/
theorem number_concat_addState (h : (keys calls).contains key = true) :
    number (calls ++ [.addState k]) key = number calls key := by
  rw [number, keys_concat_addState]
  split
  · rfl
  · exact idxOf_append_of_contains h

omit [EquivBEq κ] in
theorem marked_concat_addState (calls : List (Call κ)) (k : κ) :
    marked (calls ++ [.addState k]) = marked calls := by
  rw [marked, List.filterMap_append]
  exact congrArg List.eraseDups (List.append_nil _)

theorem draft_concat_addState (calls : List (Call κ)) (k key : κ) :
    draft (calls ++ [.addState k]) key = draft calls key := by
  have hidentity : identity? (calls ++ [.addState k]) key = identity? calls key := by
    rw [identity?, List.filterMap_append]
    exact congrArg List.getLast? (List.append_nil _)
  have hadditions : additions (calls ++ [.addState k]) key = additions calls key := by
    rw [additions, List.filterMap_append]
    exact List.append_nil _
  rw [draft, draft, hidentity, hadditions]
  congr 2
  refine List.map_congr_left fun t ht => ?_
  rw [transitionDraft, number_concat_addState (contains_of_mem_additions ht).2, transitionDraft]

/-- **Mentioning a key** gives its number, and collects no more than that. -/
theorem mention_collected (calls : List (Call κ)) (sets : Nat) (key : κ) :
    (collected calls sets).mention key =
      (number (calls ++ [.addState key]) key, collected (calls ++ [.addState key]) sets) := by
  have hfind : (collected calls sets).states.findIdx? (fun s => s.key == key) =
      Option.guard (fun i => i < (keys calls).length) ((keys calls).idxOf key) := by
    rw [collected, List.findIdx?_toArray, List.findIdx?_map]
    exact List.findIdx?_eq_guard_findIdx_lt
  have hnames : names (calls ++ [.addState key]) = names calls := by
    rw [names, List.filterMap_append]
    exact List.append_nil _
  -- whatever was marked or led to was mentioned, so it has a number already
  have hinitial : (marked (calls ++ [.addState key])).map (number (calls ++ [.addState key])) =
      (marked calls).map (number calls) := by
    rw [marked_concat_addState]
    exact List.map_congr_left fun k hk => number_concat_addState (contains_of_mem_marked hk)
  have hdraft : draft (calls ++ [.addState key]) = draft calls :=
    funext (draft_concat_addState calls key)
  rw [mention, hfind, collected, collected, hnames, hinitial, hdraft, number,
    keys_concat_addState]
  cases hkey : (keys calls).contains key with
  | true => simp [Option.guard, idxOf_lt_length hkey]
  | false =>
    simp [Option.guard, idxOf_eq_length_of_not_contains hkey, idxOf_concat_of_not_contains hkey,
      draft_eq_of_not_contains hkey]

/-- **Calls with the same keys** differ in what they collect for one of them only. -/
theorem modify_collected (sets : Nat) (key : κ) {f : StateDraft κ → StateDraft κ} {c : Call κ}
    (hkeys : keys (calls ++ [c]) = keys (calls ++ more))
    (hdraft : ∀ k, draft (calls ++ [c]) k =
      if k == key then f (draft (calls ++ more) k) else draft (calls ++ more) k) :
    (collected (calls ++ more) sets).states.modify (number (calls ++ more) key) f =
      (collected (calls ++ [c]) sets).states := by
  refine (modify_idxOf (pairwise_eraseDups _) _ f).trans ?_
  rw [collected, hkeys]
  exact congrArg List.toArray (List.map_congr_left fun k _ => (hdraft k).symm)

theorem setIdentity_collected (calls : List (Call κ)) (sets : Nat) (key : κ) (identity : Int) :
    (collected calls sets).setIdentity key identity =
      collected (calls ++ [.setIdentity key identity]) sets := by
  have hkeys : keys (calls ++ [.setIdentity key identity]) = keys (calls ++ [.addState key]) :=
    keys_append_congr rfl
  have hmodify := modify_collected sets key
    (f := fun s => { s with identity := some identity }) hkeys fun k => by
      simp only [draft, identity?, additions, transitionDraft_congr hkeys, List.filterMap_append]
      split <;> simp_all
  rw [setIdentity, mention_collected]
  dsimp only
  rw [hmodify]
  simp [collected, names, marked, number, hkeys]

/-- A key that is mentioned has the number of an initial state if it was marked. -/
theorem number_mem_initial (calls : List (Call κ)) (sets : Nat) (key : κ) :
    number (calls ++ [.addState key]) key ∈ (collected (calls ++ [.addState key]) sets).initial ↔
      (marked calls).contains key = true := by
  rw [collected, marked_concat_addState, List.contains_iff_exists_mem_beq, List.mem_map]
  refine exists_congr fun k => and_congr_right fun hk => ?_
  have hkey : (keys (calls ++ [.addState key])).contains key = true :=
    contains_keys (List.mem_append_right calls List.mem_cons_self) List.mem_cons_self
  rw [← marked_concat_addState calls key] at hk
  exact eq_comm.trans (idxOf_inj hkey (contains_of_mem_marked hk))

theorem markInitial_collected (calls : List (Call κ)) (sets : Nat) (key : κ) :
    (collected calls sets).markInitial key = collected (calls ++ [.markInitial key]) sets := by
  have hkeys : keys (calls ++ [.markInitial key]) = keys (calls ++ [.addState key]) :=
    keys_append_congr rfl
  have hdraft (k : κ) : draft (calls ++ [.markInitial key]) k =
      draft (calls ++ [.addState key]) k := by
    simp [draft, identity?, additions, transitionDraft_congr hkeys]
  have hmarked : marked (calls ++ [.markInitial key]) =
      if (marked calls).contains key then marked calls else marked calls ++ [key] := by
    rw [marked, List.filterMap_append, marked, contains_eraseDups]
    exact eraseDups_concat _ key
  rw [markInitial, mention_collected]
  dsimp only
  by_cases hk : (marked calls).contains key = true
  · rw [if_pos ((number_mem_initial calls sets key).2 hk)]
    simp [collected, names, number, hkeys, hdraft, hmarked, hk, marked_concat_addState]
  · rw [if_neg (mt (number_mem_initial calls sets key).1 hk)]
    simp [collected, names, number, hkeys, hdraft, hmarked, hk, marked_concat_addState]

theorem addTransition_collected (calls : List (Call κ)) (sets : Nat) (source : κ)
    (pos neg acceptance : IndexSet) (target : κ) :
    (collected calls sets).addTransition source pos neg acceptance target =
      collected (calls ++ [.addTransition source pos neg acceptance target]) sets := by
  have hkeys : keys (calls ++ [.addTransition source pos neg acceptance target]) =
      keys (calls ++ [.addState source, .addState target]) :=
    keys_append_congr rfl
  have hmodify := modify_collected sets source
    (f := fun s => { s with
      transitions := s.transitions.push
        ⟨number (calls ++ [.addState source, .addState target]) target, pos, neg, acceptance⟩ })
    hkeys fun k => by
      simp only [draft, identity?, additions, transitionDraft_congr hkeys, List.filterMap_append]
      split <;> simp_all [transitionDraft]
  have hsource : number (calls ++ [.addState source]) source =
      number (calls ++ [.addState source, .addState target]) source := by
    have hmentioned : (keys (calls ++ [.addState source])).contains source = true :=
      contains_keys (List.mem_append_right calls List.mem_cons_self) List.mem_cons_self
    rw [← number_concat_addState hmentioned, List.append_assoc, List.singleton_append]
  rw [addTransition, mention_collected]
  dsimp only
  rw [mention_collected, List.append_assoc, List.singleton_append]
  dsimp only
  rw [hsource, hmodify]
  simp [collected, names, marked, number, hkeys]

/-- **A call collects what it says**, and a build collects nothing. -/
theorem apply_collected (calls : List (Call κ)) (sets : Nat) (c : Call κ) :
    c.apply (collected calls sets) = collected (calls ++ [c]) sets := by
  cases c with
  | addProposition name =>
    have hkeys : keys (calls ++ [.addProposition name]) = keys calls := by
      simp [keys, Call.mentions]
    have hdraft (k : κ) : draft (calls ++ [.addProposition name]) k = draft calls k := by
      simp [draft, identity?, additions, transitionDraft_congr hkeys]
    simp [Call.apply, Builder.addProposition, collected, names, marked, number, hkeys, hdraft]
  | addState key => exact congrArg Prod.snd (mention_collected calls sets key)
  | setIdentity key identity => exact setIdentity_collected calls sets key identity
  | markInitial key => exact markInitial_collected calls sets key
  | addTransition source pos neg acceptance target =>
    exact addTransition_collected calls sets source pos neg acceptance target
  | build =>
    have hkeys : keys (calls ++ [.build]) = keys calls := by simp [keys, Call.mentions]
    have hdraft (k : κ) : draft (calls ++ [.build]) k = draft calls k := by
      simp [draft, identity?, additions, transitionDraft_congr hkeys]
    simp [Call.apply, collected, names, marked, number, hkeys, hdraft]

/-- **After any calls** a builder is what they come to. -/
theorem foldl_apply (sets : Nat) (calls : List (Call κ)) :
    calls.foldl Call.apply (.empty sets) = collected calls sets := by
  induction calls using List.reverseRecOn with
  | nil => rfl
  | append_singleton calls c ih =>
    rw [List.foldl_append, ih, List.foldl_cons, List.foldl_nil, apply_collected]

omit [EquivBEq κ] in
/-- Builds answer in order. -/
theorem answers_append (b : Builder κ) (calls more : List (Call κ)) :
    Calls.answers b (calls ++ more) =
      Calls.answers b calls ++ Calls.answers (calls.foldl Call.apply b) more := by
  induction calls generalizing b with
  | nil => rfl
  | cons c calls ih =>
    rw [List.cons_append, Calls.answers, Calls.answers, ih, List.append_assoc, List.foldl_cons]

omit [EquivBEq κ] in
/-- Calls only collect. -/
theorem Collected.foldl_apply {b : Builder κ} (h : b.Collected) (calls : List (Call κ)) :
    (calls.foldl Call.apply b).Collected := by
  induction calls generalizing b with
  | nil => exact h
  | cons c calls ih =>
    refine ih ?_
    cases c with
    | addProposition name => exact h.addProposition name
    | addState key => exact h.addState key
    | setIdentity key identity => exact h.setIdentity key identity
    | markInitial key => exact h.markInitial key
    | addTransition source pos neg acceptance target =>
      exact h.addTransition source pos neg acceptance target
    | build => exact h

end Builder

end OmegaAutomata
