/-
# What passes are made of

A minimization goes through the other passes, a few of them in every round.  `parts` spells out
what passes come to when they run on an automaton: a sequence of passes none of which is a
minimization, and which does the same (`runPasses_parts`).

Of these, only merging changes the pair of a state, and only if it overwrites a counter by a
different one (`Recounts`).  So a property that persists is kept by all passes as long as this does
it no harm (`Arena.Persists.runPasses`).  States stay filed under their pairs in any case
(`Arena.Filed.comesUp`): what is overwritten is a counter only, and not the pair that a state was
created for.
-/

import OmegaAutomata.Proofs.Arena.Filing
import OmegaAutomata.Proofs.Automaton.Consistency

namespace OmegaAutomata

namespace Automaton

variable {b c d : Automaton} {n m bound : Nat} {refine : Bool} {stats stats' : MinimizeStats}
  {passes more : List Pass} {P : Arena → Prop} {pair : StateId → Node}

/-! ### Minimizations spelled out -/

/-- The passes of a round of a minimization. -/
def roundPasses (refine : Bool) : List Pass :=
  if refine then [.subsumption, .components, .merging] else [.subsumption, .merging]

theorem runPasses_append : b.runPasses (passes ++ more) = .ok d ↔
    ∃ c, b.runPasses passes = .ok c ∧ c.runPasses more = .ok d := by
  rw [runPasses, List.foldlM_append, bind_eq_ok]
  rfl

theorem runPasses_round (h : b.minimizeRound refine = .ok (n, m, c)) :
    b.runPasses (roundPasses refine) = .ok c := by
  obtain ⟨u, e, v, he, hc, -, -⟩ := minimizeRound_eq_ok.1 h
  have hmerge : e.runPasses [.merging] = .ok c :=
    runPasses_cons.2 ⟨c, by rw [Pass.run, hc, bind_ok]; rfl, rfl⟩
  cases refine with
  | false =>
    cases he
    exact runPasses_cons.2 ⟨b.dropSubsumed.2, rfl, hmerge⟩
  | true =>
    have hclassify : Pass.run b.dropSubsumed.2 .components = .ok e := by
      rw [if_pos rfl] at he
      rw [Pass.run, he, bind_ok]
      rfl
    exact runPasses_cons.2 ⟨b.dropSubsumed.2, rfl, runPasses_cons.2 ⟨e, hclassify, hmerge⟩⟩

/-- **A minimization is made of its rounds**, of which it reports the number. -/
theorem runPasses_rounds (h : minimizeRounds refine bound stats b = .ok (stats', c)) :
    ∃ r, stats'.rounds = stats.rounds + r ∧
      b.runPasses (List.replicate r (roundPasses refine)).flatten = .ok c := by
  induction bound generalizing b stats with
  | zero =>
    cases h
    exact ⟨0, rfl, rfl⟩
  | succ bound ih =>
    rw [minimizeRounds] at h
    obtain ⟨⟨dropped, gone, e⟩, he, h⟩ := bind_eq_ok.1 h
    have hround := runPasses_round he
    dsimp only at h
    split at h
    · cases h
      exact ⟨1, rfl, by simpa using hround⟩
    · obtain ⟨r, hr, hrounds⟩ := ih h
      refine ⟨r + 1, by rw [hr]; dsimp only; omega, ?_⟩
      rw [List.replicate_succ, List.flatten_cons]
      exact runPasses_append.2 ⟨e, hround, hrounds⟩

/-- The passes that a pass is made of when it runs on an automaton. -/
def Pass.parts (b : Automaton) : Pass → List Pass
  | .minimization refine =>
    match b.minimize refine with
    | .ok (stats, _) => (List.replicate stats.rounds (roundPasses refine)).flatten
    | .error _ => []
  | p => [p]

/-- The passes that a sequence of passes is made of. -/
def parts (b : Automaton) : List Pass → List Pass
  | [] => []
  | p :: passes => p.parts b ++
    match p.run b with
    | .ok c => parts c passes
    | .error _ => []

theorem Pass.ne_minimization_of_mem_parts {p q : Pass} (hq : q ∈ p.parts b) (refine : Bool) :
    q ≠ .minimization refine := by
  rintro rfl
  cases p with
  | minimization r =>
    unfold parts at hq
    dsimp only at hq
    split at hq
    · obtain ⟨ps, hps, hmem⟩ := List.mem_flatten.1 hq
      rw [List.eq_of_mem_replicate hps] at hmem
      cases r <;> simp [roundPasses] at hmem
    · exact absurd hq List.not_mem_nil
  | _ => simp [parts] at hq

theorem Pass.runPasses_parts {p : Pass} (h : p.run b = .ok c) :
    b.runPasses (p.parts b) = .ok c := by
  cases p with
  | minimization refine =>
    obtain ⟨⟨stats, d⟩, hd, h⟩ := bind_eq_ok.1 h
    cases h
    obtain ⟨r, hr, hrounds⟩ := runPasses_rounds hd
    rw [Nat.zero_add] at hr
    rw [parts, hd]
    dsimp only
    rw [hr]
    exact hrounds
  | _ => exact runPasses_cons.2 ⟨c, h, rfl⟩

/-- **The parts of passes do what the passes do**, and none of them is a minimization. -/
theorem runPasses_parts (h : b.runPasses passes = .ok c) :
    b.runPasses (b.parts passes) = .ok c ∧ ∀ p ∈ b.parts passes, ∀ r, p ≠ .minimization r := by
  induction passes generalizing b with
  | nil => exact ⟨h, fun p hp => absurd hp List.not_mem_nil⟩
  | cons p passes ih =>
    obtain ⟨d, hd, h⟩ := runPasses_cons.1 h
    obtain ⟨hrun, hparts⟩ := ih h
    rw [parts, hd]
    dsimp only
    refine ⟨runPasses_append.2 ⟨d, p.runPasses_parts hd, hrun⟩, fun q hq => ?_⟩
    rcases List.mem_append.1 hq with hq | hq
    · exact Pass.ne_minimization_of_mem_parts hq
    · exact hparts q hq

/-! ### What passes keep -/

/-- Whether merging the states of `b` overwrites a counter by a different one. -/
def Recounts (b : Automaton) : Prop :=
  ∃ id older a x s, Relation.ReflTransGen (Arena.MergeStep b.accept)
    (b.arena.live.reverse, b.arena) (id :: older, a) ∧ a.Recounts b.accept id older x s

/-- Whether a property is kept in spite of that. -/
def Tolerates (P : Arena → Prop) (b : Automaton) : Prop :=
  ∀ id older a x s, Relation.ReflTransGen (Arena.MergeStep b.accept)
    (b.arena.live.reverse, b.arena) (id :: older, a) → P a → a.Recounts b.accept id older x s →
      P (a.modify x fun t => t.absorb s)

theorem tolerates_of_not_recounts (h : ¬b.Recounts) : Tolerates P b :=
  fun id older a x s hsteps _ hx => absurd ⟨id, older, a, x, s, hsteps, hx⟩ h

theorem tolerates_filed (b : Automaton) : Tolerates (Arena.Filed pair) b :=
  fun _ _ _ _ s _ ha _ => ha.modify fun l _ => l.state.source_absorb s

/-- **Without acceptance sets** there is one counter only. -/
theorem Rooted.not_recounts (h : b.Rooted) (hwf : b.WellFormed) (haccept : b.accept = 0) :
    ¬b.Recounts := by
  rintro ⟨id, older, a, x, s, hsteps, hx⟩
  refine Arena.not_recounts_of_counter_le hwf.valid (fun y t ht => ?_) hsteps hx
  exact Nat.le_zero.1 (haccept ▸ h.counter_le y t ht)

end Automaton

namespace Arena

open Automaton

variable {b c : Automaton} {n : Nat} {passes : List Pass} {P : Arena → Prop}
  {pair : StateId → Node}

theorem Persists.clear (hP : Persists P) (hb : P b.arena)
    (hc : b.clearWithoutInitial = .ok (n, c)) : P c.arena := by
  rcases clearWithoutInitial_eq_ok hc with ⟨-, rfl⟩ | ⟨-, a, ha, rfl⟩
  · exact hb
  · exact hP.sweep a (hP.retireAll hb ha)

/-- Merging keeps what persists and tolerates it. -/
theorem Persists.mergeStates (hP : Persists P) (h : b.WellFormed) (hb : P b.arena)
    (htolerates : Tolerates P b) (hc : b.mergeStates = .ok (n, c)) : P c.arena := by
  rw [Automaton.mergeStates] at hc
  obtain ⟨⟨merged, a₁⟩, h₁, hc⟩ := bind_eq_ok.1 hc
  obtain ⟨⟨dead, a₂⟩, h₂, hc⟩ := bind_eq_ok.1 hc
  obtain ⟨⟨cleared, d⟩, h₃, hc⟩ := bind_eq_ok.1 hc
  obtain ⟨⟨last, a₃⟩, h₄, hc⟩ := bind_eq_ok.1 hc
  cases hc
  have hmerged : P a₁ := hP.mergeEach h.valid hb htolerates h₁
  have hcleared : P d.arena :=
    hP.clear (b := refreshInitial { b with arena := a₂ }) (hP.redirect hmerged h₂) h₃
  exact hP.separateEach hcleared h₄

/-- So does classification, without any condition. -/
theorem Persists.classifyStates (hP : Persists P) (hb : P b.arena)
    (hc : b.classify = .ok (n, c)) : P c.arena := by
  obtain ⟨a, ha, rfl⟩ := classify_eq_ok hc
  exact hP.sweep a (hP.classify hb ha)

/-- **States stay filed** under the pairs that they were created for, whatever passes run. -/
theorem Filed.comesUp (hb : b.arena.Filed pair) (h : b.WellFormed) (hc : ComesUp b c) :
    c.arena.Filed pair := by
  have hP := persists_filed pair
  induction hc with
  | start => exact hb
  | dropSubsumed _ ih => exact hP.mapTransitions ih _
  | classify _ hd ih => exact hP.classifyStates ih hd
  | mergeStates hc hd ih => exact hP.mergeStates (h.comesUp hc).1 ih (tolerates_filed _) hd

/-- **What persists is kept by passes**, minimizations apart, if each merging on the way is
tolerated. -/
theorem Persists.runPasses (hP : Persists P) (h : b.WellFormed) (hb : P b.arena)
    (hparts : ∀ p ∈ passes, ∀ r, p ≠ .minimization r)
    (htolerates : ∀ before after d, passes = before ++ .merging :: after →
      b.runPasses before = .ok d → Tolerates P d)
    (hc : b.runPasses passes = .ok c) : P c.arena := by
  induction passes generalizing b with
  | nil =>
    cases hc
    exact hb
  | cons p passes ih =>
    obtain ⟨d, hd, hc⟩ := runPasses_cons.1 hc
    have hwf := (h.comesUp (ComesUp.start.run hd)).1
    refine ih hwf ?_ (fun q hq => hparts q (List.mem_cons_of_mem p hq))
      (fun before after e hpasses he => htolerates (p :: before) after e
        (by rw [hpasses, List.cons_append]) (runPasses_cons.2 ⟨d, hd, he⟩)) hc
    cases p with
    | subsumption =>
      cases hd
      exact hP.mapTransitions hb _
    | components =>
      obtain ⟨⟨m, e⟩, he, hd⟩ := bind_eq_ok.1 hd
      cases hd
      exact hP.classifyStates hb he
    | merging =>
      obtain ⟨⟨m, e⟩, he, hd⟩ := bind_eq_ok.1 hd
      cases hd
      exact hP.mergeStates h hb (htolerates [] passes b rfl rfl) he
    | minimization refine => exact absurd rfl (hparts _ List.mem_cons_self refine)

end Arena

end OmegaAutomata
