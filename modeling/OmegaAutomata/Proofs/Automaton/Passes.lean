/-
# Passes keep the languages

`WellFormed` is what every pass can rely on and leaves behind: the arena is valid,
its live states only lead to live states, and the initial state is the oldest one.
`Keeps` compares an automaton after some passes with the one before: it accepts the
same words, and so does every state that is left.

A minimization is made of the other passes, so all that comes up while passes run is
described by `ComesUp`.  Each of the three passes keeps an automaton well-formed and its
languages the same, and so does every sequence of them (`WellFormed.comesUp`).
-/

import OmegaAutomata.Automaton.Minimize
import OmegaAutomata.Proofs.Arena.Classify
import OmegaAutomata.Proofs.Arena.Merge
import OmegaAutomata.Proofs.Automaton.Language

namespace OmegaAutomata

/-! ### Fresh display ids -/

namespace Arena

variable {a b : Arena}

/-- Display ids have nothing to do with languages. -/
theorem Valid.separateEach (h : a.Valid) (htidy : a.Tidy) {ids : List StateId} {last last' : Int}
    (hb : separateEach ids last a = .ok (last', b)) (k : Nat) :
    b.Valid ∧ b.Tidy ∧ Keeps k a b ∧ KeepsCounters a b ∧ b.live = a.live := by
  induction ids generalizing a last with
  | nil =>
    cases hb
    exact ⟨h, htidy, .refl k _, .refl _, rfl⟩
  | cons id older ih =>
    rw [Arena.separateEach] at hb
    obtain ⟨s, hs, hb⟩ := bind_eq_ok.1 hb
    obtain ⟨states, hstates, hb⟩ := bind_eq_ok.1 hb
    obtain ⟨⟨next, identity⟩, hidentity, hb⟩ := bind_eq_ok.1 hb
    have hf : ∀ t : State, ({ t with identity := identity } : State).transitions = t.transitions :=
      fun _ => rfl
    have hvalid := h.modify hf fun t ht hflex => h.transient id t ht hflex
    obtain ⟨hkeeps, hcounters⟩ : Keeps k a (a.modify id fun t => { t with identity := identity }) ∧
        KeepsCounters a _ := keeps_modify hf fun _ => rfl
    obtain ⟨hvalid', htidy', hkeeps', hcounters', hlive⟩ := ih hvalid (htidy.modify hf) hb
    exact ⟨hvalid', htidy', hkeeps.trans hkeeps', hcounters.trans hcounters', hlive⟩

end Arena

namespace Automaton

variable {b c d : Automaton} {k : Nat} {i x : StateId}

/-- What holds of an automaton between two passes. -/
structure WellFormed (b : Automaton) : Prop where
  valid : b.arena.Valid
  tidy : b.arena.Tidy
  initial : b.initial = none ∧ b.arena.live = [] ∨
    ∃ i rest, b.initial = some i ∧ b.arena.live = i :: rest

/-- Whether `c` accepts what `b` accepts, and each state of it what it accepted in `b`. -/
structure Keeps (b c : Automaton) : Prop where
  accept_eq : c.accept = b.accept
  arena : Arena.Keeps b.accept b.arena c.arena
  accepts : ∀ w, c.Accepts w ↔ b.Accepts w

theorem Keeps.refl (b : Automaton) : Keeps b b :=
  ⟨rfl, .refl _ _, fun _ => Iff.rfl⟩

theorem Keeps.trans (hbc : Keeps b c) (hcd : Keeps c d) : Keeps b d where
  accept_eq := hcd.accept_eq.trans hbc.accept_eq
  arena := hbc.arena.trans (hbc.accept_eq ▸ hcd.arena)
  accepts w := (hcd.accepts w).trans (hbc.accepts w)

/-- The initial state is live. -/
theorem WellFormed.live_initial (h : b.WellFormed) (hi : b.initial = some i) :
    ∃ s, b.arena.LiveAt i s := by
  rcases h.initial with ⟨hnone, -⟩ | ⟨j, rest, hj, hlive⟩
  · rw [hnone] at hi
    contradiction
  · cases hi.symm.trans hj
    exact (h.valid.mem_live i).1 (hlive ▸ List.mem_cons_self)

/-- The oldest state stays the oldest one as long as it is live. -/
theorem live_eq_cons {l m : List StateId} {rest : List StateId} (hl : l = i :: rest)
    (hnodup : l.Nodup) (hm : m.Sublist l) (hi : i ∈ m) : ∃ rest', m = i :: rest' := by
  subst hl
  cases hm with
  | cons _ hm => exact absurd (hm.subset hi) (List.nodup_cons.1 hnodup).1
  | cons_cons _ _ => exact ⟨_, rfl⟩

/-- **A changed arena makes a well-formed automaton** if the initial state stays, or accepted
nothing and then no state is left. -/
theorem WellFormed.replace (h : b.WellFormed) {a : Arena} (hvalid : a.Valid) (htidy : a.Tidy)
    (hkeeps : Arena.Keeps b.accept b.arena a)
    (hinitial : ∀ i, b.initial = some i → Arena.Stays b.accept i b.arena a)
    (hc : c.arena = a) (haccept : c.accept = b.accept)
    (hci : c.initial = b.initial.filter fun id => a.isLive id)
    (hempty : c.initial = none → a.live = []) : c.WellFormed ∧ Keeps b c := by
  subst hc
  have hlanguage (i : StateId) (hi : c.initial = some i) (w : Word) :
      c.AcceptsFrom i w ↔ b.AcceptsFrom i w := by
    rw [hci, Option.filter_eq_some_iff] at hi
    obtain ⟨s, hs⟩ := Arena.isLive_iff.1 hi.2
    rw [acceptsFrom_iff htidy, acceptsFrom_iff h.tidy, haccept]
    exact hkeeps.accepts i s hs w
  refine ⟨⟨hvalid, htidy, ?_⟩, haccept, hkeeps, fun w => ?_⟩
  · cases hi : c.initial with
    | none => exact .inl ⟨rfl, hempty hi⟩
    | some i =>
      rw [hci, Option.filter_eq_some_iff] at hi
      rcases h.initial with ⟨hnone, -⟩ | ⟨j, rest, hj, hlive⟩
      · rw [hnone] at hi
        exact absurd hi.1 (by simp)
      · cases hi.1.symm.trans hj
        obtain ⟨rest', hrest'⟩ := live_eq_cons hlive h.valid.live_nodup hkeeps.sublist
          ((hvalid.mem_live i).2 (Arena.isLive_iff.1 hi.2))
        exact .inr ⟨i, rest', rfl, hrest'⟩
  · constructor
    · rintro ⟨i, hi, hacc⟩
      have hbi := hi
      rw [hci, Option.filter_eq_some_iff] at hbi
      exact ⟨i, hbi.1, (hlanguage i hi w).1 hacc⟩
    · rintro ⟨i, hi, hacc⟩
      rcases hinitial i hi with hlive | hnothing
      · have hi' : c.initial = some i := by
          rw [hci, Option.filter_eq_some_iff]
          exact ⟨hi, Arena.isLive_iff.2 hlive⟩
        exact ⟨i, hi', (hlanguage i hi' w).2 hacc⟩
      · exact absurd ((acceptsFrom_iff h.tidy).1 hacc) (hnothing w)

/-- The same when nothing happens to the initial state. -/
theorem WellFormed.replace_of_live (h : b.WellFormed) {a : Arena} (hvalid : a.Valid)
    (htidy : a.Tidy) (hkeeps : Arena.Keeps b.accept b.arena a)
    (hlive : ∀ i s, b.initial = some i → b.arena.LiveAt i s → ∃ t, a.LiveAt i t)
    (hc : c.arena = a) (haccept : c.accept = b.accept) (hci : c.initial = b.initial) :
    c.WellFormed ∧ Keeps b c := by
  have hinitial (i : StateId) (hi : b.initial = some i) : ∃ t, a.LiveAt i t := by
    obtain ⟨s, hs⟩ := h.live_initial hi
    exact hlive i s hi hs
  refine h.replace hvalid htidy hkeeps (fun i hi => .inl (hinitial i hi)) hc haccept ?_
    fun hnone => ?_
  · rw [hci]
    cases hi : b.initial with
    | none => rfl
    | some i =>
      have hlive : a.isLive i = true := Arena.isLive_iff.2 (hinitial i hi)
      simp [Option.filter, hlive]
  · rw [hci] at hnone
    rcases h.initial with ⟨-, hnil⟩ | ⟨i, rest, hi, -⟩
    · exact List.sublist_nil.1 (hnil ▸ hkeeps.sublist)
    · rw [hi] at hnone
      contradiction

/-! ### The passes -/

theorem WellFormed.dropSubsumed (h : b.WellFormed) :
    b.dropSubsumed.2.WellFormed ∧ Keeps b b.dropSubsumed.2 := by
  obtain ⟨hvalid, htidy, hkeeps⟩ := h.valid.dropSubsumed b.accept
  have hrewires : Arena.Rewires Transition.prune b.arena b.arena.dropSubsumed.2 :=
    h.valid.rewires_mapTransitions _
  exact h.replace_of_live hvalid (htidy h.tidy) hkeeps
    (fun i s _ hs => ⟨_, hrewires.liveAt_iff.2 ⟨s, hs, rfl⟩⟩) rfl rfl rfl

/-- What `classify` did if it did not fail. -/
theorem classify_eq_ok {n : Nat} (hc : b.classify = .ok (n, c)) :
    ∃ a, b.arena.classify b.initial = .ok (n, a) ∧
      refreshInitial { b with arena := a.sweepNow } = c := by
  obtain ⟨⟨m, a⟩, ha, hc⟩ := bind_eq_ok.1 hc
  obtain ⟨d, hd, hc⟩ := bind_eq_ok.1 hc
  cases hc
  exact ⟨a, ha, by rw [Arena.eq_sweepNow hd]⟩

/-- What `clearWithoutInitial` did if it did not fail. -/
theorem clearWithoutInitial_eq_ok {n : Nat} (hc : b.clearWithoutInitial = .ok (n, c)) :
    (b.initial.isSome = true ∧ b = c) ∨ (b.initial = none ∧
      ∃ a, b.arena.retireAll b.arena.live = .ok a ∧ { b with arena := a.sweepNow } = c) := by
  rw [clearWithoutInitial] at hc
  split at hc
  · rename_i hsome
    cases hc
    exact .inl ⟨hsome, rfl⟩
  · rename_i hnone
    obtain ⟨a, ha, hc⟩ := bind_eq_ok.1 hc
    obtain ⟨d, hd, hc⟩ := bind_eq_ok.1 hc
    cases hc
    exact .inr ⟨Option.not_isSome_iff_eq_none.1 hnone, a, ha, by rw [Arena.eq_sweepNow hd]⟩

theorem WellFormed.classify (h : b.WellFormed) {n : Nat} (hc : b.classify = .ok (n, c)) :
    c.WellFormed ∧ Keeps b c := by
  obtain ⟨a, ha, rfl⟩ := classify_eq_ok hc
  obtain ⟨hvalid, htidy, hkeeps, -, hlive⟩ := h.valid.classify h.tidy ha b.accept
  have hswept := hvalid.redirects_sweepNow htidy b.initial
  have hinitial (i : StateId) (s : State) (hi : b.initial = some i) (hs : b.arena.LiveAt i s) :
      ∃ t, a.sweepNow.LiveAt i t := by
    obtain ⟨t, ht⟩ := hlive i s hi hs
    exact hswept.spared_live i t hi ht
  refine h.replace_of_live hswept.valid (hvalid.tidy_sweepNow htidy)
    (hkeeps.trans (hswept.keeps b.accept)) hinitial rfl rfl ?_
  cases hi : b.initial with
  | none => simp [refreshInitial]
  | some i =>
    obtain ⟨s, hs⟩ := h.live_initial hi
    have hlive := Arena.isLive_iff.2 (hinitial i s hi hs)
    simp [refreshInitial, Option.filter, hlive]

/-- Clearing an automaton leaves a valid arena without live states. -/
theorem live_of_clear {a a' : Arena} (hvalid : a.Valid) (ha : a.retireAll a.live = .ok a') :
    a'.sweepNow.Valid ∧ a'.sweepNow.Tidy ∧ a'.sweepNow.live = [] ∧
      ∀ x s, ¬a'.sweepNow.LiveAt x s := by
  obtain ⟨hvalid', hlive, hfilter, -⟩ := hvalid.retireAll ha
  have hnone (x : StateId) (s : State) : ¬a'.LiveAt x s := fun hs =>
    ((hlive x s).1 hs).1 ((hvalid.mem_live x).2 ⟨s, ((hlive x s).1 hs).2⟩)
  have htidy : a'.Tidy := fun x s hs => absurd hs (hnone x s)
  refine ⟨hvalid'.sweepNow htidy, hvalid'.tidy_sweepNow htidy, ?_,
    fun x s hs => hnone x s (hvalid'.liveAt_sweepNow.1 hs)⟩
  rw [Arena.sweepNow_live, hfilter]
  simp

/-- An automaton that lost its initial state loses the others as well, and accepted nothing. -/
theorem WellFormed.clear (h : b.WellFormed) {a : Arena} (hvalid : a.Valid) (htidy : a.Tidy)
    (hkeeps : Arena.Keeps b.accept b.arena a)
    (hstays : ∀ i, b.initial = some i → Arena.Stays b.accept i b.arena a) {n : Nat}
    (hc : clearWithoutInitial (refreshInitial { b with arena := a }) = .ok (n, c)) :
    (c.WellFormed ∧ Keeps b c) ∧ Arena.KeepsCounters a c.arena := by
  rcases clearWithoutInitial_eq_ok hc with ⟨hsome, rfl⟩ | ⟨hnone, a', ha', rfl⟩
  · refine ⟨h.replace hvalid htidy hkeeps hstays rfl rfl rfl fun hnone => ?_, .refl a⟩
    rw [hnone] at hsome
    contradiction
  · have hnone : b.initial.filter (fun id => a.isLive id) = none := hnone
    obtain ⟨hvalid', htidy', hnil, hgone⟩ := live_of_clear hvalid ha'
    have hkeeps' : Arena.Keeps b.accept b.arena a'.sweepNow :=
      ⟨hnil ▸ List.nil_sublist _, fun x s hs => absurd hs (hgone x s),
        fun x s hs => absurd hs (hgone x s)⟩
    refine ⟨h.replace hvalid' htidy' hkeeps' (fun i hi => .inr ?_) rfl rfl ?_ fun _ => hnil,
      fun x s hs => absurd hs (hgone x s)⟩
    · rcases hstays i hi with hlive | hnothing
      · rw [hi] at hnone
        exact absurd (Arena.isLive_iff.2 hlive) (by simpa [Option.filter] using hnone)
      · exact hnothing
    · refine hnone.trans ?_
      cases b.initial with
      | none => rfl
      | some i =>
        have hdead : a'.sweepNow.isLive i = false :=
          Bool.eq_false_iff.2 fun hlive => (Arena.isLive_iff.1 hlive).elim (hgone i)
        simp [Option.filter, hdead]

/-- Telling states apart keeps everything. -/
theorem WellFormed.separate (h : b.WellFormed) {last : Int} {a : Arena}
    (ha : b.arena.separate b.lastIdentity = .ok (last, a)) (hc : c.arena = a)
    (haccept : c.accept = b.accept) (hci : c.initial = b.initial) :
    (c.WellFormed ∧ Keeps b c) ∧ Arena.KeepsCounters b.arena a := by
  obtain ⟨hvalid, htidy, hkeeps, hcounters, hlive⟩ := h.valid.separateEach h.tidy ha b.accept
  refine ⟨h.replace_of_live hvalid htidy hkeeps (fun i s _ hs => ?_) hc haccept hci, hcounters⟩
  exact (hvalid.mem_live i).1 (hlive ▸ (h.valid.mem_live i).2 ⟨s, hs⟩)

/-- **Merging keeps everything**; after the visits to the states it changes no counter. -/
theorem WellFormed.mergeStates (h : b.WellFormed) {n : Nat} (hc : b.mergeStates = .ok (n, c)) :
    (c.WellFormed ∧ Keeps b c) ∧ ∃ m a, Arena.mergeEach b.accept b.arena.live.reverse b.arena =
      .ok (m, a) ∧ Arena.KeepsCounters a c.arena := by
  rw [Automaton.mergeStates] at hc
  obtain ⟨⟨merged, a₁⟩, ha₁, hc⟩ := bind_eq_ok.1 hc
  obtain ⟨⟨dead, a₂⟩, ha₂, hc⟩ := bind_eq_ok.1 hc
  obtain ⟨⟨cleared, d⟩, hd, hc⟩ := bind_eq_ok.1 hc
  obtain ⟨⟨last, a₃⟩, ha₃, hc⟩ := bind_eq_ok.1 hc
  cases hc
  obtain ⟨hvalid, hkeeps, hstays⟩ := h.valid.mergeEach ha₁
  obtain ⟨hr, htidy⟩ := hvalid.redirect ha₂
  have hinitial (i : StateId) (hi : b.initial = some i) : Arena.Stays b.accept i b.arena a₂ := by
    rcases h.initial with ⟨hnone, -⟩ | ⟨j, rest, hj, hlive⟩
    · rw [hnone] at hi
      contradiction
    · cases hi.symm.trans hj
      exact (hstays i rest hlive).trans hkeeps fun t ht => hr.stays _ i t ht
  obtain ⟨⟨hdwf, hdkeeps⟩, hdcounters⟩ :=
    h.clear hr.valid htidy (hkeeps.trans (hr.keeps b.accept)) hinitial hd
  obtain ⟨⟨hwf, hkeeps'⟩, hcounters⟩ :=
    hdwf.separate (c := { d with arena := a₃, lastIdentity := last }) ha₃ rfl rfl rfl
  exact ⟨⟨hwf, hdkeeps.trans hkeeps'⟩, merged, a₁, ha₁,
    (hr.counters.trans hdcounters).trans hcounters⟩

/-! ### Sequences of passes -/

/-- `c` comes up while passes run on `b`: one pass after another leads there.  A minimization goes
through the other passes and is none of its own. -/
inductive ComesUp (b : Automaton) : Automaton → Prop where
  | start : ComesUp b b
  | dropSubsumed {c : Automaton} : ComesUp b c → ComesUp b c.dropSubsumed.2
  | classify {c d : Automaton} {n : Nat} :
      ComesUp b c → c.classify = .ok (n, d) → ComesUp b d
  | mergeStates {c d : Automaton} {n : Nat} :
      ComesUp b c → c.mergeStates = .ok (n, d) → ComesUp b d

theorem ComesUp.trans (hbc : ComesUp b c) (hcd : ComesUp c d) : ComesUp b d := by
  induction hcd with
  | start => exact hbc
  | dropSubsumed _ ih => exact ih.dropSubsumed
  | classify _ hd ih => exact ih.classify hd
  | mergeStates _ hd ih => exact ih.mergeStates hd

/-- **What a round is made of**: subsumed transitions are dropped, the states are classified if this
is asked for, and merged. -/
theorem minimizeRound_eq_ok {refine : Bool} {n m : Nat} :
    b.minimizeRound refine = .ok (n, m, d) ↔ ∃ u c v,
      (if refine then b.dropSubsumed.2.classify else .ok (0, b.dropSubsumed.2)) = .ok (u, c) ∧
        c.mergeStates = .ok (v, d) ∧ b.dropSubsumed.1 = n ∧ u + v = m := by
  have hmerge (u : Nat) (c : Automaton) : (c.mergeStates >>= fun r =>
      pure (b.dropSubsumed.1, u + r.1, r.2) : Except Fault _) = .ok (n, m, d) ↔
        ∃ v, c.mergeStates = .ok (v, d) ∧ b.dropSubsumed.1 = n ∧ u + v = m := by
    rw [bind_eq_ok, Prod.exists]
    simp only [pure_eq_ok, Except.ok.injEq, Prod.mk.injEq]
    constructor
    · rintro ⟨v, e, he, rfl, rfl, rfl⟩
      exact ⟨v, he, rfl, rfl⟩
    · rintro ⟨v, he, rfl, rfl⟩
      exact ⟨v, d, he, rfl, rfl, rfl⟩
  rw [Automaton.minimizeRound]
  cases refine with
  | false => simpa using hmerge 0 b.dropSubsumed.2
  | true =>
    show (b.dropSubsumed.2.classify >>= fun r => r.2.mergeStates >>= fun q =>
      pure (b.dropSubsumed.1, r.1 + q.1, q.2) : Except Fault _) = _ ↔ _
    rw [bind_eq_ok, Prod.exists]
    simp only [hmerge, if_true, exists_and_left]

theorem ComesUp.minimizeRound (h : ComesUp b c) {refine : Bool} {n m : Nat}
    (hd : c.minimizeRound refine = .ok (n, m, d)) : ComesUp b d := by
  obtain ⟨u, e, v, he, hmerge, -, -⟩ := minimizeRound_eq_ok.1 hd
  cases refine with
  | false =>
    cases he
    exact h.dropSubsumed.mergeStates hmerge
  | true => exact (h.dropSubsumed.classify he).mergeStates hmerge

theorem ComesUp.minimizeRounds (h : ComesUp b c) {refine : Bool} {bound : Nat}
    {stats stats' : MinimizeStats} (hd : minimizeRounds refine bound stats c = .ok (stats', d)) :
    ComesUp b d := by
  induction bound generalizing c stats with
  | zero =>
    cases hd
    exact h
  | succ bound ih =>
    rw [Automaton.minimizeRounds] at hd
    obtain ⟨⟨dropped, gone, c'⟩, hc', hd⟩ := bind_eq_ok.1 hd
    dsimp only at hd
    split at hd
    · cases hd
      exact h.minimizeRound hc'
    · exact ih (h.minimizeRound hc') hd

/-- **All passes are made of three.** -/
theorem ComesUp.run (h : ComesUp b c) {p : Pass} (hd : p.run c = .ok d) : ComesUp b d := by
  cases p with
  | subsumption =>
    cases hd
    exact h.dropSubsumed
  | components =>
    obtain ⟨⟨n, c'⟩, hc', hd⟩ := bind_eq_ok.1 hd
    cases hd
    exact h.classify hc'
  | merging =>
    obtain ⟨⟨n, c'⟩, hc', hd⟩ := bind_eq_ok.1 hd
    cases hd
    exact h.mergeStates hc'
  | minimization refine =>
    obtain ⟨⟨stats, c'⟩, hc', hd⟩ := bind_eq_ok.1 hd
    cases hd
    exact h.minimizeRounds hc'

theorem runPasses_cons {p : Pass} {passes : List Pass} :
    b.runPasses (p :: passes) = .ok d ↔ ∃ c, p.run b = .ok c ∧ c.runPasses passes = .ok d := by
  rw [runPasses, List.foldlM_cons, bind_eq_ok]
  rfl

theorem comesUp_of_runPasses {passes : List Pass} (hc : b.runPasses passes = .ok c) :
    ComesUp b c :=
  foldlM_induction (P := fun _ => ComesUp b) hc .start fun _ _ _ _ h hd => h.run hd

/-- **Passes keep the languages**, in every order. -/
theorem WellFormed.comesUp (h : b.WellFormed) (hc : ComesUp b c) : c.WellFormed ∧ Keeps b c := by
  induction hc with
  | start => exact ⟨h, .refl b⟩
  | dropSubsumed _ ih =>
    obtain ⟨hwf, hkeeps⟩ := ih.1.dropSubsumed
    exact ⟨hwf, ih.2.trans hkeeps⟩
  | classify _ hd ih =>
    obtain ⟨hwf, hkeeps⟩ := ih.1.classify hd
    exact ⟨hwf, ih.2.trans hkeeps⟩
  | mergeStates _ hd ih =>
    obtain ⟨⟨hwf, hkeeps⟩, -⟩ := ih.1.mergeStates hd
    exact ⟨hwf, ih.2.trans hkeeps⟩

/-- A state that is left accepts what it accepted before. -/
theorem Keeps.acceptsFrom_iff (h : Keeps b c) (hb : b.WellFormed) (hc : c.WellFormed)
    (hx : c.arena.isLive x = true) (w : Word) : c.AcceptsFrom x w ↔ b.AcceptsFrom x w := by
  obtain ⟨s, hs⟩ := Arena.isLive_iff.1 hx
  rw [Automaton.acceptsFrom_iff hc.tidy, Automaton.acceptsFrom_iff hb.tidy, h.accept_eq]
  exact h.arena.accepts x s hs w

end Automaton

end OmegaAutomata
