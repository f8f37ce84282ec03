/-
# Never claims denote automata

A never claim is itself an automaton, whose states are the names of its blocks
(`NeverClaim.system`).  If states of an automaton with the display id of one that accepts
every word do accept every word, the never claim accepts exactly the words that the
automaton accepts (`accepts_iff`): the transitions of these states are left out, but then
they are not needed (`System.Absorbs`).

For what was minimized, the text of the never claim can be read as a list of blocks that
denotes the automaton (`neverClaim_denotes`).
-/

import OmegaAutomata.Proofs.NeverClaim.Blocks
import OmegaAutomata.Proofs.Idempotence
import OmegaAutomata.Proofs.Universal

namespace OmegaAutomata

namespace NeverClaim

/-! ### The language of a never claim -/

/-- The steps between blocks.  A block that accepts whatever comes is never left. -/
def system (bs : List Block) : System String where
  step v n m := ∃ c ∈ bs, c.name = n ∧
    ((∃ l ∈ c.body.guards m, l.holds v = true) ∨ c.body = .skip ∧ m = n)
  accepting n := n.startsWith "accept" = true ∨ ∃ c ∈ bs, c.name = n ∧ c.body = .skip

/-- Whether a never claim accepts a word: some run begins with the first block and comes to
accepting blocks again and again. -/
def Accepts (bs : List Block) (w : Word) : Prop :=
  ∃ c, bs.head? = some c ∧ (system bs).AcceptsFrom c.name w

/-- Whether a list of blocks denotes an automaton. -/
structure Denotes (bs : List Block) (b : Automaton) : Prop where
  /-- The first block is that of the initial state. -/
  first : ∀ x s, b.initial = some x → (x, s) ∈ b.states →
    ∃ c, bs.head? = some c ∧ c.name = b.stateName s
  /-- Blocks have different names. -/
  nodup : (bs.map Block.name).Nodup
  /-- Each state has a block, and each block a state. -/
  names : b.states ≠ [] → (bs.map Block.name).Perm (b.states.map fun p => b.stateName p.2)
  /-- Only without states there is a block that is not one of a state, and nothing is accepted. -/
  empty : b.states = [] → bs = [⟨"T0_init", .stuck⟩] ∧ ∀ w, ¬Accepts bs w
  /-- Blocks only go to blocks that are there. -/
  targets : ∀ c ∈ bs, ∀ n ∈ c.body.targets, ∃! d, d ∈ bs ∧ d.name = n
  /-- The blocks of accepting states are marked by their names. -/
  accepting : ∀ c ∈ bs, ∀ x s, (x, s) ∈ b.states → c.name = b.stateName s →
    (c.name.startsWith "accept" = true ↔ b.isAccepting s = true)
  /-- The guards under the name of a state are the labels of the transitions to it. -/
  guards : ∀ c ∈ bs, ∀ x s, (x, s) ∈ b.states → c.name = b.stateName s → b.isUniversal s = false →
    ∀ y t, (y, t) ∈ b.states → ∀ v, (∃ l ∈ c.body.guards (b.stateName t), l.holds v = true) ↔
      ∃ u ∈ s.transitions, u.target = y ∧ u.label.holds v = true
  /-- The languages are the same. -/
  accepts : ∀ w, Accepts bs w ↔ b.Accepts w

end NeverClaim

open NeverClaim

namespace Automaton

variable {b : Automaton} {x y : StateId} {s t : State} {bs : List Block} {c : Block}
  {v : IndexSet} {n : String} {w : Word} {P : Label → Prop}

/-- The states of an automaton when those are never left that accept every word. -/
def shortcut (b : Automaton) : System StateId where
  step v x y := ∃ s, b.arena.LiveAt x s ∧ if b.isUniversal s then y = x
    else ∃ t ∈ s.transitions, t.target = y ∧ t.label.holds v = true
  accepting x := ∃ s, b.arena.LiveAt x s ∧ b.isAccepting s = true

theorem shortcut_step_iff (hs : b.arena.LiveAt x s) : b.shortcut.step v x y ↔
    if b.isUniversal s then y = x
    else ∃ t ∈ s.transitions, t.target = y ∧ t.label.holds v = true := by
  refine ⟨?_, fun hstep => ⟨s, hs, hstep⟩⟩
  rintro ⟨t, ht, hstep⟩
  rwa [hs.unique ht]

/-- Whether a state accepts every word by its display id and marking. -/
def UniversalId (b : Automaton) (x : StateId) : Prop :=
  ∃ s, b.arena.LiveAt x s ∧ b.isUniversal s = true

/-- **Shortcuts change no language** of an honest automaton. -/
theorem Honest.acceptsFrom_shortcut (h : b.Honest P) (hwf : b.WellFormed) :
    b.shortcut.AcceptsFrom x w ↔ b.AcceptsFrom x w := by
  rw [acceptsFrom_iff hwf.tidy]
  refine System.Absorbs.acceptsFrom_iff (U := b.UniversalId) ⟨?_, ?_, ?_⟩ ?_
  · intro v x y hx
    rw [← step_iff hwf.tidy]
    constructor
    · rintro ⟨s, hs, hstep⟩
      rw [if_neg fun huniversal => hx ⟨s, hs, huniversal⟩] at hstep
      exact ⟨s, liveState?_eq_some.2 hs, hstep⟩
    · rintro ⟨s, hs, hstep⟩
      have hs := liveState?_eq_some.1 hs
      exact ⟨s, hs, by rwa [if_neg fun huniversal => hx ⟨s, hs, huniversal⟩]⟩
  · rintro v x y ⟨s, hs, huniversal⟩
    rw [shortcut_step_iff hs, if_pos huniversal]
  · intro x
    rw [← acceptingId_iff]
    constructor
    · rintro ⟨s, hs, haccepting⟩
      exact .inr ⟨s, liveState?_eq_some.2 hs, haccepting⟩
    · rintro (⟨s, hs, huniversal⟩ | ⟨s, hs, haccepting⟩)
      · exact ⟨s, hs, (Bool.and_eq_true_iff.1 huniversal).2⟩
      · exact ⟨s, liveState?_eq_some.1 hs, haccepting⟩
  · rintro x ⟨s, hs, huniversal⟩ w
    rw [← acceptsFrom_iff hwf.tidy]
    exact h.universal x s hs (beq_iff_eq.1 (Bool.and_eq_true_iff.1 huniversal).1) w

/-! ### Blocks and states -/

/-- What is needed of an automaton for its never claim to denote it: it is well-formed and rooted,
and has no two states with the same counter and display id. -/
structure Nameable (b : Automaton) : Prop where
  wellFormed : b.WellFormed
  rooted : b.Rooted
  distinct : b.arena.Distinct

namespace Nameable

/-- **A name determines a state.** -/
theorem unique (h : b.Nameable) (hs : b.arena.LiveAt x s) (ht : b.arena.LiveAt y t)
    (hname : b.stateName s = b.stateName t) : x = y ∧ s = t := by
  obtain ⟨hcounter, hidentity⟩ := stateName_inj.1 hname
  obtain rfl := h.distinct x y s t hs ht hidentity hcounter
  exact ⟨rfl, hs.unique ht⟩

theorem isTrivial_eq_false (h : b.Nameable) : isTrivial b = false :=
  h.rooted.isTrivial_eq_false h.wellFormed

/-- **Each state has a block** with what it does, and each block belongs to a state. -/
theorem mem_blocks_iff (h : b.Nameable) (hempty : b.isEmpty = false) (hbs : blocks b = .ok bs) :
    c ∈ bs ↔ ∃ x s, b.arena.LiveAt x s ∧ c.name = b.stateName s ∧ stateBody b s = .ok c.body := by
  rw [NeverClaim.mem_blocks_iff hempty h.isTrivial_eq_false hbs]
  constructor
  · rintro ⟨s, hs, hc⟩
    obtain ⟨⟨x, s⟩, hmem, rfl⟩ := List.mem_map.1 hs
    exact ⟨x, s, h.wellFormed.mem_states.1 hmem, hc⟩
  · rintro ⟨x, s, hs, hc⟩
    exact ⟨s, List.mem_map_of_mem (h.wellFormed.mem_states.2 hs), hc⟩

/-- What the block under the name of a state does. -/
theorem stateBody_eq_ok (h : b.Nameable) (hempty : b.isEmpty = false) (hbs : blocks b = .ok bs)
    (hc : c ∈ bs) (hs : b.arena.LiveAt x s) (hname : c.name = b.stateName s) :
    stateBody b s = .ok c.body := by
  obtain ⟨y, t, ht, hname', hbody⟩ := (h.mem_blocks_iff hempty hbs).1 hc
  obtain ⟨-, rfl⟩ := h.unique hs ht (hname.symm.trans hname')
  exact hbody

theorem exists_block (h : b.Nameable) (hempty : b.isEmpty = false) (hbs : blocks b = .ok bs)
    (hs : b.arena.LiveAt x s) :
    ∃ c ∈ bs, c.name = b.stateName s ∧ stateBody b s = .ok c.body := by
  have hpart := (mem_parts_iff hempty h.isTrivial_eq_false).2
    ⟨s, List.mem_map_of_mem (h.wellFormed.mem_states.2 hs), rfl⟩
  rw [parts_eq_of_blocks hbs] at hpart
  obtain ⟨c, hc, heq⟩ := List.mem_map.1 hpart
  obtain ⟨hname, hbody⟩ := Prod.mk.inj heq
  exact ⟨c, hc, hname, hbody.symm⟩

/-! ### Steps of the never claim -/

theorem exists_liveAt (h : b.Nameable) (hs : b.arena.LiveAt x s) (hstep : b.shortcut.step v x y) :
    ∃ t, b.arena.LiveAt y t := by
  obtain ⟨s', hs', hstep⟩ := hstep
  split at hstep
  · exact ⟨s, hstep ▸ hs⟩
  · obtain ⟨t, ht, rfl, -⟩ := hstep
    exact h.wellFormed.tidy x s' hs' t ht

/-- **The steps of a never claim** are those of the states that its blocks are named after. -/
theorem step_iff (h : b.Nameable) (hempty : b.isEmpty = false) (hbs : blocks b = .ok bs)
    (hs : b.arena.LiveAt x s) : (system bs).step v (b.stateName s) n ↔
      ∃ y t, b.arena.LiveAt y t ∧ b.stateName t = n ∧ b.shortcut.step v x y := by
  obtain ⟨d, hd, hname, hbody⟩ := h.exists_block hempty hbs hs
  have hstep : (system bs).step v (b.stateName s) n ↔
      (∃ l ∈ d.body.guards n, l.holds v = true) ∨ d.body = .skip ∧ n = b.stateName s := by
    refine ⟨?_, fun hstep => ⟨d, hd, hname, hstep⟩⟩
    rintro ⟨c, hc, hcname, hstep⟩
    have hsame := (h.stateBody_eq_ok hempty hbs hc hs hcname).symm.trans hbody
    rwa [Except.ok.inj hsame] at hstep
  rw [hstep]
  cases huniversal : b.isUniversal s with
  | true =>
    rw [stateBody, if_pos huniversal] at hbody
    rw [← Except.ok.inj hbody]
    constructor
    · rintro (⟨l, hl, -⟩ | ⟨-, rfl⟩)
      · exact absurd hl List.not_mem_nil
      · exact ⟨x, s, hs, rfl, (shortcut_step_iff hs).2 (by rw [if_pos huniversal])⟩
    · rintro ⟨y, t, ht, rfl, hy⟩
      rw [shortcut_step_iff hs, if_pos huniversal] at hy
      subst hy
      exact .inr ⟨rfl, by rw [ht.unique hs]⟩
  | false =>
    rw [stateBody, huniversal, if_neg Bool.false_ne_true] at hbody
    constructor
    · rintro (⟨l, hl, hholds⟩ | ⟨hskip, -⟩)
      · obtain ⟨u, hu, rfl, hname⟩ := (mem_guards_of_body hbody).1 hl
        obtain ⟨t, ht, hname⟩ := targetName_eq_ok.1 hname
        refine ⟨u.target, t, ht, hname, (shortcut_step_iff hs).2 ?_⟩
        rw [huniversal, if_neg Bool.false_ne_true]
        exact ⟨u, hu, rfl, hholds⟩
      · exact absurd hskip (body_ne_skip hbody)
    · rintro ⟨y, t, ht, rfl, hy⟩
      rw [shortcut_step_iff hs, huniversal, if_neg Bool.false_ne_true] at hy
      exact .inl ((guards_iff h.distinct hbody ht).2 hy)

theorem accepting_iff (h : b.Nameable) (hempty : b.isEmpty = false) (hbs : blocks b = .ok bs)
    (hs : b.arena.LiveAt x s) :
    (system bs).accepting (b.stateName s) ↔ b.shortcut.accepting x := by
  have hshortcut : b.shortcut.accepting x ↔ b.isAccepting s = true := by
    refine ⟨?_, fun haccepting => ⟨s, hs, haccepting⟩⟩
    rintro ⟨t, ht, haccepting⟩
    rwa [hs.unique ht]
  rw [hshortcut, ← startsWith_stateName]
  refine ⟨?_, .inl⟩
  rintro (hstarts | ⟨c, hc, hname, hskip⟩)
  · exact hstarts
  · have hbody := h.stateBody_eq_ok hempty hbs hc hs hname
    rw [stateBody] at hbody
    split at hbody
    · rename_i huniversal
      exact (startsWith_stateName b s).2 (Bool.and_eq_true_iff.1 huniversal).2
    · exact absurd hskip (body_ne_skip hbody)

theorem acceptsFrom_iff (h : b.Nameable) (hempty : b.isEmpty = false) (hbs : blocks b = .ok bs)
    (hs : b.arena.LiveAt x s) :
    (system bs).AcceptsFrom (b.stateName s) w ↔ b.shortcut.AcceptsFrom x w := by
  constructor
  · intro hacc
    refine hacc.simulate (T := b.shortcut)
      (R := fun n x => ∃ s, b.arena.LiveAt x s ∧ b.stateName s = n) ?_ ?_ ⟨s, hs, rfl⟩
    · rintro v _ m x ⟨s, hs, rfl⟩ hstep -
      obtain ⟨y, t, ht, hname, hstep⟩ := (h.step_iff hempty hbs hs).1 hstep
      exact ⟨y, hstep, t, ht, hname⟩
    · rintro _ x ⟨s, hs, rfl⟩ haccepting
      exact (h.accepting_iff hempty hbs hs).1 haccepting
  · intro hacc
    refine hacc.simulate (T := system bs)
      (R := fun x n => ∃ s, b.arena.LiveAt x s ∧ b.stateName s = n) ?_ ?_ ⟨s, hs, rfl⟩
    · rintro v x y _ ⟨s, hs, rfl⟩ hstep -
      obtain ⟨t, ht⟩ := h.exists_liveAt hs hstep
      exact ⟨b.stateName t, (h.step_iff hempty hbs hs).2 ⟨y, t, ht, rfl, hstep⟩, t, ht, rfl⟩
    · rintro x _ ⟨s, hs, rfl⟩ haccepting
      exact (h.accepting_iff hempty hbs hs).2 haccepting

/-! ### The whole never claim -/

theorem states_eq_nil_iff (h : b.Nameable) : b.states = [] ↔ b.isEmpty = true := by
  rw [isEmpty, List.isEmpty_iff]
  constructor
  · intro hnil
    refine List.eq_nil_iff_forall_not_mem.2 fun x hx => ?_
    obtain ⟨s, hs⟩ := (h.wellFormed.valid.mem_live x).1 hx
    have hmem := h.wellFormed.mem_states.2 hs
    rw [hnil] at hmem
    exact List.not_mem_nil hmem
  · intro hnil
    rw [states, Arena.liveStates, hnil]
    rfl

theorem perm_names (h : b.Nameable) (hempty : b.isEmpty = false) (hbs : blocks b = .ok bs) :
    (bs.map Block.name).Perm (b.states.map fun p => b.stateName p.2) := by
  have hperm := NeverClaim.perm_names hempty h.isTrivial_eq_false hbs
    (h.wellFormed.names_nodup h.distinct)
  rwa [List.map_map] at hperm

theorem names_nodup (h : b.Nameable) (hbs : blocks b = .ok bs) : (bs.map Block.name).Nodup := by
  cases hempty : b.isEmpty with
  | true =>
    rw [blocks_of_isEmpty hempty hbs]
    exact List.nodup_singleton _
  | false =>
    rw [(h.perm_names hempty hbs).nodup_iff]
    have hnodup := h.wellFormed.names_nodup h.distinct
    rwa [List.map_map] at hnodup

/-- A block goes to blocks that are there. -/
theorem exists_target (h : b.Nameable) (hbs : blocks b = .ok bs) (hc : c ∈ bs)
    (hn : n ∈ c.body.targets) : ∃ d ∈ bs, d.name = n := by
  cases hempty : b.isEmpty with
  | true =>
    rw [blocks_of_isEmpty hempty hbs, List.mem_singleton] at hc
    subst hc
    exact absurd hn List.not_mem_nil
  | false =>
    obtain ⟨x, s, hs, hname, hbody⟩ := (h.mem_blocks_iff hempty hbs).1 hc
    rw [stateBody] at hbody
    split at hbody
    · rw [← Except.ok.inj hbody] at hn
      exact absurd hn List.not_mem_nil
    · obtain ⟨u, -, hu⟩ := mem_targets_of_body hbody hn
      obtain ⟨t, ht, rfl⟩ := targetName_eq_ok.1 hu
      obtain ⟨d, hd, hdname, -⟩ := h.exists_block hempty hbs ht
      exact ⟨d, hd, hdname⟩

/-- A never claim without states accepts nothing, since its block is stuck. -/
theorem not_accepts_of_isEmpty (hempty : b.isEmpty = true) (hbs : blocks b = .ok bs) :
    ¬NeverClaim.Accepts bs w := by
  rw [blocks_of_isEmpty hempty hbs]
  rintro ⟨c, -, r, -, hr, -⟩
  obtain ⟨d, hd, -, hstep⟩ := hr 0
  cases List.mem_singleton.1 hd
  rcases hstep with ⟨l, hl, -⟩ | ⟨hskip, -⟩
  · exact absurd hl List.not_mem_nil
  · contradiction

/-- **The never claim accepts what the automaton accepts.** -/
theorem accepts_iff (h : b.Nameable) (hb : b.Honest P) (hbs : blocks b = .ok bs) :
    NeverClaim.Accepts bs w ↔ b.Accepts w := by
  rcases h.wellFormed.initial with ⟨hnone, hnil⟩ | ⟨i, rest, hi, hlive⟩
  · have hempty : b.isEmpty = true := by rw [isEmpty, hnil]; rfl
    refine iff_of_false (not_accepts_of_isEmpty hempty hbs) ?_
    rintro ⟨i, hi, -⟩
    rw [hnone] at hi
    contradiction
  · obtain ⟨s, hs⟩ := h.wellFormed.live_initial hi
    have hempty : b.isEmpty = false := by rw [isEmpty, hlive]; rfl
    obtain ⟨c, hc, hname⟩ := h.rooted.head_blocks h.wellFormed hbs hi hs
    have hfrom : (system bs).AcceptsFrom c.name w ↔ b.AcceptsFrom i w := by
      rw [hname, h.acceptsFrom_iff hempty hbs hs, hb.acceptsFrom_shortcut h.wellFormed]
    constructor
    · rintro ⟨d, hd, hacc⟩
      cases hc.symm.trans hd
      exact ⟨i, hi, hfrom.1 hacc⟩
    · rintro ⟨j, hj, hacc⟩
      cases hi.symm.trans hj
      exact ⟨c, hc, hfrom.2 hacc⟩

/-- **The blocks of a never claim denote the automaton.** -/
theorem denotes (h : b.Nameable) (hb : b.Honest P) (hbs : blocks b = .ok bs) : Denotes bs b where
  first x s hx hs := h.rooted.head_blocks h.wellFormed hbs hx (h.wellFormed.mem_states.1 hs)
  nodup := h.names_nodup hbs
  names hne := by
    refine h.perm_names ?_ hbs
    rw [← Bool.not_eq_true, ← h.states_eq_nil_iff]
    exact hne
  empty hnil :=
    have hempty := h.states_eq_nil_iff.1 hnil
    ⟨blocks_of_isEmpty hempty hbs, fun _ => not_accepts_of_isEmpty hempty hbs⟩
  targets c hc n hn := by
    obtain ⟨d, hd, hname⟩ := h.exists_target hbs hc hn
    refine ⟨d, ⟨hd, hname⟩, fun e he => ?_⟩
    exact List.inj_on_of_nodup_map (h.names_nodup hbs) he.1 hd (he.2.trans hname.symm)
  accepting c _ x s _ hname := hname ▸ startsWith_stateName b s
  guards c hc x s hs hname huniversal y t ht v := by
    have hempty : b.isEmpty = false := by
      rw [← Bool.not_eq_true, ← h.states_eq_nil_iff]
      exact List.ne_nil_of_mem hs
    have hbody := h.stateBody_eq_ok hempty hbs hc (h.wellFormed.mem_states.1 hs) hname
    rw [stateBody, huniversal, if_neg Bool.false_ne_true] at hbody
    exact guards_iff h.distinct hbody (h.wellFormed.mem_states.1 ht)
  accepts w := h.accepts_iff hb hbs

end Nameable

end Automaton

variable {g : Generalized} {options : Options} {b : Automaton} {stats : BuildStats}

/-- **The never claim denotes the automaton.**  If all states of the generalized automaton with the
display id of one that accepts every word do accept every word, the never claim of what was
minimized can be written and read back, and the blocks that are read denote the automaton. -/
theorem neverClaim_denotes {κ : Type} [BEq κ] {d : Builder κ} (hd : d.Collected)
    (hg : d.build = .ok g) (huniversal : ∀ q < g.states.size, g.identity q = universalIdentity →
      ∀ w, ({ g with initial := [q] } : Generalized).Accepts w)
    (hnames : Legible g.propositions) (hsimplify : options.simplify = true)
    (h : degeneralize g options = .ok (b, stats)) (formula : String) :
    ∃ text bs, NeverClaim.render formula b = .ok text ∧
      NeverClaim.read? formula g.propositions text = some bs ∧ Denotes bs b := by
  obtain ⟨⟨a, stats'⟩, ha, h⟩ := bind_eq_ok.1 h
  dsimp only at h
  rw [hsimplify, if_pos rfl] at h
  obtain ⟨⟨first, c⟩, hc, h⟩ := bind_eq_ok.1 h
  cases h
  obtain ⟨hwf, -⟩ := build_eq_ok ha
  have hrooted := build_rooted ha
  obtain ⟨hcomesUp, hrest, -⟩ := hrooted.atRest_of_minimize hwf hc
  have hb : c.Nameable :=
    ⟨(hwf.comesUp hcomesUp).1, (hrooted.comesUp hwf hcomesUp).1, hrest.distinct⟩
  have hhonest := build_honest (hd.inRange.build hg) huniversal (Builder.below_of_build hg) ha
  obtain ⟨hhonest, hpropositions⟩ := hhonest.comesUp hrooted hwf hcomesUp
  obtain ⟨-, -, -, -, -, -, hbuilt, -⟩ := build_eq_redirect ha
  have hpropositions := hpropositions.trans hbuilt
  obtain ⟨bs, hbs⟩ := hb.wellFormed.exists_blocks
  refine ⟨_, bs, NeverClaim.render_of_blocks hbs formula, ?_, hb.denotes hhonest hbs⟩
  have hreadable := Automaton.readable_blocks hb.wellFormed hb.isTrivial_eq_false hbs
    hhonest.labelled
  rw [← hpropositions] at hnames hreadable ⊢
  exact read?_text hnames hreadable formula

/-- Collects the automaton of the words that begin with a letter in which the one proposition is
true.  It goes on in a state that accepts every word. -/
def Builder.first : Builder Nat :=
  (((((Builder.empty 0).addProposition "a").2.markInitial 0).addTransition 0 (.singleton 0) ∅ ∅ 1)
    |>.addTransition 1 ∅ ∅ ∅ 1).setIdentity 1 universalIdentity

/-- What is collected. -/
def Generalized.first : Generalized where
  states := #[⟨1, [⟨1, ⟨.singleton 0, ∅, rfl⟩, ∅⟩]⟩, ⟨universalIdentity, [⟨1, .always, ∅⟩]⟩]
  initial := [0]
  sets := 0
  propositions := #["a"]

theorem Generalized.first_universal : ∀ q < first.states.size,
    first.identity q = universalIdentity →
      ∀ w, ({ first with initial := [q] } : Generalized).Accepts w := by
  intro q hq hidentity w
  match q with
  | 0 => exact absurd hidentity (by decide)
  | 1 =>
    exact ⟨⟨fun _ => 1, fun _ => ⟨1, .always, ∅⟩, List.mem_singleton_self 1,
      fun _ => List.mem_singleton_self _, fun _ => rfl, fun _ => rfl⟩,
      fun _ hj => absurd hj (Nat.not_lt_zero _)⟩

/-- The never claim of this automaton is written and read back. -/
theorem neverClaim_first : Builder.first.Collected ∧ Builder.first.build = .ok .first ∧
    (∃ q < Generalized.first.states.size, Generalized.first.identity q = universalIdentity) ∧
    (∀ q < Generalized.first.states.size, Generalized.first.identity q = universalIdentity →
      ∀ w, ({ Generalized.first with initial := [q] } : Generalized).Accepts w) ∧
    Legible Generalized.first.propositions ∧
    ∃ b stats, degeneralize .first ⟨true, true, true⟩ = .ok (b, stats) ∧
      ∃ text bs, NeverClaim.render "a" b = .ok text ∧
        NeverClaim.read? "a" Generalized.first.propositions text = some bs ∧ Denotes bs b := by
  have hd : Builder.first.Collected :=
    .setIdentity 1 universalIdentity (.addTransition 1 ∅ ∅ ∅ 1 (.addTransition 0 _ ∅ ∅ 1
      (.markInitial 0 (.addProposition "a" (.empty 0)))))
  have hdeclared : ((Builder.empty 0).addProposition "a").2 =
      (⟨0, #["a"], #[], []⟩ : Builder Nat) := rfl
  have hg : Builder.first.build = .ok .first := by
    rw [Builder.first, hdeclared]
    cbv
  have hnames : Legible Generalized.first.propositions := ⟨by decide, by decide⟩
  have hrange := hd.inRange.build hg
  obtain ⟨a, stats, ha⟩ := exists_build ⟨hrange, by decide⟩ ⟨true, true, true⟩
  obtain ⟨b, hb, -⟩ := exists_degeneralize ha (build_ready hrange (by decide) ha)
  exact ⟨hd, hg, ⟨1, by decide, rfl⟩, Generalized.first_universal, hnames, b, stats, hb,
    neverClaim_denotes hd hg Generalized.first_universal hnames rfl hb "a"⟩

end OmegaAutomata
