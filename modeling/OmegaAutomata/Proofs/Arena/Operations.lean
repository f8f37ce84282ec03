/-
# Operations in any order

Whoever uses an arena may call its operations in any order and with any arguments.  As long as none
of them fails, its lists and its table agree with the stages of the states (`Orderly`): a
call either checks that it may do what it is asked for, or changes all of them alike.

A `History` is an arena together with the states that became live, in this order.  What one call
keeps (`History.orderly_step`) holds after every sequence of them (`History.orderly_run`), and a
number whose state was freed is never given to another one.
-/

import OmegaAutomata.Proofs.Arena.Bookkeeping

namespace OmegaAutomata

namespace Arena

variable {a b c : Arena} {id x y : StateId} {s : State} {f : State → State}
  {promoted : List StateId} {spared forward : Option StateId}

/-! ### Operations made of others -/

/-- What `discard` checked and did if it did not fail. -/
theorem discard_eq_ok (h : a.discard id = .ok b) :
    ∃ s, a.slot? id = some ⟨.pending, s⟩ ∧ b = a.forgetNow id := by
  obtain ⟨⟨stage, s⟩, hl, h⟩ := bind_eq_ok.1 h
  by_cases hstage : stage = .pending
  · subst hstage
    by_cases hs : s.incoming = 0
    · simp only [hs, ne_eq, not_true_eq_false, if_false] at h
      exact ⟨s, slot_eq_ok.1 hl, (forget_eq_ok.1 h).2.symm⟩
    · simp [hs] at h
  · simp [hstage] at h

/-- **What the parts of a redirection keep**, a redirection keeps: it replaces lists of transitions,
retires states without replacement, and frees the retired states. -/
theorem redirect_induction {P : Arena → Prop} {m : Nat} (hb : a.redirect spared = .ok (m, b))
    (ha : P a) (hset : ∀ c id ts, P c → P (c.setTransitions id ts))
    (hretire : ∀ c d id, P c → c.retire id none = .ok d → P d)
    (hsweep : ∀ c d, P c → c.sweep = .ok d → P d) : P b := by
  have honce {c d : Arena} {dead : List StateId} (hc : P c)
      (hd : c.redirectOnce spared = .ok (dead, d)) : P d := by
    obtain ⟨kept, -, hd⟩ := bind_eq_ok.1 hd
    cases hd
    exact List.foldlRecOn kept _ hc fun c hc p _ => hset c p.1 p.2 hc
  have hall {c d : Arena} {dead : List StateId} (hc : P c) (hd : c.retireAll dead = .ok d) : P d :=
    foldlM_induction (P := fun _ => P) hd hc fun x _ c d hc hd => hretire c d x hc hd
  have hrounds {bound m : Nat} {c d : Arena} (hc : P c)
      (hd : c.redirectRounds spared bound = .ok (m, d)) : P d := by
    induction bound generalizing c m with
    | zero =>
      cases hd
      exact hc
    | succ bound ih =>
      rw [redirectRounds] at hd
      obtain ⟨⟨dead, e⟩, he, hd⟩ := bind_eq_ok.1 hd
      dsimp only at hd
      split at hd
      · cases hd
        exact honce hc he
      · obtain ⟨e', he', hd⟩ := bind_eq_ok.1 hd
        obtain ⟨⟨k, e''⟩, he'', hd⟩ := bind_eq_ok.1 hd
        cases hd
        exact ih (hall (honce hc he) he') he''
  obtain ⟨⟨k, c⟩, hc, hb⟩ := bind_eq_ok.1 hb
  obtain ⟨d, hd, hb⟩ := bind_eq_ok.1 hb
  cases hb
  exact hsweep c b (hrounds ha hc) hd

/-! ### What an operation keeps -/

/-- Whether lists and table of an arena agree with the stages of the states, when `promoted` became
live in this order. -/
structure Orderly (promoted : List StateId) (a : Arena) : Prop
    extends Lively promoted a, Tallied a where
  keyed : a.Keyed

theorem orderly_empty : Orderly [] .empty := by
  have hstage (x : StateId) : Arena.empty.stage? x = none := stage?_eq_none_of_le (Nat.zero_le x)
  refine ⟨⟨.nil, fun x hx => absurd hx List.not_mem_nil, fun x hx => ?_, rfl⟩,
    ⟨.nil, fun x => ?_, fun x y hx => ?_⟩, fun n x => ?_⟩
  · rw [hstage] at hx
    contradiction
  · rw [hstage]
    simp [Arena.empty]
  · rw [hstage] at hx
    contradiction
  · rw [nodeOf_eq_none_of_le (Nat.zero_le x)]
    simp [Arena.empty]

namespace Orderly

/-- The lists tell which states are live and which are retired. -/
theorem pooled (h : Orderly promoted a) : a.Pooled where
  live_of_mem x hx := by
    rw [h.live_eq, List.mem_filter, decide_eq_true_iff] at hx
    exact stage?_eq_some.1 hx.2
  mem_retired x := by
    rw [h.mem_retired]
    simp only [stage?_eq_some]

/-- **Changing a state** does no harm if it keeps its source and counter. -/
theorem modify (h : Orderly promoted a) (id : StateId) (hf : ∀ s, (f s).node = s.node) :
    Orderly promoted (a.modify id f) ∧ Outlasts a (a.modify id f) := by
  have hstage (x : StateId) := stage?_modify a id x f
  refine ⟨⟨h.toLively.congr (Nat.le_of_eq (modify_size a id f).symm) rfl (fun x => by rw [hstage])
      fun x _ => (hstage x ▸ ·), h.toTallied.congr rfl fun x r => by rw [hstage],
      h.keyed.congr rfl fun x => nodeOf_modify hf⟩,
    Nat.le_of_eq (modify_size a id f).symm, fun x _ hx => ?_⟩
  rw [slot?_modify, hx, Option.map_none]

/-- **The initial state** is live from the start, and is found under no pair. -/
theorem addInitial (h : Orderly promoted a) (identity : Int) (counter : Nat) :
    Orderly (promoted ++ [a.slots.size]) (a.addInitial identity counter).2 ∧
      Outlasts a (a.addInitial identity counter).2 := by
  have hsize : (a.addInitial identity counter).2.slots.size = a.slots.size + 1 :=
    Array.size_push _
  have hslot (x : StateId) : (a.addInitial identity counter).2.slot? x =
      if x = a.slots.size then some ⟨.live, .fresh none identity counter⟩ else a.slot? x :=
    slot?_push rfl
  have hstage (x : StateId) : (a.addInitial identity counter).2.stage? x =
      if x = a.slots.size then some .live else a.stage? x := by
    rw [stage?, hslot]
    split <;> rfl
  have hnew : a.stage? a.slots.size = none := stage?_eq_none_of_le (Nat.le_refl _)
  refine ⟨⟨h.toLively.concat (fun hmem => Nat.lt_irrefl _ (h.promoted_old _ hmem).1)
    (hsize ▸ Nat.lt_succ_self _) (by omega) rfl hstage, h.toTallied.congr rfl fun x r => ?_,
    h.keyed.congr rfl fun x => ?_⟩,
    by omega, fun x hx hnone => ?_⟩
  · rw [hstage]
    split
    · rename_i hx
      simp [hx, hnew]
    · rfl
  · rw [nodeOf, hslot]
    split
    · rename_i hx
      rw [hx, nodeOf_eq_none_of_le (Nat.le_refl _)]
      rfl
    · rfl
  · rw [hslot, if_neg (Nat.ne_of_lt hx), hnone]

/-- **A state that is created** for a pair is found under it. -/
theorem addPending (h : Orderly promoted a) {q k : Nat} (hnone : a.keys[(q, k)]? = none)
    (identity : Int) : Orderly promoted (a.addPending q identity k).2 ∧
      Outlasts a (a.addPending q identity k).2 := by
  have hsize : (a.addPending q identity k).2.slots.size = a.slots.size + 1 := Array.size_push _
  have hstage := stage?_addPending a q identity k
  have hold (x : StateId) {stage : Stage} (hne : stage ≠ .pending) :
      (a.addPending q identity k).2.stage? x = some stage ↔ a.stage? x = some stage := by
    rw [hstage]
    split
    · rename_i hx
      rw [hx, stage?_eq_none_of_le (Nat.le_refl _)]
      simp [hne.symm]
    · rfl
  refine ⟨⟨h.toLively.congr (by omega) rfl (fun x => hold x (by simp)) fun x hx => ?_,
    h.toTallied.congr rfl fun x r => hold x (by simp), h.keyed.addPending hnone identity⟩,
    by omega, fun x hx hnone => ?_⟩
  · rw [hstage, if_neg (Nat.ne_of_lt hx)]
    exact id
  · rw [slot?_addPending, if_neg (Nat.ne_of_lt hx), hnone]

theorem resolve (h : Orderly promoted a) {q k : Nat} {identity : Int}
    (hb : a.resolve q identity k = .ok (x, b)) : Orderly promoted b ∧ Outlasts a b := by
  rcases resolve_eq_ok hb with ⟨hkey, hpair⟩ | rfl
  · have hkept := h.addPending hkey identity
    rwa [hpair] at hkept
  · exact ⟨h, .refl b⟩

/-- Which states wait to be taken has nothing to do with stages. -/
theorem setPending (h : Orderly promoted a) (ids : List StateId) :
    Orderly promoted { a with pending := ids } ∧ Outlasts a { a with pending := ids } :=
  ⟨⟨h.toLively.congr (Nat.le_refl _) rfl (fun _ => Iff.rfl) fun _ _ => id,
    h.toTallied.congr rfl fun _ _ => Iff.rfl, h.keyed⟩, Nat.le_refl _, fun _ _ => id⟩

/-- **A pending state that becomes live** was not live before. -/
theorem promote (h : Orderly promoted a) (hb : a.promote id = .ok b) :
    Orderly (promoted ++ [id]) b ∧ Outlasts a b := by
  obtain ⟨s, hs, rfl⟩ := promote_eq_ok hb
  have hsize := promoteNow_size a id s
  have hpending : a.stage? id = some .pending := stage?_eq hs
  refine ⟨⟨h.toLively.concat (fun hmem => (h.promoted_old id hmem).2 hpending)
    (hsize ▸ lt_size_of_slot? hs) (Nat.le_of_eq hsize.symm) rfl (stage?_promoteNow hs),
    h.toTallied.congr rfl fun x r => ?_, h.keyed.congr rfl (nodeOf_promoteNow hs)⟩,
    Nat.le_of_eq hsize.symm, fun x _ hx => ?_⟩
  · rw [stage?_promoteNow hs]
    split
    · rename_i hx
      simp [hx, hpending]
    · rfl
  · rw [slot?_promoteNow hs, if_neg, hx]
    rintro rfl
    rw [hs] at hx
    contradiction

/-- **A pending state that is freed** was in none of the lists. -/
theorem discard (h : Orderly promoted a) (hb : a.discard id = .ok b) :
    Orderly promoted b ∧ Outlasts a b := by
  obtain ⟨s, hs, rfl⟩ := discard_eq_ok hb
  have hpending : a.stage? id = some .pending := stage?_eq hs
  have hold (x : StateId) {stage : Stage} (hne : stage ≠ .pending) :
      (a.forgetNow id).stage? x = some stage ↔ a.stage? x = some stage := by
    rw [stage?_forgetNow]
    split
    · rename_i hx
      simp [hx, hpending, hne.symm]
    · rfl
  refine ⟨⟨h.toLively.congr (Nat.le_of_eq (forgetNow_size a id).symm) (forgetNow_live a id)
    (fun x => hold x (by simp)) fun x _ hx => ?_, h.toTallied.congr (forgetNow_retired a id)
    fun x r => hold x (by simp), h.keyed.forgetNow id⟩, outlasts_forgetNow a id⟩
  rw [stage?_forgetNow] at hx
  split at hx
  · contradiction
  · exact hx

/-- **A state that is retired** is replaced by one that is not. -/
theorem retire (h : Orderly promoted a) (hb : a.retire id forward = .ok b) :
    Orderly promoted b ∧ Outlasts a b := by
  obtain ⟨hself, hforward, ⟨l, hl, hret⟩, rfl⟩ := h.pooled.retire_eq_ok.1 hb
  refine ⟨⟨h.toLively.retireNow id forward, h.toTallied.retireNow hl hret hself fun y hy f hf => ?_,
    h.keyed.congr rfl fun x => nodeOf_retireNow a id x forward⟩,
    Nat.le_of_eq (retireNow_size a id forward).symm, fun x _ hx => ?_⟩
  · obtain ⟨m, hm, hmret⟩ := hforward y hy
    rw [stage?_eq hm] at hf
    rw [Option.some.inj hf] at hmret
    contradiction
  · rw [slot?_retireNow, hx, Option.map_none]

/-- **Freeing the retired states** empties their list. -/
theorem sweep (h : Orderly promoted a) (hb : a.sweep = .ok b) :
    Orderly promoted b ∧ Outlasts a b := by
  obtain rfl := eq_sweepNow hb
  have hold (x : StateId) {stage : Stage} (hret : stage.isRetired = false) :
      a.sweepNow.stage? x = some stage ↔ a.stage? x = some stage := by
    rw [stage?_sweepNow]
    split
    · rename_i hx
      obtain ⟨f, hf⟩ := (h.mem_retired x).1 hx
      refine iff_of_false (by simp) fun hstage => ?_
      rw [hf] at hstage
      rw [← Option.some.inj hstage] at hret
      contradiction
    · rfl
  exact ⟨⟨h.toLively.congr (outlasts_sweepNow a).size_le (sweepNow_live a) (fun x => hold x rfl)
    fun x _ => (hold x rfl).1, h.toTallied.sweepNow, h.keyed.sweepNow⟩, outlasts_sweepNow a⟩

theorem redirect (h : Orderly promoted a) {m : Nat} (hb : a.redirect spared = .ok (m, b)) :
    Orderly promoted b ∧ Outlasts a b := by
  refine redirect_induction (P := fun c => Orderly promoted c ∧ Outlasts a c) hb ⟨h, .refl a⟩
    (fun c id ts hc => ?_) (fun c d id hc hd => ?_) fun c d hc hd => ?_
  · obtain ⟨hkept, hout⟩ := hc.1.modify id (f := fun s => { s with transitions := ts })
      fun _ => rfl
    exact ⟨hkept, hc.2.trans hout⟩
  · obtain ⟨hkept, hout⟩ := hc.1.retire hd
    exact ⟨hkept, hc.2.trans hout⟩
  · obtain ⟨hkept, hout⟩ := hc.1.sweep hd
    exact ⟨hkept, hc.2.trans hout⟩

end Orderly

end Arena

/-! ### Sequences of operations -/

/-- A call of an operation.  Besides the operations of an arena, all of a state but its source,
counter and stage may be changed. -/
inductive Operation where
  | addInitial (identity : Int) (counter : Nat)
  | resolve (source : Nat) (identity : Int) (counter : Nat)
  | popPending
  | promote (id : StateId)
  | discard (id : StateId)
  | retire (id : StateId) (forward : Option StateId)
  | redirect (spared : Option StateId)
  | sweep
  | change (id : StateId) (identity : Int) (incoming : Nat) (recurrence : Recurrence)
      (transitions : List Transition)

namespace Operation

/-- The arena after a call. -/
def run (a : Arena) : Operation → Except Fault Arena
  | addInitial identity counter => pure (a.addInitial identity counter).2
  | resolve source identity counter => do pure (← a.resolve source identity counter).2
  | popPending => pure ((a.popPending.map Prod.snd).getD a)
  | promote id => a.promote id
  | discard id => a.discard id
  | retire id forward => a.retire id forward
  | redirect spared => do pure (← a.redirect spared).2
  | sweep => a.sweep
  | change id identity incoming recurrence transitions => do
    let _ ← a.state id
    pure (a.modify id fun s => { s with identity, incoming, recurrence, transitions })

/-- The state that a call makes live, if any. -/
def promotes (a : Arena) : Operation → List StateId
  | addInitial .. => [a.slots.size]
  | promote id => [id]
  | _ => []

end Operation

/-- An arena and the states that became live in it, in this order. -/
structure History where
  arena : Arena
  promoted : List StateId

namespace History

variable {h k : History} {op : Operation} {operations : List Operation}

/-- One more call. -/
def step (h : History) (op : Operation) : Except Fault History := do
  pure ⟨← op.run h.arena, h.promoted ++ op.promotes h.arena⟩

/-- A sequence of calls. -/
def run (h : History) (operations : List Operation) : Except Fault History :=
  operations.foldlM step h

/-- The history of an arena to which nothing has happened yet. -/
def start : History :=
  ⟨.empty, []⟩

/-- **What a call keeps**, whatever it is. -/
theorem orderly_step (hh : h.arena.Orderly h.promoted) (hk : h.step op = .ok k) :
    k.arena.Orderly k.promoted ∧ h.arena.Outlasts k.arena := by
  obtain ⟨b, hb, hk⟩ := bind_eq_ok.1 hk
  cases hk
  cases op with
  | addInitial identity counter =>
    cases hb
    exact hh.addInitial identity counter
  | promote id => exact hh.promote hb
  | resolve source identity counter =>
    obtain ⟨⟨x, c⟩, hc, hb⟩ := bind_eq_ok.1 hb
    cases hb
    simpa [Operation.promotes] using hh.resolve hc
  | popPending =>
    cases hb
    simp only [Operation.promotes, List.append_nil]
    unfold Arena.popPending
    split
    · exact ⟨hh, .refl _⟩
    · exact hh.setPending _
  | discard id => simpa [Operation.promotes] using hh.discard hb
  | retire id forward => simpa [Operation.promotes] using hh.retire hb
  | redirect spared =>
    obtain ⟨⟨m, c⟩, hc, hb⟩ := bind_eq_ok.1 hb
    cases hb
    simpa [Operation.promotes] using hh.redirect hc
  | sweep => simpa [Operation.promotes] using hh.sweep hb
  | change id identity incoming recurrence transitions =>
    obtain ⟨s, -, hb⟩ := bind_eq_ok.1 hb
    cases hb
    simp only [Operation.promotes, List.append_nil]
    exact hh.modify id (f := fun s => { s with identity, incoming, recurrence, transitions })
      fun _ => rfl

/-- **What every sequence of calls keeps.** -/
theorem orderly_run (hh : h.arena.Orderly h.promoted) (hk : h.run operations = .ok k) :
    k.arena.Orderly k.promoted ∧ h.arena.Outlasts k.arena :=
  foldlM_induction
    (P := fun _ k => k.arena.Orderly k.promoted ∧ h.arena.Outlasts k.arena) hk ⟨hh, .refl _⟩
    fun _ _ _ _ hkept hstep => by
      obtain ⟨hkept', hout⟩ := orderly_step hkept.1 hstep
      exact ⟨hkept', hkept.2.trans hout⟩

end History

/-- **The lists and the table of an arena are right** after any sequence of calls that does not
fail.  The list of live states has the states whose stage this is, in the order in which they became
live, and no state became live twice.  The list of retired states has those whose stage this is,
once each, and none of them is to be replaced by another one.  The table finds each state that was
not freed by its source and counter, and nothing else, so no two such states share both.  In what
follows, the number of a state that was freed is never given to another one. -/
theorem orderly_of_operations {operations : List Operation} {h : History}
    (hh : History.start.run operations = .ok h) :
    (h.promoted.Nodup ∧ h.arena.live = h.promoted.filter (fun x => h.arena.isLive x) ∧
      h.arena.live.Nodup ∧ ∀ x, x ∈ h.arena.live ↔ h.arena.stage? x = some .live) ∧
    (h.arena.retired.Nodup ∧
      ∀ x, x ∈ h.arena.retired ↔ ∃ f, h.arena.stage? x = some (.retired f)) ∧
    (∀ x y, h.arena.stage? x = some (.retired (some y)) →
      ∀ f, h.arena.stage? y ≠ some (.retired f)) ∧
    (∀ q k x, h.arena.keys[(q, k)]? = some x ↔
      ∃ l, h.arena.slot? x = some l ∧ l.state.source = some q ∧ l.state.counter = k) ∧
    (∀ x y l m q, h.arena.slot? x = some l → h.arena.slot? y = some m →
      l.state.source = some q → m.state.source = some q → l.state.counter = m.state.counter →
        x = y) ∧
    ∀ more k, h.run more = .ok k → h.arena.slots.size ≤ k.arena.slots.size ∧
      ∀ x < h.arena.slots.size, h.arena.slot? x = none → k.arena.slot? x = none := by
  obtain ⟨horderly, -⟩ := History.orderly_run Arena.orderly_empty hh
  have hlive : h.arena.live = h.promoted.filter fun x => h.arena.isLive x := by
    rw [horderly.live_eq]
    refine List.filter_congr fun x _ => ?_
    rw [Bool.eq_iff_iff, decide_eq_true_iff, Arena.isLive_iff_stage?]
  have hkey (n : Nat × Nat) (x : StateId) : h.arena.keys[n]? = some x ↔
      ∃ l, h.arena.slot? x = some l ∧ l.state.source = some n.1 ∧ l.state.counter = n.2 :=
    (horderly.keyed n x).trans Arena.nodeOf_eq_some
  refine ⟨⟨horderly.promoted_nodup, hlive, ?_, fun x => ?_⟩,
    ⟨horderly.retired_nodup, horderly.mem_retired⟩, horderly.forward, fun q k => hkey (q, k),
    fun x y l m q hl hm hlq hmq hlm => ?_, fun more k hk => ?_⟩
  · rw [hlive]
    exact horderly.promoted_nodup.filter _
  · rw [hlive, List.mem_filter, Arena.isLive_iff_stage?]
    exact and_iff_right_of_imp (horderly.mem_promoted x)
  · have hx := (hkey (q, l.state.counter) x).2 ⟨l, hl, hlq, rfl⟩
    have hy := (hkey (q, l.state.counter) y).2 ⟨m, hm, hmq, hlm.symm⟩
    exact Option.some.inj (hx.symm.trans hy)
  · obtain ⟨-, hout⟩ := History.orderly_run horderly hk
    exact ⟨hout.size_le, hout.freed⟩

/-- A state is created for a pair, becomes live, and is retired in favour of the initial one. -/
theorem orderly_of_forwarding : ∃ h, History.start.run [.addInitial (-1) 0, .resolve 3 7 0,
    .popPending, .promote 1, .retire 1 (some 0)] = .ok h ∧ h.promoted = [0, 1] ∧
      h.arena.live = h.promoted.filter (fun x => h.arena.isLive x) ∧ h.arena.live = [0] ∧
        h.arena.retired.Nodup ∧ h.arena.retired = [1] := by
  have hresolve : (Arena.empty.addInitial (-1) 0).2.resolve 3 7 0 =
      .ok ((Arena.empty.addInitial (-1) 0).2.addPending 3 7 0) := by
    rw [Arena.resolve, show (Arena.empty.addInitial (-1) 0).2.keys[((3 : Nat), (0 : Nat))]? = none
      from Std.HashMap.getElem?_empty]
  have hrun : ∃ h, History.start.run [.addInitial (-1) 0, .resolve 3 7 0, .popPending, .promote 1,
      .retire 1 (some 0)] = .ok h ∧ h.promoted = [0, 1] ∧ h.arena.live = [0] ∧
        h.arena.retired = [1] := by
    show ∃ h, ((((Arena.empty.addInitial (-1) 0).2.resolve 3 7 0 >>= _) >>= _) >>= _) = _ ∧ _
    rw [hresolve]
    exact ⟨_, rfl, rfl, rfl, rfl⟩
  obtain ⟨h, hh, hpromoted, hlive, hretired⟩ := hrun
  obtain ⟨⟨-, hfilter, -⟩, ⟨hnodup, -⟩, -⟩ := orderly_of_operations hh
  exact ⟨h, hh, hpromoted, hfilter, hlive, hnodup, hretired⟩

end OmegaAutomata
