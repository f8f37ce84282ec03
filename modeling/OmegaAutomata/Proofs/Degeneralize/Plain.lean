/-
# Constructions that copy

When nothing is simplified on the fly, a construction copies: no state is retired, a state keeps
what it has got, and the transition for each edge of its node leads to the one state that was
created for the pair of the edge.  New transitions are put in front, so that a list is the reversed
list of the edges (`Arena.Copies`).  This stays so when more states are created, because no pair
changes its state.

States are created for pairs that arise from transitions (`Generalized.Arises`), and for no others:
a pair is asked for when a transition of an initial state leads to it, or one of a pair that has
a state (`Plain.arises`).
-/

import OmegaAutomata.Proofs.Arena.Bookkeeping
import OmegaAutomata.Proofs.Degeneralize.Turns

namespace OmegaAutomata

open Arena

/-- The pairs of a state and a counter that transitions lead to.  The transitions of the initial
states are taken with the counter zero, and those of a pair with its counter, or with zero if that
is complete. -/
inductive Generalized.Arises (g : Generalized) : Nat × Nat → Prop where
  | root {q : Nat} {t : Transition} : q ∈ g.initial → t ∈ g.transitions q →
      Arises g (t.target, Counter.advance g.sets t.acceptance 0)
  | next {q c : Nat} {t : Transition} : Arises g (q, c) → t ∈ g.transitions q →
      Arises g (t.target, Counter.advance g.sets t.acceptance (Counter.restart g.sets c))

namespace Arena

variable {a b : Arena} {t : Transition} {ts : List Transition} {n : Nat × Nat}
  {es : List (Label × Nat × Nat)}

/-- The state that was created for a pair. -/
def stateFor (a : Arena) (n : Nat × Nat) : StateId :=
  (a.keys[n]?).getD 0

theorem stateFor_eq {x : StateId} (h : a.keys[n]? = some x) : a.stateFor n = x := by
  rw [stateFor, h, Option.getD_some]

/-- Whether a list has one transition for each of some edges, the latest first, which leads to the
state that was created for the pair of the edge. -/
structure Copies (a : Arena) (ts : List Transition) (es : List (Label × Nat × Nat)) : Prop where
  eq_map : ts = es.reverse.map fun e => ⟨a.stateFor e.2, e.1⟩
  found : ∀ e ∈ es, ∃ x, a.keys[e.2]? = some x

theorem Copies.nil (a : Arena) : a.Copies [] [] :=
  ⟨rfl, fun _ he => absurd he List.not_mem_nil⟩

/-- A transition to the state of a pair copies one more edge. -/
theorem Copies.cons (h : a.Copies ts es) (ht : a.keys[n]? = some t.target) :
    a.Copies (t :: ts) (es ++ [(t.label, n)]) where
  eq_map := by
    rw [List.reverse_append, List.reverse_singleton, List.singleton_append, List.map_cons,
      ← h.eq_map, stateFor_eq ht]
  found e he := by
    rcases List.mem_append.1 he with he | he
    · exact h.found e he
    · cases List.mem_singleton.1 he
      exact ⟨_, ht⟩

/-- Pairs that have a state keep it, so what was copied stays so. -/
theorem Copies.mono (h : a.Copies ts es)
    (hkeys : ∀ (n : Nat × Nat) (x : StateId), a.keys[n]? = some x → b.keys[n]? = some x) :
    b.Copies ts es where
  eq_map := by
    rw [h.eq_map]
    refine List.map_congr_left fun e he => ?_
    obtain ⟨x, hx⟩ := h.found e (List.mem_reverse.1 he)
    rw [stateFor_eq hx, stateFor_eq (hkeys _ x hx)]
  found e he := by
    obtain ⟨x, hx⟩ := h.found e he
    exact ⟨x, hkeys _ x hx⟩

theorem Copies.congr (h : a.Copies ts es) (hkeys : b.keys = a.keys) : b.Copies ts es :=
  h.mono fun n x hn => by rw [hkeys, hn]

/-- A transition leads to the state of the pair of some edge. -/
theorem Copies.exists_edge (h : a.Copies ts es) (ht : t ∈ ts) :
    ∃ e ∈ es, a.keys[e.2]? = some t.target := by
  rw [h.eq_map] at ht
  obtain ⟨e, he, rfl⟩ := List.mem_map.1 ht
  have he := List.mem_reverse.1 he
  obtain ⟨x, hx⟩ := h.found e he
  exact ⟨e, he, by rw [stateFor_eq hx, hx]⟩

end Arena

namespace Construction

variable {g : Generalized} {a b : Arena} {id x y : StateId} {s : State} {n : Nat × Nat}
  {es : List (Label × Nat × Nat)} {current : Option StateId} {start q c : Nat}
  {p result : Progress}

/-- What holds of the states at any time of a construction without simplification.  The
transitions of the current state copy the edges `es`. -/
structure Plain (g : Generalized) (current : Option StateId) (es : List (Label × Nat × Nat))
    (a : Arena) : Prop where
  not_retired : ∀ x f, a.stage? x ≠ some (.retired f)
  copied : ∀ x, a.stage? x = some .live → some x ≠ current →
    a.Copies (a.transitionsOf x) (g.edges (a.nodeOf x))
  copying : ∀ x, current = some x → a.Copies (a.transitionsOf x) es
  arises : ∀ n x, a.keys[n]? = some x → g.Arises n

/-! ### One transition -/

/-- A state that is created for a pair that arises has nothing to copy yet. -/
theorem Plain.addPending (h : Plain g current es a) (hnone : a.keys[(q, c)]? = none)
    (harises : g.Arises (q, c)) (i : Int) : Plain g current es (a.addPending q i c).2 := by
  have hkeys (n : Nat × Nat) (x : StateId) (hn : a.keys[n]? = some x) :
      (a.addPending q i c).2.keys[n]? = some x := by
    rw [keys_addPending, if_neg, hn]
    rintro rfl
    rw [hnone] at hn
    contradiction
  refine ⟨fun x f hx => ?_, fun x hx hne => ?_, fun x hx => ?_, fun n x hn => ?_⟩
  · rw [stage?_addPending] at hx
    split at hx
    · cases hx
    · exact h.not_retired x f hx
  · rw [stage?_addPending] at hx
    split at hx
    · cases hx
    · rename_i hsize
      rw [transitionsOf_addPending, nodeOf, slot?_addPending, if_neg hsize]
      exact (h.copied x hx hne).mono hkeys
  · rw [transitionsOf_addPending]
    exact (h.copying x hx).mono hkeys
  · rw [keys_addPending] at hn
    split at hn
    · rename_i heq
      exact heq ▸ harises
    · exact h.arises n x hn

/-- **Resolving a pair** that arises finds its own state, since no state was replaced. -/
theorem Plain.resolve (h : Plain g current es a) (harises : g.Arises (q, c)) {i : Int}
    (hb : a.resolve q i c = .ok (y, b)) : Plain g current es b ∧ b.keys[(q, c)]? = some y := by
  unfold Arena.resolve at hb
  cases hkey : a.keys[(q, c)]? with
  | none =>
    rw [hkey] at hb
    have hy : a.addPending q i c = (y, b) := Except.ok.inj hb
    obtain rfl : a.slots.size = y := congrArg Prod.fst hy
    obtain rfl : (a.addPending q i c).2 = b := congrArg Prod.snd hy
    exact ⟨h.addPending hkey harises i, by rw [keys_addPending, if_pos rfl]⟩
  | some z =>
    rw [hkey] at hb
    dsimp only at hb
    split at hb
    · contradiction
    · rename_i f s hz
      exact absurd (stage?_eq (slot_eq_ok.1 hz)) (h.not_retired z _)
    · cases hb
      exact ⟨h, hkey⟩

/-- **Linking the current state** to the state of a pair copies one more edge. -/
theorem Plain.link (h : Plain g (some x) es a) {t : Transition}
    (ht : a.keys[n]? = some t.target) (hb : link false a x t = .ok b) :
    Plain g (some x) (es ++ [(t.label, n)]) b := by
  obtain ⟨-, hkeys, hstage, hnode⟩ := link_keeps hb
  have hcongr {ts : List Transition} {es : List (Label × Nat × Nat)} (hts : a.Copies ts es) :
      b.Copies ts es := hts.congr hkeys
  refine ⟨fun y f hy => ?_, fun y hy hne => ?_, fun y hy => ?_, fun m y hm => ?_⟩
  · rw [hstage] at hy
    exact h.not_retired y f hy
  · rw [hstage] at hy
    rw [transitionsOf_link hb, if_neg (by simpa using hne), hnode]
    exact hcongr (h.copied y hy hne)
  · cases hy
    rw [transitionsOf_link hb, if_pos rfl]
    exact hcongr ((h.copying x rfl).cons ht)
  · rw [hkeys] at hm
    exact h.arises m y hm

theorem Plain.addMove (h : Plain g (some x) es a) {t : Generalized.Transition}
    (ht : g.Arises (g.edge start t).2) (hb : addMove g false x start a t = .ok b) :
    Plain g (some x) (es ++ [g.edge start t]) b := by
  obtain ⟨counter, hcounter, hb⟩ := bind_eq_ok.1 hb
  obtain ⟨-, rfl⟩ := Counter.advance?_eq_ok.1 hcounter
  obtain ⟨⟨y, c⟩, hc, hb⟩ := bind_eq_ok.1 hb
  obtain ⟨hplain, hkey⟩ := h.resolve ht hc
  exact hplain.link (t := ⟨y, t.label⟩) hkey hb

/-- **All transitions of a state** together copy its edges. -/
theorem Plain.addMoves (h : Plain g (some x) es a)
    (hq : ∀ t ∈ g.transitions q, g.Arises (g.edge start t).2)
    (hb : addMoves g false x start a q = .ok b) :
    Plain g (some x) (es ++ (g.transitions q).map (g.edge start)) b := by
  rw [List.map_eq_flatMap]
  exact foldlM_append (P := fun es b => Plain g (some x) es b) hb h
    fun t ht _ _ _ hc hd => hc.addMove (hq t ht) hd

theorem Plain.foldlM_addMoves {qs : List Nat} (h : Plain g (some x) es a)
    (hqs : ∀ q ∈ qs, ∀ t ∈ g.transitions q, g.Arises (g.edge start t).2)
    (hb : qs.foldlM (Construction.addMoves g false x start) a = .ok b) :
    Plain g (some x) (es ++ (qs.flatMap g.transitions).map (g.edge start)) b := by
  rw [List.map_flatMap]
  exact foldlM_append (P := fun es b => Plain g (some x) es b) hb h
    fun q hq _ _ _ hc hd => hc.addMoves (hqs q hq) hd

/-! ### One state -/

/-- A state that is taken becomes the current one, without transitions. -/
theorem Plain.popPending (h : Plain g none [] a) (hpop : a.popPending = some (id, b))
    (hnil : b.transitionsOf id = []) : Plain g (some id) [] b := by
  unfold Arena.popPending at hpop
  split at hpop
  · contradiction
  · cases hpop
    refine ⟨h.not_retired, fun x hx _ => (h.copied x hx (by simp)).congr rfl, fun x hx => ?_,
      h.arises⟩
    cases hx
    rw [hnil]
    exact .nil _

/-- The current state may become live. -/
theorem Plain.promoteNow (h : Plain g (some id) es a) (hid : a.slot? id = some ⟨.pending, s⟩) :
    Plain g (some id) es (a.promoteNow id s) := by
  refine ⟨fun x f hx => ?_, fun x hx hne => ?_, fun x hx => ?_, h.arises⟩
  · rw [stage?_promoteNow hid] at hx
    split at hx
    · cases hx
    · exact h.not_retired x f hx
  · rw [stage?_promoteNow hid, if_neg (by simpa using hne)] at hx
    rw [transitionsOf_promoteNow hid, nodeOf_promoteNow hid]
    exact (h.copied x hx hne).congr rfl
  · rw [transitionsOf_promoteNow hid]
    exact (h.copying x hx).congr rfl

/-- **A state is copied** when it has the edges of its node. -/
theorem Plain.close (h : Plain g (some id) (g.edges (a.nodeOf id)) a) : Plain g none [] a where
  not_retired := h.not_retired
  copied x hx _ := by
    by_cases hid : x = id
    · rw [hid]
      exact h.copying id rfl
    · exact h.copied x hx (by simpa using hid)
  copying x hx := by contradiction
  arises := h.arises

/-- Without simplification every state that has got its transitions becomes live. -/
theorem settle_plain (hid : p.arena.slot? id = some ⟨.pending, s⟩)
    (hr : settle g false p id = .ok result) : result.arena = p.arena.promoteNow id s ∧
      result.stats.merged = p.stats.merged ∧ result.stats.dead = p.stats.dead := by
  obtain ⟨s', hs', hr⟩ := bind_eq_ok.1 hr
  obtain ⟨stage, hs'⟩ := state_eq_ok.1 hs'
  cases hid.symm.trans hs'
  obtain ⟨b, hb, hr⟩ := bind_eq_ok.1 hr
  cases hr
  obtain ⟨s', hs', rfl⟩ := promote_eq_ok hb
  cases hid.symm.trans hs'
  exact ⟨rfl, rfl, rfl⟩

/-- **A turn copies one more state**, and neither merges nor retires it. -/
theorem Plain.turn (h : Plain g none [] p.arena) (hp : Building g none none [] p.arena)
    (hpq : Turn g false p result) : Plain g none [] result.arena ∧
      result.stats.merged = p.stats.merged ∧ result.stats.dead = p.stats.dead := by
  obtain ⟨id, a, hpop, hr⟩ := hpq
  obtain ⟨ha, ⟨s, hs, hincoming⟩, -⟩ := hp.popPending hpop
  obtain ⟨q, b, hq, hb, hsettle⟩ := visit_eq_ok (p := ⟨a, p.stats⟩) hs hincoming hr
  have hnode : s.node = some (q, s.counter) := by rw [State.node, hq, Option.map_some]
  have hnil : a.transitionsOf id = [] := by
    have hsize := ha.sized id _ hs
    rw [if_pos rfl] at hsize
    rw [transitionsOf_eq hs]
    exact List.eq_nil_of_length_eq_zero (Nat.le_zero.1 hsize)
  have ha' := h.popPending hpop hnil
  -- the pair of the state arises, so those that its transitions lead to do
  have hkey := ha.registered.built id _ hs
  dsimp only at hkey
  rw [hnode] at hkey
  have hplain := ha'.addMoves (fun t ht => .next (ha'.arises _ id hkey) ht) hb
  obtain ⟨⟨_, t⟩, ht, rfl, hfixed⟩ := (ha.addMoves hb).2.slot id _ hs
  have hedges : [] ++ (g.transitions q).map (g.edge (Counter.restart g.sets s.counter)) =
      g.edges ((b.promoteNow id t).nodeOf id) := by
    rw [nodeOf_promoteNow ht, nodeOf_eq ht, Slot.node_eq_of_fixed hfixed, hnode,
      Generalized.edges_some, List.nil_append]
  obtain ⟨harena, hstats⟩ := settle_plain (p := ⟨b, p.stats⟩) ht hsettle
  rw [hedges] at hplain
  rw [harena]
  exact ⟨(hplain.promoteNow ht).close, hstats⟩

/-! ### All states -/

/-- The initial state is copied first. -/
theorem begin_plain {start : Progress} (hr : begin g false = .ok (id, start)) :
    Plain g none [] start.arena ∧ start.stats.merged = 0 ∧ start.stats.dead = 0 := by
  obtain ⟨-, hbuilding, -⟩ := begin_eq_ok hr
  obtain ⟨b, hb, hr⟩ := bind_eq_ok.1 hr
  obtain ⟨s, -, hr⟩ := bind_eq_ok.1 hr
  cases hr
  have hempty : Plain g (some 0) [] (Arena.empty.addInitial initialIdentity 0).2 := by
    refine ⟨fun x f hx => ?_, fun x hx hne => ?_, fun x hx => ?_, fun n x hn => ?_⟩
    · rw [stage?, slot?_addInitial_empty] at hx
      split at hx
      · cases hx
      · cases hx
    · rw [stage?, slot?_addInitial_empty, if_neg (by simpa using hne)] at hx
      contradiction
    · cases hx
      rw [transitionsOf, slot?_addInitial_empty, if_pos rfl]
      exact .nil _
    · have hnone : (Arena.empty.addInitial initialIdentity 0).2.keys[n]? = none :=
        Std.HashMap.getElem?_empty
      rw [hnone] at hn
      contradiction
  have hplain := hempty.foldlM_addMoves (fun q hq t ht => .root hq ht) hb
  obtain ⟨t, ht⟩ := hbuilding.registered.initial
  have hedges : [] ++ (g.initial.flatMap g.transitions).map (g.edge 0) = g.edges (b.nodeOf 0) := by
    rw [nodeOf_eq ht, (hbuilding.registered.node_initial ht).1, Generalized.edges_none,
      List.nil_append]
  rw [hedges] at hplain
  exact ⟨hplain.close, rfl, rfl⟩

/-- **Turns copy all states** that they take. -/
theorem Plain.turns (h : Plain g none [] p.arena) (hp : Building g none none [] p.arena)
    (hpq : Relation.ReflTransGen (Turn g false) p result) : Plain g none [] result.arena ∧
      result.stats.merged = p.stats.merged ∧ result.stats.dead = p.stats.dead := by
  induction hpq with
  | refl => exact ⟨h, rfl, rfl⟩
  | tail hturns hstep ih =>
    obtain ⟨hplain, hmerged, hdead⟩ := ih
    obtain ⟨hplain', hmerged', hdead'⟩ := hplain.turn (hp.turns hturns).1 hstep
    exact ⟨hplain', hmerged'.trans hmerged, hdead'.trans hdead⟩

/-- **An exploration without simplification copies**, and neither merges nor retires a state. -/
theorem explore_plain (hr : explore g false = .ok (id, result)) : Plain g none [] result.arena ∧
    result.stats.merged = 0 ∧ result.stats.dead = 0 := by
  obtain ⟨start, hstart, hturns⟩ := explore_turns hr
  obtain ⟨-, hbuilding, -⟩ := begin_eq_ok hstart
  obtain ⟨hplain, hmerged, hdead⟩ := begin_plain hstart
  obtain ⟨hplain', hmerged', hdead'⟩ := hplain.turns hbuilding hturns
  exact ⟨hplain', hmerged'.trans hmerged, hdead'.trans hdead⟩

end Construction

end OmegaAutomata
