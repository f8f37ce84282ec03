/-
# Both ways to drop subsumed transitions

A construction on the fly drops subsumed transitions while a list grows at its front, and a
minimization drops them from finished lists.  Either way a state is left with the most general
transitions, once each (`mostGeneral_kept`), so the two differ in the order at most.

The lists are compared in `Proofs.Subsumption`.  What remains is that linking transitions one after
another grows the list of their source (`transitionsOf_links`), that it does not fail as long as
counts have room (`Spacious.exists_links`), and that the number of dropped transitions is a sum
over the live states (`dropSubsumed_fst`).
-/

import OmegaAutomata.Proofs.Arena.Rest
import OmegaAutomata.Proofs.Degeneralize.Totality

namespace OmegaAutomata

open Arena

/-- Whether a list has the most general transitions of another one, once each.  These can be taken
to the same targets on the same letters. -/
structure Transition.Condenses (kept ts : List Transition) : Prop where
  nodup : kept.Nodup
  mem_iff : ∀ t, t ∈ kept ↔ MostGeneral ts t
  exists_holds_iff : ∀ v y, (∃ t ∈ kept, t.target = y ∧ t.label.holds v = true) ↔
    ∃ t ∈ ts, t.target = y ∧ t.label.holds v = true

theorem Transition.Represents.condenses {kept ts : List Transition} (h : Represents kept ts) :
    Condenses kept ts :=
  ⟨h.nodup, fun _ => h.mem_iff, h.exists_holds_iff⟩

/-! ### Lists that grow -/

namespace Construction

variable {a b : Arena} {source x : StateId} {t : Transition} {ts : List Transition} {l : Slot}
  {onTheFly : Bool}

/-- Transitions that are linked on the fly are added one after another. -/
theorem transitionsOf_links (h : ts.foldlM (fun a t => link true a source t) a = .ok b) :
    b.transitionsOf source =
      ts.foldl (fun kept t => t.insertPruned kept) (a.transitionsOf source) := by
  induction ts generalizing a with
  | nil =>
    cases h
    rfl
  | cons t ts ih =>
    rw [List.foldlM_cons] at h
    obtain ⟨c, hc, h⟩ := bind_eq_ok.1 h
    rw [ih h, transitionsOf_link hc, if_pos rfl]
    rfl

/-- **Counts follow the list** that grows. -/
theorem incoming_link (h : link onTheFly a source t = .ok b) (hl : a.slot? x = some l) :
    ∃ m, b.slot? x = some m ∧ m.state.incoming + Transition.countTo (a.transitionsOf source) x =
      l.state.incoming + Transition.countTo (b.transitionsOf source) x := by
  have hgrow := transitionsOf_link h source
  rw [if_pos rfl] at hgrow
  obtain ⟨k, m, r, hk, hm, rfl, hr⟩ := link_eq_ok h
  rw [hgrow, transitionsOf_eq hk]
  refine ⟨_, by rw [setTransitions, recount, slot?_modify, slot?_modify, hl]; rfl, ?_⟩
  by_cases hx : x = t.target
  · subst hx
    cases hm.symm.trans hl
    rw [← hr]
    by_cases hsource : t.target = source <;> simp [hsource]
  · rw [Transition.countTo_grow_of_ne (Ne.symm hx)]
    dsimp only
    rw [if_neg hx]
    split <;> rfl

/-- Whether the transitions of a state to the targets of `ts` were counted, and as many more can be
counted as `ts` has. -/
structure Spacious (source : StateId) (ts : List Transition) (a : Arena) : Prop where
  source_some : (a.slot? source).isSome = true
  target : ∀ t ∈ ts, ∃ l, a.slot? t.target = some l ∧
    Transition.countTo (a.transitionsOf source) t.target ≤ l.state.incoming ∧
    l.state.incoming + ts.length ≤ maxIncoming

/-- Linking a transition takes up no more room than one. -/
theorem Spacious.link (h : Spacious source (t :: ts) a) :
    ∃ b, Construction.link true a source t = .ok b ∧ Spacious source ts b := by
  obtain ⟨k, hk⟩ := Option.isSome_iff_exists.1 h.source_some
  obtain ⟨l, hl, hcounted, hroom⟩ := h.target t List.mem_cons_self
  rw [List.length_cons] at hroom
  obtain ⟨b, hb⟩ := exists_link (t := t) hk hl (transitionsOf_eq hk ▸ hcounted) (by omega) true
  refine ⟨b, hb, ?_, fun u hu => ?_⟩
  · obtain ⟨m, hm, -⟩ := incoming_link hb hk
    rw [hm]
    rfl
  · obtain ⟨l, hl, hcounted, hroom⟩ := h.target u (List.mem_cons_of_mem t hu)
    obtain ⟨m, hm, hincoming⟩ := incoming_link hb hl
    have hle : Transition.countTo (b.transitionsOf source) u.target ≤
        Transition.countTo (a.transitionsOf source) u.target + 1 := by
      rw [transitionsOf_link hb, if_pos rfl]
      exact Transition.countTo_grow_le
    rw [List.length_cons] at hroom
    exact ⟨m, hm, by omega, by omega⟩

/-- **Linking never fails** while counts have room. -/
theorem Spacious.exists_links (h : Spacious source ts a) :
    ∃ b, ts.foldlM (fun a t => Construction.link true a source t) a = .ok b := by
  induction ts generalizing a with
  | nil => exact ⟨a, rfl⟩
  | cons t ts ih =>
    obtain ⟨b, hb, hspacious⟩ := h.link
    obtain ⟨c, hc⟩ := ih hspacious
    exact ⟨c, by rw [List.foldlM_cons, hb, bind_ok, hc]⟩

end Construction

/-! ### Lists of live states -/

namespace Arena

variable {a : Arena} {x : StateId}

theorem transitionCount_eq (a : Arena) :
    a.transitionCount = (a.live.map fun x => (a.transitionsOf x).length).sum := by
  rw [transitionCount, liveStates, List.length_flatMap]
  induction a.live with
  | nil => rfl
  | cons x ids ih =>
    rw [List.filterMap_cons, List.map_cons, List.sum_cons, ← ih, transitionsOf]
    cases a.slot? x with
    | none => simp
    | some l => simp

theorem Rewires.transitionsOf_eq {f : List Transition → List Transition} {b : Arena}
    (h : Rewires f a b) (hx : ∃ s, a.LiveAt x s) : b.transitionsOf x = f (a.transitionsOf x) := by
  obtain ⟨s, hs⟩ := hx
  rw [Arena.transitionsOf_eq hs, Arena.transitionsOf_eq (h.liveAt_iff.2 ⟨s, hs, rfl⟩)]

/-- **The number of dropped transitions** is the sum over all live states. -/
theorem dropSubsumed_fst (hnodup : a.live.Nodup) (hlive : ∀ x, x ∈ a.live ↔ ∃ s, a.LiveAt x s) :
    a.dropSubsumed.1 = (a.live.map fun x =>
      (a.transitionsOf x).length - (a.dropSubsumed.2.transitionsOf x).length).sum := by
  have hrewires : Rewires Transition.prune a a.dropSubsumed.2 :=
    rewires_mapTransitions hnodup hlive _
  have hsum : (a.live.map fun x => (a.transitionsOf x).length).sum =
      (a.live.map fun x => (a.transitionsOf x).length -
        (a.dropSubsumed.2.transitionsOf x).length).sum +
      (a.live.map fun x => (a.dropSubsumed.2.transitionsOf x).length).sum := by
    rw [← List.sum_map_add]
    refine congrArg List.sum (List.map_congr_left fun x hx => ?_)
    rw [hrewires.transitionsOf_eq ((hlive x).1 hx)]
    exact (Nat.sub_add_cancel (Transition.prune_sublist _).length_le).symm
  show a.transitionCount - a.dropSubsumed.2.transitionCount = _
  rw [transitionCount_eq, transitionCount_eq, hrewires.live_eq, hsum, Nat.add_sub_cancel]

end Arena

/-- **Subsumed transitions are dropped alike** while a list grows and from a finished one.  When
transitions are linked on the fly, one by one, to a state that has none, then it gets the most
general ones, once each, and this fails only if counts run out of range.  Dropping the subsumed
transitions of an arena, whose list of live states is right, leaves each live state with its most
general transitions in their order, of identical ones the last.  The number of dropped transitions
is reported, and is zero the second time.  So both give the same transitions, and these can be taken
to the same targets on the same letters as before. -/
theorem mostGeneral_kept :
    (∀ (a : Arena) (source : StateId) (ts : List Transition), (a.slot? source).isSome = true →
      a.transitionsOf source = [] →
      ((∀ t ∈ ts, ∃ l, a.slot? t.target = some l ∧
          l.state.incoming + ts.length ≤ maxIncoming) →
        ∃ b, ts.foldlM (fun a t => Construction.link true a source t) a = .ok b) ∧
      ∀ b, ts.foldlM (fun a t => Construction.link true a source t) a = .ok b →
        Transition.Condenses (b.transitionsOf source) ts ∧
          ∀ t, t ∈ b.transitionsOf source ↔ t ∈ Transition.prune ts) ∧
    ∀ a : Arena, a.live.Nodup → (∀ x, x ∈ a.live ↔ ∃ s, a.LiveAt x s) →
      ∃ b, a.dropSubsumed = ((a.live.map fun x =>
          (a.transitionsOf x).length - (b.transitionsOf x).length).sum, b) ∧
        b.dropSubsumed = (0, b) ∧ b.live = a.live ∧
        ∀ x s, a.LiveAt x s → ∃ kept, b.LiveAt x { s with transitions := kept } ∧
          Transition.Condenses kept s.transitions ∧ kept = Transition.prune s.transitions ∧
          kept = s.transitions.dedup.filter (Transition.MostGeneral s.transitions) := by
  refine ⟨fun a source ts hsome hnil => ⟨fun hroom => ?_, fun b hb => ?_⟩, fun a hnodup hlive => ?_⟩
  · refine Construction.Spacious.exists_links ⟨hsome, fun t ht => ?_⟩
    obtain ⟨l, hl, hle⟩ := hroom t ht
    refine ⟨l, hl, ?_, hle⟩
    rw [hnil]
    exact Nat.zero_le _
  · have hrepresents := Transition.represents_foldl ts
    rw [← hnil, ← Construction.transitionsOf_links hb] at hrepresents
    exact ⟨hrepresents.condenses, fun t => by
      rw [hrepresents.mem_iff, (Transition.represents_prune ts).mem_iff]⟩
  · have hrewires : Rewires Transition.prune a a.dropSubsumed.2 :=
      rewires_mapTransitions hnodup hlive _
    refine ⟨a.dropSubsumed.2, Prod.ext (dropSubsumed_fst hnodup hlive) rfl,
      dropSubsumed_eq_self (fun x hx => ?_) fun x s hs => ?_, hrewires.live_eq, fun x s hs => ?_⟩
    · exact (hrewires.stage_iff x .live).2 ((hlive x).1 (hrewires.live_eq ▸ hx))
    · obtain ⟨t, -, rfl⟩ := hrewires.liveAt_iff.1 hs
      exact Transition.prune_prune t.transitions
    · exact ⟨_, hrewires.liveAt_iff.2 ⟨s, hs, rfl⟩, (Transition.represents_prune _).condenses, rfl,
        Transition.prune_eq _⟩

/-- An arena of two live states, where the first has some transitions. -/
def pointed (ts : List Transition) : Arena where
  slots := #[some ⟨.live, { State.fresh none 0 0 with transitions := ts }⟩,
    some ⟨.live, .fresh (some 0) 0 0⟩]
  keys := ∅
  pending := []
  live := [0, 1]
  retired := []

/-- A transition to state `1` that comes up twice and subsumes another, and one to state `0`. -/
def overlapping : List Transition :=
  [⟨1, ⟨.singleton 1, ∅, rfl⟩⟩, ⟨1, .always⟩, ⟨0, ⟨.singleton 1, ∅, rfl⟩⟩, ⟨1, .always⟩]

/-- Two transitions are left, whether they are linked to a state or pruned. -/
theorem mostGeneral_kept_overlapping :
    (∃ b, overlapping.foldlM (fun a t => Construction.link true a 0 t) (pointed []) = .ok b ∧
      ∀ t, t ∈ b.transitionsOf 0 ↔ t ∈ [⟨0, ⟨.singleton 1, ∅, rfl⟩⟩, ⟨1, .always⟩]) ∧
    ∃ n b, (pointed overlapping).dropSubsumed = (n, b) ∧ b.dropSubsumed = (0, b) ∧
      b.transitionsOf 0 = [⟨0, ⟨.singleton 1, ∅, rfl⟩⟩, ⟨1, .always⟩] := by
  have hpruned : Transition.prune overlapping =
      [⟨0, ⟨.singleton 1, ∅, rfl⟩⟩, ⟨1, .always⟩] := by decide
  have hlive (x : StateId) : x ∈ (pointed overlapping).live ↔
      ∃ s, (pointed overlapping).LiveAt x s := by
    constructor
    · intro hx
      rcases List.mem_pair.1 hx with rfl | rfl
      · exact ⟨_, rfl⟩
      · exact ⟨_, rfl⟩
    · rintro ⟨s, hs⟩
      have hx : x < 2 := lt_size_of_slot? hs
      exact List.mem_pair.2 (Nat.le_one_iff_eq_zero_or_eq_one.1 (Nat.le_of_lt_succ hx))
  constructor
  · obtain ⟨hlinks, hkept⟩ := mostGeneral_kept.1 (pointed []) 0 overlapping rfl rfl
    obtain ⟨b, hb⟩ := hlinks fun t ht => by
      have htarget : ∀ t ∈ overlapping, t.target = 0 ∨ t.target = 1 := by decide
      rcases htarget t ht with h | h
      · exact ⟨_, by rw [h]; rfl, by decide⟩
      · exact ⟨_, by rw [h]; rfl, by decide⟩
    exact ⟨b, hb, fun t => by rw [(hkept b hb).2, hpruned]⟩
  · obtain ⟨b, hb, hagain, -, hstate⟩ := mostGeneral_kept.2 (pointed overlapping) (by decide) hlive
    obtain ⟨kept, hkept, -, hprune, -⟩ := hstate 0 _ rfl
    exact ⟨_, b, hb, hagain, by rw [transitionsOf_eq hkept, ← hpruned]; exact hprune⟩

end OmegaAutomata
