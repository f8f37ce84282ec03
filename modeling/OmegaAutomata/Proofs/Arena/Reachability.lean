/-
# No operation cuts a path

An operation of a minimization may take edges and states away, but none takes the last path to a
state that is left.  Subsumed transitions are dropped and transitions are redirected without a
change to any edge.  A state that is retired for want of transitions is on no path to another one
(`Grounded.retireNow_none`), and a path through a state that is merged goes on through its partner
(`Grounded.mergeInto`).

`Grounded` asks this of paths from one state only, and it asks nothing once that state is gone
itself: an automaton that loses its initial state is cleared.
-/

import OmegaAutomata.Arena.Identities
import OmegaAutomata.Proofs.Arena.Rest

namespace OmegaAutomata

namespace Arena

variable {a b : Arena} {k n : Nat} {root id p x y : StateId} {s t : State} {ids : List StateId}
  {spared : Option StateId}

/-- Whether every live state can be reached from `root`, unless this is gone. -/
def Grounded (root : StateId) (a : Arena) : Prop :=
  ∀ r x s, a.LiveAt root r → a.LiveAt x s → Relation.ReflTransGen a.Leads root x

theorem Reached.grounded (h : a.Reached (some root)) : a.Grounded root := by
  intro r x s _ hs
  obtain ⟨i, -, hi, -, hix⟩ := h x s hs
  cases hi
  exact hix

/-- A path to another state does not come through one that leads nowhere. -/
theorem reaches_retireNow_none (hid : a.LiveAt id s) (hdead : ∀ y, ¬a.Leads id y)
    (hxy : Relation.ReflTransGen a.Leads x y) (hy : y ≠ id) :
    Relation.ReflTransGen (a.retireNow id none).Leads x y := by
  induction hxy with
  | refl => exact .refl
  | @tail y z _ hyz ih =>
    have hne : y ≠ id := by
      rintro rfl
      exact hdead z hyz
    exact (ih hne).tail ((leads_retireNow_none hid).2 ⟨hyz, hne, hy⟩)

namespace Grounded

/-- Without fewer edges or more states no path is lost. -/
theorem congr (h : a.Grounded root) (hlive : ∀ x s, b.LiveAt x s → ∃ t, a.LiveAt x t)
    (hleads : ∀ x y, a.Leads x y → b.Leads x y) : b.Grounded root := by
  intro r x s hr hs
  obtain ⟨r', hr'⟩ := hlive root r hr
  obtain ⟨t, ht⟩ := hlive x s hs
  exact Relation.ReflTransGen.mono hleads _ _ (h r' x t hr' ht)

theorem of_system (h : a.Grounded root) (hlive : ∀ x s, b.LiveAt x s → ∃ t, a.LiveAt x t)
    (hsystem : b.system 0 = a.system 0) : b.Grounded root := by
  refine h.congr hlive fun x y hxy => ?_
  rwa [← edge_system b 0, hsystem, edge_system]

theorem modify (h : a.Grounded root) {f : State → State}
    (hf : ∀ t, (f t).transitions = t.transitions) : (a.modify id f).Grounded root := by
  refine h.congr (fun x s hs => ?_) fun x y => (leads_modify hf).2
  obtain ⟨t, ht, -⟩ := liveAt_modify.1 hs
  exact ⟨t, ht⟩

/-- **A state that leads nowhere** is on no path to another one. -/
theorem retireNow_none (h : a.Grounded root) (hid : a.LiveAt id s) (hdead : ∀ y, ¬a.Leads id y) :
    (a.retireNow id none).Grounded root := by
  intro r x t hr ht
  exact reaches_retireNow_none hid hdead
    (h r x t (liveAt_retireNow.1 hr).2 (liveAt_retireNow.1 ht).2) (liveAt_retireNow.1 ht).1

/-- **A path through a state that is merged** goes on through the state that it is merged into,
since the two lead to the same states. -/
theorem mergeInto (h : a.Grounded root) (hid : a.LiveAt id s) (hp : a.LiveAt p t) (hne : p ≠ id)
    (hmatch : ∀ r, r ∈ s.transitions ↔ r ∈ t.transitions) :
    ((a.modify p fun t => t.absorb s).retireNow id (some p)).Grounded root := by
  have hmerges := merges_system hid hp hne hmatch 0
  have hlift (x y : StateId) (hxy : a.Leads x y) :
      ((a.modify p fun t => t.absorb s).retireNow id (some p)).Leads
        (System.rename id p x) (System.rename id p y) := by
    rw [← edge_system _ 0] at hxy ⊢
    obtain ⟨v, hv⟩ := hxy
    exact ⟨v, (hmerges.step_iff _ _ _).2 ⟨hmerges.rename_ne x, y, hmerges.step_rename.2 hv, rfl⟩⟩
  intro r x u hr hu
  obtain ⟨hroot, hr⟩ := liveAt_retireNow.1 hr
  obtain ⟨hx, hu⟩ := liveAt_retireNow.1 hu
  obtain ⟨r', hr', -⟩ := liveAt_modify.1 hr
  obtain ⟨u', hu', -⟩ := liveAt_modify.1 hu
  have hpath : Relation.ReflTransGen
      ((a.modify p fun t => t.absorb s).retireNow id (some p)).Leads
      (System.rename id p root) (System.rename id p x) :=
    Relation.ReflTransGen.lift _ hlift _ _ (h r' x u' hr' hu')
  rwa [System.rename_of_ne hroot, System.rename_of_ne hx] at hpath

theorem separateEach (h : a.Grounded root) {last last' : Int}
    (hb : separateEach ids last a = .ok (last', b)) : b.Grounded root := by
  induction ids generalizing a last with
  | nil =>
    cases hb
    exact h
  | cons id older ih =>
    rw [Arena.separateEach] at hb
    obtain ⟨s, -, hb⟩ := bind_eq_ok.1 hb
    obtain ⟨states, -, hb⟩ := bind_eq_ok.1 hb
    obtain ⟨⟨next, identity⟩, -, hb⟩ := bind_eq_ok.1 hb
    have hf : ∀ t : State, ({ t with identity := identity } : State).transitions = t.transitions :=
      fun _ => rfl
    exact ih (h.modify hf) hb

end Grounded

/-! ### Subsumption and merging -/

theorem Valid.grounded_dropSubsumed (h : a.Valid) (hg : a.Grounded root) :
    a.dropSubsumed.2.Grounded root :=
  hg.of_system (h.dropSubsumed 0).2.2.live (h.system_dropSubsumed 0)

/-- Visiting a state cuts no path, whatever becomes of it. -/
theorem Valid.grounded_mergeOne (h : a.Valid) (hg : a.Grounded root) {gone : Bool}
    (hid : a.LiveAt id s) (hb : a.mergeOne k id ids = .ok (gone, b)) : b.Grounded root := by
  rcases h.mergeOne_cases hid hb with ⟨hnil, rfl⟩ | ⟨rfl, -⟩ | ⟨p, t, -, -, -, hp, hmatch, hne, rfl⟩
  · exact hg.retireNow_none hid (not_leads_of_transitions_eq_nil hid hnil)
  · exact hg
  · exact hg.mergeInto hid hp hne (State.matchesIn_iff.1 hmatch).2

/-- **Merging cuts no path**, one visit after another. -/
theorem Merging.grounded_steps {q r : List StateId × Arena} (h : Merging k a q)
    (hqr : Relation.ReflTransGen (MergeStep k) q r) (hg : q.2.Grounded root) :
    r.2.Grounded root := by
  induction hqr with
  | refl => exact hg
  | tail hqr hstep ih =>
    cases hstep with
    | visit hb =>
      obtain ⟨s, hs⟩ := (h.steps hqr).live _ List.mem_cons_self
      exact (h.steps hqr).valid.grounded_mergeOne ih hs hb

/-! ### Redirection -/

/-- **A round cuts no path**, and neither does what follows it: a state that lost all transitions
leads nowhere. -/
theorem Valid.grounded_redirectRounds (h : a.Valid) (hg : a.Grounded root) {bound : Nat}
    (hb : a.redirectRounds spared bound = .ok (n, b)) : b.Grounded root := by
  induction bound generalizing a n with
  | zero =>
    cases hb
    exact hg
  | succ bound ih =>
    rw [Arena.redirectRounds] at hb
    obtain ⟨⟨dead, c⟩, hc, hb⟩ := bind_eq_ok.1 hb
    obtain ⟨⟨hvalid, hkeeps, -⟩, -⟩ := h.redirectOnce hc
    have hgc : c.Grounded root := hg.of_system (hkeeps 0).live (h.system_redirectOnce hc 0)
    dsimp only at hb
    split at hb
    · cases hb
      exact hgc
    · obtain ⟨d, hd, hb⟩ := bind_eq_ok.1 hb
      obtain ⟨⟨m, e⟩, he, hb⟩ := bind_eq_ok.1 hb
      cases hb
      obtain ⟨-, hsublist, hdead⟩ := h.redirectOnce_eq hc
      have hgd : d.Grounded root := hvalid.retireAll_induction (P := Grounded root)
        (h.live_nodup.sublist hsublist) (fun x hx => (hdead x hx).2) hd hgc
        fun _ _ _ hc hs hno => hc.retireNow_none hs hno
      exact ih (hvalid.retireAll hd).1 hgd he

/-- **Redirection cuts no path.** -/
theorem Valid.grounded_redirect (h : a.Valid) (hg : a.Grounded root)
    (hb : a.redirect spared = .ok (n, b)) : b.Grounded root := by
  obtain ⟨⟨m, c⟩, hc, hb⟩ := bind_eq_ok.1 hb
  obtain ⟨d, hd, hb⟩ := bind_eq_ok.1 hb
  cases hb
  obtain rfl := eq_sweepNow hd
  obtain ⟨⟨hvalid, -⟩, htidy⟩ := h.redirectRounds (Nat.lt_succ_self _) hc
  exact (h.grounded_redirectRounds hg hc).of_system (fun x s hs => ⟨s, hvalid.liveAt_sweepNow.1 hs⟩)
    (hvalid.system_sweepNow htidy 0)

end Arena

end OmegaAutomata
