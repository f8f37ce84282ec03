/-
# The blocks of an automaton

The never claim of an automaton that is well-formed and rooted has one block for each
state (`mem_blocks_iff`), as long as no two states have one name; the block of the
initial state comes first.  A block goes to the name of a state in a valuation exactly if
the state of the block has a transition there whose label holds (`guards_iff`).
-/

import OmegaAutomata.Proofs.Automaton.Answers
import OmegaAutomata.Proofs.Consistency
import OmegaAutomata.Proofs.NeverClaim.Names

namespace OmegaAutomata

namespace NeverClaim

/-! ### Jumps -/

/-- The guards of the jumps to a block. -/
def guardsTo (js : List Jump) (target : String) : List Label :=
  (js.filter (·.target = target)).flatMap (·.guards)

theorem mem_guardsTo {js : List Jump} {target : String} {l : Label} :
    l ∈ guardsTo js target ↔ ∃ j ∈ js, j.target = target ∧ l ∈ j.guards := by
  simp [guardsTo, and_assoc]

/-- **A guard that is added** is added to the jump to its target. -/
theorem mem_guardsTo_addGuard {js : List Jump} {guard l : Label} {target n : String} :
    l ∈ guardsTo (addGuard guard target js) n ↔
      l ∈ guardsTo js n ∨ l = guard ∧ target = n := by
  induction js with
  | nil => simp [addGuard, mem_guardsTo, and_comm]
  | cons j js ih =>
    rw [addGuard]
    split
    · rename_i h
      subst h
      simp only [mem_guardsTo, List.mem_cons, exists_eq_or_imp, List.mem_append, List.not_mem_nil,
        or_false]
      rw [and_or_left, or_right_comm, and_comm (a := l = guard)]
    · simp only [mem_guardsTo, List.mem_cons, exists_eq_or_imp] at ih ⊢
      rw [ih, or_assoc]

theorem guards_ne_nil_of_addGuard {js : List Jump} {guard : Label} {target : String}
    (h : ∀ j ∈ js, j.guards ≠ []) : ∀ j ∈ addGuard guard target js, j.guards ≠ [] := by
  induction js with
  | nil => simp [addGuard]
  | cons j js ih =>
    obtain ⟨hj, hjs⟩ := List.forall_mem_cons.1 h
    rw [addGuard]
    split
    · exact List.forall_mem_cons.2 ⟨by simp, hjs⟩
    · exact List.forall_mem_cons.2 ⟨hj, ih hjs⟩

/-- **The jumps of a block** have the labels of the transitions as guards, each under the name of
the state that it leads to. -/
theorem jumps_eq_ok {b : Automaton} {ts : List Transition} {js : List Jump}
    (h : jumps b ts = .ok js) : (∀ j ∈ js, j.guards ≠ []) ∧
      ∀ l n, l ∈ guardsTo js n ↔ ∃ t ∈ ts, t.label = l ∧ b.targetName t = .ok n := by
  have hall := foldlM_induction (P := fun rest js => (∀ j ∈ js, j.guards ≠ []) ∧
      ∀ l n, (l ∈ guardsTo js n ∨ ∃ t ∈ rest, t.label = l ∧ b.targetName t = .ok n) ↔
        ∃ t ∈ ts, t.label = l ∧ b.targetName t = .ok n) h
    ⟨by simp, by simp [mem_guardsTo]⟩ ?_
  · obtain ⟨hne, hmem⟩ := hall
    exact ⟨hne, fun l n => by simpa using hmem l n⟩
  · rintro t rest js js' ⟨hne, hmem⟩ ht
    obtain ⟨m, hm, ht⟩ := bind_eq_ok.1 ht
    cases ht
    refine ⟨guards_ne_nil_of_addGuard hne, fun l n => ?_⟩
    rw [← hmem l n, mem_guardsTo_addGuard]
    simp only [List.mem_cons, exists_eq_or_imp, hm, Except.ok.injEq]
    tauto

/-- The guards with which a block goes to another one. -/
def Body.guards (target : String) : Body → List Label
  | select jumps => guardsTo jumps target
  | _ => []

/-- The names of the blocks that a block can go to. -/
def Body.targets : Body → List String
  | select jumps => jumps.map (·.target)
  | _ => []

variable {b : Automaton} {s : State} {r : Body} {bs : List Block} {c : Block}

theorem body_eq_select {js : List Jump} (h : body b s = .ok (.select js)) :
    jumps b s.transitions = .ok js := by
  rw [body] at h
  split at h
  · cases h
  · obtain ⟨js', hjs, heq⟩ := map_eq_ok.1 h
    cases heq
    exact hjs

/-- A block with transitions of its own accepts nothing but what they lead to. -/
theorem body_ne_skip (h : body b s = .ok r) : r ≠ .skip := by
  rintro rfl
  rw [body] at h
  split at h
  · cases h
  · obtain ⟨js, -, heq⟩ := map_eq_ok.1 h
    contradiction

/-- **The guards of a block** are the labels of the transitions of its state. -/
theorem mem_guards_of_body (h : body b s = .ok r) {l : Label} {n : String} :
    l ∈ r.guards n ↔ ∃ t ∈ s.transitions, t.label = l ∧ b.targetName t = .ok n := by
  rw [body] at h
  split at h
  · rename_i hnil
    cases h
    simp [Body.guards, List.isEmpty_iff.1 hnil]
  · obtain ⟨js, hjs, rfl⟩ := map_eq_ok.1 h
    exact (jumps_eq_ok hjs).2 l n

/-- A block goes to names of states that its state has transitions to. -/
theorem mem_targets_of_body (h : body b s = .ok r) {n : String} (hn : n ∈ r.targets) :
    ∃ t ∈ s.transitions, b.targetName t = .ok n := by
  cases r with
  | stuck => exact absurd hn List.not_mem_nil
  | skip => exact absurd hn List.not_mem_nil
  | select js =>
    obtain ⟨j, hj, rfl⟩ := List.mem_map.1 hn
    obtain ⟨l, hl⟩ := List.exists_mem_of_ne_nil _ ((jumps_eq_ok (body_eq_select h)).1 j hj)
    obtain ⟨t, ht, -, hname⟩ := (mem_guards_of_body h).1 (mem_guardsTo.2 ⟨j, hj, rfl, hl⟩)
    exact ⟨t, ht, hname⟩

/-! ### Blocks -/

/-- What the block of a state does, one that accepts every word included. -/
def stateBody (b : Automaton) (s : State) : Except Fault Body :=
  if b.isUniversal s then .ok .skip else body b s

/-- Without a state there is one block, which is stuck. -/
theorem blocks_of_isEmpty (hempty : b.isEmpty = true) (hbs : blocks b = .ok bs) :
    bs = [⟨"T0_init", .stuck⟩] := by
  rw [blocks, parts, if_pos hempty] at hbs
  cases hbs
  rfl

theorem parts_eq (hempty : b.isEmpty = false) (htrivial : isTrivial b = false) :
    parts b = ((b.states.map Prod.snd).filter fun s => !b.isUniversal s).map
        (fun s => (b.stateName s, body b s)) ++
      if (b.states.map Prod.snd).any b.isUniversal then [("accept_all", .ok .skip)] else [] := by
  rw [parts, hempty, htrivial]
  rfl

theorem mem_parts_iff (hempty : b.isEmpty = false) (htrivial : isTrivial b = false)
    {p : String × Except Fault Body} : p ∈ parts b ↔
      ∃ s ∈ b.states.map Prod.snd, p = (b.stateName s, stateBody b s) := by
  rw [parts_eq hempty htrivial, List.mem_append]
  constructor
  · rintro (hp | hp)
    · obtain ⟨s, hs, rfl⟩ := List.mem_map.1 hp
      obtain ⟨hs, huniversal⟩ := List.mem_filter.1 hs
      exact ⟨s, hs, by rw [stateBody, if_neg (by simpa using huniversal)]⟩
    · split at hp
      · rename_i hany
        obtain ⟨s, hs, huniversal⟩ := List.any_eq_true.1 hany
        refine ⟨s, hs, ?_⟩
        rw [List.mem_singleton.1 hp, stateBody, if_pos huniversal, Automaton.stateName,
          if_pos huniversal]
      · exact absurd hp List.not_mem_nil
  · rintro ⟨s, hs, rfl⟩
    cases huniversal : b.isUniversal s with
    | false =>
      refine .inl (List.mem_map.2 ⟨s, List.mem_filter.2 ⟨hs, by rw [huniversal]; rfl⟩, ?_⟩)
      rw [stateBody, huniversal, if_neg Bool.false_ne_true]
    | true =>
      refine .inr ?_
      rw [if_pos (List.any_eq_true.2 ⟨s, hs, huniversal⟩), stateBody, if_pos huniversal,
        Automaton.stateName, if_pos huniversal]
      exact List.mem_singleton_self _

/-- **There is a block for each state**, and no other. -/
theorem mem_blocks_iff (hempty : b.isEmpty = false) (htrivial : isTrivial b = false)
    (hbs : blocks b = .ok bs) : c ∈ bs ↔
      ∃ s ∈ b.states.map Prod.snd, c.name = b.stateName s ∧ stateBody b s = .ok c.body := by
  have hc : c ∈ bs ↔ (c.name, Except.ok c.body) ∈ parts b := by
    rw [parts_eq_of_blocks hbs, List.mem_map]
    refine ⟨fun h => ⟨c, h, rfl⟩, ?_⟩
    rintro ⟨d, hd, heq⟩
    obtain ⟨hname, hbody⟩ := Prod.mk.inj heq
    obtain rfl : d = c := by
      cases d
      cases c
      cases hname
      cases hbody
      rfl
    exact hd
  rw [hc, mem_parts_iff hempty htrivial]
  refine exists_congr fun s => and_congr_right fun _ => ?_
  rw [Prod.mk.injEq, eq_comm (b := stateBody b s)]

/-- **The names of the blocks** are those of the states, if these are different. -/
theorem perm_names (hempty : b.isEmpty = false) (htrivial : isTrivial b = false)
    (hbs : blocks b = .ok bs) (hnodup : ((b.states.map Prod.snd).map b.stateName).Nodup) :
    (bs.map Block.name).Perm ((b.states.map Prod.snd).map b.stateName) := by
  have hnames : bs.map Block.name = (parts b).map Prod.fst := by
    rw [parts_eq_of_blocks hbs, List.map_map]
    rfl
  rw [hnames]
  refine (List.perm_ext_iff_of_nodup ?_ hnodup).2 fun n => ?_
  · rw [parts_eq hempty htrivial, List.map_append, List.map_map]
    refine List.nodup_append.2 ⟨hnodup.sublist (List.filter_sublist.map b.stateName), ?_, ?_⟩
    · split
      · exact List.nodup_singleton _
      · exact List.nodup_nil
    · rintro n hn _ hall rfl
      obtain ⟨s, hs, rfl⟩ := List.mem_map.1 hn
      have hordinary := (List.mem_filter.1 hs).2
      split at hall
      · rename_i hany
        obtain ⟨t, ht, huniversal⟩ := List.any_eq_true.1 hany
        have hname : b.stateName s = b.stateName t := by
          rw [Automaton.stateName.eq_def b t, if_pos huniversal]
          exact List.mem_singleton.1 hall
        rw [Automaton.isUniversal_eq_of_stateName hname, huniversal] at hordinary
        contradiction
      · exact List.not_mem_nil hall
  · constructor
    · intro hn
      obtain ⟨p, hp, rfl⟩ := List.mem_map.1 hn
      obtain ⟨s, hs, rfl⟩ := (mem_parts_iff hempty htrivial).1 hp
      exact List.mem_map_of_mem hs
    · intro hn
      obtain ⟨s, hs, rfl⟩ := List.mem_map.1 hn
      exact List.mem_map_of_mem (f := Prod.fst) ((mem_parts_iff hempty htrivial).2 ⟨s, hs, rfl⟩)

end NeverClaim

namespace Automaton

open NeverClaim

variable {b : Automaton} {x y : StateId} {s t : State} {bs : List Block} {c : Block}

/-! ### Blocks of a well-formed automaton -/

/-- The initial state has the display id that is kept for it, so the automaton is not trivial. -/
theorem Rooted.isTrivial_eq_false (h : b.Rooted) (hwf : b.WellFormed) : isTrivial b = false := by
  rw [isTrivial]
  rcases (h.consistent hwf).initial with ⟨-, hnil, -⟩ | ⟨i, s, rest, -, hstates, -, hidentity, -⟩
  · rw [hnil]
  · rw [hstates]
    cases rest with
    | nil =>
      show (s.identity == universalIdentity) = false
      rw [hidentity]
      rfl
    | cons p rest => rfl

/-- **States have different names** if no two of them have the same counter and display id. -/
theorem WellFormed.names_nodup (h : b.WellFormed) (hd : b.arena.Distinct) :
    ((b.states.map Prod.snd).map b.stateName).Nodup := by
  rw [List.map_map]
  refine List.Nodup.map_on (fun ⟨x, s⟩ hs ⟨y, t⟩ ht hname => ?_) h.nodup_states
  obtain ⟨hcounter, hidentity⟩ := stateName_inj.1 hname
  have hs := h.mem_states.1 hs
  have ht := h.mem_states.1 ht
  obtain rfl := hd x y s t hs ht hidentity hcounter
  rw [hs.unique ht]

theorem targetName_eq_ok {t : Transition} {n : String} :
    b.targetName t = .ok n ↔ ∃ u, b.arena.LiveAt t.target u ∧ b.stateName u = n := by
  rw [targetName, map_eq_ok]
  refine exists_congr fun u => and_congr_left fun _ => ⟨fun hu => ?_, fun hu => ?_⟩
  · have hlive := hu
    rw [state] at hlive
    split at hlive
    · rename_i hx
      obtain ⟨v, hv⟩ := Arena.isLive_iff.1 hx
      cases hu.symm.trans (state_eq_ok (liveState?_eq_some.2 hv))
      exact hv
    · contradiction
  · exact state_eq_ok (liveState?_eq_some.2 hu)

/-- **Guards follow transitions.**  In a valuation the block of a state goes to the name of another
state if and only if the state has a transition there that can be taken. -/
theorem guards_iff (hd : b.arena.Distinct) {r : Body} (hr : body b s = .ok r)
    (ht : b.arena.LiveAt y t) {v : IndexSet} :
    (∃ l ∈ r.guards (b.stateName t), l.holds v = true) ↔
      ∃ u ∈ s.transitions, u.target = y ∧ u.label.holds v = true := by
  constructor
  · rintro ⟨l, hl, hholds⟩
    obtain ⟨u, hu, rfl, hname⟩ := (mem_guards_of_body hr).1 hl
    obtain ⟨t', ht', hname⟩ := targetName_eq_ok.1 hname
    obtain ⟨hcounter, hidentity⟩ := stateName_inj.1 hname
    exact ⟨u, hu, hd _ _ _ _ ht' ht hidentity hcounter, hholds⟩
  · rintro ⟨u, hu, rfl, hholds⟩
    exact ⟨u.label, (mem_guards_of_body hr).2 ⟨u, hu, rfl, targetName_eq_ok.2 ⟨t, ht, rfl⟩⟩, hholds⟩

/-- **The block of the initial state** comes first. -/
theorem Rooted.head_blocks (h : b.Rooted) (hwf : b.WellFormed) (hbs : blocks b = .ok bs)
    (hx : b.initial = some x) (hs : b.arena.LiveAt x s) :
    ∃ c, bs.head? = some c ∧ c.name = b.stateName s := by
  rcases (h.consistent hwf).initial with ⟨hnone, -⟩ | ⟨i, u, rest, hi, hstates, hu, hidentity, -⟩
  · rw [hnone] at hx
    contradiction
  · cases hx.symm.trans hi
    cases hs.unique (liveState?_eq_some.1 hu)
    have hempty : b.isEmpty = false := by
      rw [isEmpty, List.isEmpty_eq_false_iff]
      exact List.ne_nil_of_mem ((hwf.valid.mem_live x).2 ⟨s, hs⟩)
    have huniversal : b.isUniversal s = false := by
      rw [isUniversal, hidentity]
      rfl
    have hparts := parts_eq_of_blocks hbs
    rw [parts_eq hempty (h.isTrivial_eq_false hwf), hstates, List.map_cons,
      List.filter_cons_of_pos (by rw [huniversal]; rfl), List.map_cons, List.cons_append] at hparts
    cases bs with
    | nil => contradiction
    | cons c cs => exact ⟨c, rfl, (Prod.mk.inj (List.cons.inj hparts).1).1.symm⟩

/-- What the block of a state does can be read back if the labels of the state can. -/
theorem readable_body {r : Body} {n : Nat} (hr : body b s = .ok r)
    (hlabels : ∀ t ∈ s.transitions, t.label.Below n) : ∀ l ∈ r.toLines, l.Readable n := by
  cases r with
  | stuck => exact fun l hl => List.mem_singleton.1 hl ▸ trivial
  | skip => exact fun l hl => List.mem_singleton.1 hl ▸ trivial
  | select js =>
    intro l hl
    rcases List.mem_cons.1 hl with rfl | hl
    · trivial
    · rcases List.mem_append.1 hl with hl | hl
      · obtain ⟨j, hj, rfl⟩ := List.mem_map.1 hl
        refine ⟨?_, fun guard hguard => ?_, ?_⟩
        · exact (jumps_eq_ok (body_eq_select hr)).1 j hj
        · obtain ⟨t, ht, rfl, -⟩ :=
            (mem_guards_of_body hr).1 (mem_guardsTo.2 ⟨j, hj, rfl, hguard⟩)
          exact hlabels t ht
        · obtain ⟨t, -, ht⟩ := mem_targets_of_body hr (List.mem_map_of_mem hj)
          obtain ⟨u, -, hu⟩ := targetName_eq_ok.1 ht
          exact hu ▸ isName_stateName b u
      · exact List.mem_singleton.1 hl ▸ trivial

/-- **Blocks can be read back** if the labels have declared propositions only. -/
theorem readable_blocks (h : b.WellFormed) (htrivial : isTrivial b = false)
    (hbs : blocks b = .ok bs) {n : Nat} (hlabels : b.arena.Labelled (Label.Below n)) :
    ∀ c ∈ bs, c.Readable n := by
  cases hempty : b.isEmpty with
  | true =>
    intro c hc
    rw [blocks_of_isEmpty hempty hbs, List.mem_singleton] at hc
    subst hc
    refine List.forall_mem_cons.2 ⟨?_, List.forall_mem_singleton.2 trivial⟩
    show IsName "T0_init"
    decide
  | false =>
    intro ⟨name, body⟩ hc
    obtain ⟨s, hs, rfl, hbody⟩ := (mem_blocks_iff hempty htrivial hbs).1 hc
    obtain ⟨⟨x, s⟩, hmem, rfl⟩ := List.mem_map.1 hs
    refine List.forall_mem_cons.2 ⟨isName_stateName b s, ?_⟩
    rw [stateBody] at hbody
    split at hbody
    · cases hbody
      exact fun l hl => List.mem_singleton.1 hl ▸ trivial
    · exact readable_body hbody (hlabels x s (h.mem_states.1 hmem))

end Automaton

end OmegaAutomata
