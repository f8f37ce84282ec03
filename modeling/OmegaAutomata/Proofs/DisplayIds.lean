/-
# Display ids

The display id that a state was built with is replaced at most once, whatever passes run, and
never that of the initial state.  The fresh numbers go on where the built automaton ends, so each of
them is above all that were in use (`Automaton.RenamesOnce`), and there are fewer of them than
states that were built.

After a pass that ends by telling states apart, and so after a minimization, a display id and a
counter name one state (`distinct_names_of_runPasses`).
-/

import Mathlib
import OmegaAutomata.Proofs.Automaton.Renaming
import OmegaAutomata.Proofs.Consistency

namespace OmegaAutomata

open Arena (Renaming)

namespace Arena

variable {a b : Arena} {m last : Int} {log : List Renaming}

/-- **Fresh numbers grow.** -/
theorem Tracks.after_lt (h : a.Tracks m log last b) {l l' : List Renaming} {r q : Renaming}
    (hlog : log = l ++ r :: l') (hq : q ∈ l) : q.after < r.after := by
  have hsorted : (log.map Renaming.after).Pairwise (· < ·) := by
    rw [h.after_eq, List.pairwise_map]
    exact List.pairwise_lt_range.imp fun hij => by omega
  rw [hlog, List.map_append, List.pairwise_append] at hsorted
  exact hsorted.2.2 _ (List.mem_map_of_mem hq) _ (List.mem_map_of_mem List.mem_cons_self)

end Arena

namespace Automaton

variable {b c : Automaton} {log : List Renaming}

/-- What the renamings between `b` and `c` do.  They are given in order. -/
structure RenamesOnce (b : Automaton) (log : List Renaming) (c : Automaton) : Prop where
  /-- No state is renamed twice. -/
  once : (log.map Renaming.state).Nodup
  /-- A state that is renamed is not the initial one, and had its display id in `b`. -/
  renamed : ∀ r ∈ log, b.initial ≠ some r.state ∧
    ∃ s, b.liveState? r.state = some s ∧ s.identity = r.before
  /-- The new display id is above all that were in use: those of `b` and the new ones. -/
  fresh : ∀ l r l', log = l ++ r :: l' →
    (∀ x s, b.liveState? x = some s → s.identity < r.after) ∧ ∀ q ∈ l, q.after < r.after
  /-- A state that is left has the display id of its renaming, or that of `b` if there is none. -/
  shown : ∀ x s, c.liveState? x = some s → ∃ t, b.liveState? x = some t ∧
    (t.identity = s.identity ∧ x ∉ log.map Renaming.state ∨ ⟨x, t.identity, s.identity⟩ ∈ log)
  /-- The initial state is that of `b`, with its display id. -/
  initial : ∀ i, c.initial = some i → b.initial = some i ∧
    ∃ s t, b.liveState? i = some s ∧ c.liveState? i = some t ∧ t.identity = s.identity
  /-- There are fewer renamings than states of `b`. -/
  length_lt : log.length < b.states.length
  last_eq : c.lastIdentity = b.lastIdentity + log.length

/-- Renamed states are live states of `b` other than the initial one, which are fewer than all. -/
theorem Tracked.length_lt (h : Tracked b log c) (hb : b.Rooted) (hwf : b.WellFormed)
    {i : StateId} (hi : b.initial = some i) :
    (∀ r ∈ log, b.initial ≠ some r.state) ∧ log.length < b.states.length := by
  have hinitial (r : Renaming) (hr : r ∈ log) : b.initial ≠ some r.state := by
    intro hstate
    obtain ⟨t, ht, -, hsource⟩ := h.tracks.before r hr
    rw [(hb.initial _ t hstate ht).2] at hsource
    contradiction
  have hsubset : i :: log.map Renaming.state ⊆ b.arena.live := by
    refine List.cons_subset.2 ⟨(hwf.valid.mem_live i).2 (hwf.live_initial hi), fun x hx => ?_⟩
    obtain ⟨r, hr, rfl⟩ := List.mem_map.1 hx
    obtain ⟨t, ht, -⟩ := h.tracks.before r hr
    exact (hwf.valid.mem_live _).2 ⟨t, ht⟩
  have hnodup : (i :: log.map Renaming.state).Nodup := by
    refine List.nodup_cons.2 ⟨fun hmem => ?_, h.tracks.nodup⟩
    obtain ⟨r, hr, hstate⟩ := List.mem_map.1 hmem
    exact hinitial r hr (hstate ▸ hi)
  have hlength := (hnodup.subperm hsubset).length_le
  rw [List.length_cons, List.length_map, ← hwf.length_states] at hlength
  exact ⟨hinitial, hlength⟩

/-- **What is tracked from an automaton with an initial state** renames each state at most once. -/
theorem Tracked.renamesOnce (h : Tracked b log c) (hb : b.Rooted) (hwf : b.WellFormed)
    {i : StateId} (hi : b.initial = some i) : b.RenamesOnce log c where
  once := h.tracks.nodup
  renamed r hr := by
    obtain ⟨t, ht, hbefore, -⟩ := h.tracks.before r hr
    exact ⟨(h.length_lt hb hwf hi).1 r hr, t, liveState?_eq_some.2 ht, hbefore⟩
  fresh l r l' hlog := by
    refine ⟨fun x s hs => ?_, fun q hq => h.tracks.after_lt hlog hq⟩
    have hle := hb.le_last x s (liveState?_eq_some.1 hs)
    have hlt := (h.tracks.mem_after (hlog ▸ List.mem_append_right l List.mem_cons_self)).1
    omega
  shown x s hs := by
    obtain ⟨t, ht, -, hshown⟩ := h.tracks.shown x s (liveState?_eq_some.1 hs)
    exact ⟨t, liveState?_eq_some.2 ht, hshown⟩
  initial j hj := by
    have hbj := h.initial j hj
    obtain ⟨s, hs⟩ := hwf.live_initial hbj
    obtain ⟨t, ht⟩ := h.wellFormed.live_initial hj
    have hsame := (h.rooted.initial j t hj ht).1.trans (hb.initial j s hbj hs).1.symm
    exact ⟨hbj, s, t, liveState?_eq_some.2 hs, liveState?_eq_some.2 ht, hsame⟩
  length_lt := (h.length_lt hb hwf hi).2
  last_eq := h.tracks.last_eq

end Automaton

variable {g : Generalized} {options : Options} {b c : Automaton} {stats : BuildStats}
  {passes : List Automaton.Pass}

/-- **Names are unique, and no state is renamed twice.**  Whatever display ids the generalized
automaton has, after any passes over what was built the largest display id is at least that of every
state.  The passes rename each state at most once, to a number above all in use, never the initial
state, and fewer times than there were states, which bounds the largest display id.  If the last
pass is a merging or a minimization then no two states show the same display id and counter. -/
theorem distinct_names_of_runPasses (h : build g options = .ok (b, stats))
    (hc : b.runPasses passes = .ok c) :
    (∀ p, passes.getLast? = some p → (p = .merging ∨ ∃ refine, p = .minimization refine) →
      ∀ x y s t, c.liveState? x = some s → c.liveState? y = some t →
        s.identity = t.identity → s.counter = t.counter → x = y) ∧
    (∀ x s, c.liveState? x = some s → s.identity ≤ c.lastIdentity) ∧
    c.lastIdentity ≤ g.maxIdentity + b.states.length - 1 ∧
    ∃ log, b.runPassesLogged passes = .ok (log, c) ∧ b.RenamesOnce log c := by
  obtain ⟨hwf, -⟩ := build_eq_ok h
  obtain ⟨-, -, -, hinitial, -, hlast, -⟩ := build_eq_redirect h
  have hb := build_rooted h
  obtain ⟨log, hlog, htracked, hdistinct⟩ := hb.exists_tracked hwf hc
  have honce := htracked.renamesOnce hb hwf hinitial
  refine ⟨fun p hp hpass x y s t hs ht => hdistinct p hp hpass x y s t
    (Automaton.liveState?_eq_some.1 hs) (Automaton.liveState?_eq_some.1 ht),
    fun x s hs => htracked.rooted.le_last x s (Automaton.liveState?_eq_some.1 hs), ?_, log, hlog,
    honce⟩
  have hlt := honce.length_lt
  have heq := honce.last_eq
  rw [hlast] at heq
  omega

/-- An automaton with two states that show the same display id. -/
def Generalized.twins : Generalized where
  states := #[⟨1, [⟨1, .always, ∅⟩]⟩, ⟨2, [⟨2, ⟨∅, .singleton 0, rfl⟩, ∅⟩]⟩, ⟨2, [⟨2, .always, ∅⟩]⟩]
  initial := [0]
  sets := 0
  propositions := #["a"]

/-- Merging tells the two states apart: the later one is renamed, and only once in two passes. -/
theorem distinct_names_twins : ∃ b stats c, build .twins ⟨true, true, true⟩ = .ok (b, stats) ∧
    b.runPasses [.merging, .minimization true] = .ok c ∧
      b.runPassesLogged [.merging, .minimization true] = .ok ([⟨2, 2, 3⟩], c) ∧
        b.RenamesOnce [⟨2, 2, 3⟩] c ∧ c.lastIdentity = 3 := by
  have hlog : (build .twins ⟨true, true, true⟩ >>= fun r =>
      Prod.fst <$> r.1.runPassesLogged [.merging, .minimization true]) = .ok [⟨2, 2, 3⟩] := by cbv
  obtain ⟨⟨b, stats⟩, hb, hlog⟩ := bind_eq_ok.1 hlog
  obtain ⟨⟨log, c⟩, hc, hlog⟩ := map_eq_ok.1 hlog
  cases hlog
  have hrun : b.runPasses [.merging, .minimization true] = .ok c := by
    rw [← Automaton.runPassesLogged_snd, hc]
    rfl
  obtain ⟨-, -, -, log, hlog, honce⟩ := distinct_names_of_runPasses hb hrun
  cases hc.symm.trans hlog
  obtain ⟨-, -, -, -, -, hlast, -⟩ := build_eq_redirect hb
  exact ⟨b, stats, c, hb, hrun, hc, honce, by rw [honce.last_eq, hlast]; rfl⟩

end OmegaAutomata
