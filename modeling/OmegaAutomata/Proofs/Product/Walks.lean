/-
# Paths that come back again and again

If finitely many elements all reach one another along a relation, some infinite
path visits each of them infinitely often: a closed path through all of them,
repeated for ever.  For a strongly connected component this gives the run that takes
all of its inner edges infinitely often.
-/

import OmegaAutomata.Word
import Mathlib.Data.List.Chain
import Mathlib.Logic.Relation

namespace OmegaAutomata

variable {α : Type} {R : α → α → Prop}

/-- A path from `a` to `b` as a list of what lies between. -/
theorem exists_isChain_of_transGen {a b : α} (h : Relation.TransGen R a b) :
    ∃ ws : List α, (a :: ws ++ [b]).IsChain R := by
  induction h using Relation.TransGen.head_induction_on with
  | single hab => exact ⟨[], List.isChain_pair.2 hab⟩
  | @head a c hac _ ih =>
    obtain ⟨ws, hws⟩ := ih
    exact ⟨c :: ws, List.isChain_cons_cons.2 ⟨hac, hws⟩⟩

/-- A path from `a` to `b` that passes through given elements, all of which reach one another. -/
theorem exists_isChain_through {S : α → Prop}
    (hS : ∀ a b, S a → S b → Relation.TransGen R a b) :
    ∀ (cs : List α) {a b : α}, (∀ c ∈ cs, S c) → S a → S b →
      ∃ ws : List α, (a :: ws ++ [b]).IsChain R ∧ ∀ c ∈ cs, c ∈ ws
  | [], a, b, _, ha, hb => by
    obtain ⟨ws, hws⟩ := exists_isChain_of_transGen (hS a b ha hb)
    exact ⟨ws, hws, fun _ hc => absurd hc List.not_mem_nil⟩
  | c :: cs, a, b, hcs, ha, hb => by
    have hc := hcs c List.mem_cons_self
    obtain ⟨us, hus⟩ := exists_isChain_of_transGen (hS a c ha hc)
    obtain ⟨ws, hws, hmem⟩ := exists_isChain_through hS cs
      (fun d hd => hcs d (List.mem_cons_of_mem c hd)) hc hb
    refine ⟨us ++ c :: ws, ?_, fun d hd => ?_⟩
    · have hsplit : a :: (us ++ c :: ws) ++ [b] = (a :: us) ++ c :: (ws ++ [b]) := by simp
      rw [hsplit]
      exact List.isChain_split.2 ⟨hus, hws⟩
    · rcases List.mem_cons.1 hd with rfl | hd
      · exact List.mem_append_right _ List.mem_cons_self
      · exact List.mem_append_right _ (List.mem_cons_of_mem c (hmem d hd))

/-- **Elements that reach one another lie on one recurring path.**  It begins at any of them. -/
theorem exists_recurring_path {cs : List α} {a : α} (ha : a ∈ cs)
    (hcs : ∀ b ∈ cs, ∀ c ∈ cs, Relation.TransGen R b c) :
    ∃ f : Nat → α, f 0 = a ∧ (∀ i, R (f i) (f (i + 1))) ∧
      ∀ c ∈ cs, InfinitelyOften fun i => f i = c := by
  obtain ⟨ws, hchain, hmem⟩ :=
    exists_isChain_through (S := (· ∈ cs)) (fun b c hb hc => hcs b hb c hc)
    cs (fun _ h => h) ha ha
  -- the closed path without its end, which is its beginning again
  let path := a :: ws
  have hpos : 0 < path.length := Nat.succ_pos _
  have hget (i : Nat) : path[i % path.length]? =
      some (path.get ⟨i % path.length, Nat.mod_lt i hpos⟩) := List.getElem?_eq_getElem _
  have hend : ∀ i ≤ path.length, (path ++ [a])[i]? = path[i % path.length]? := by
    intro i hi
    rcases Nat.lt_or_eq_of_le hi with hlt | rfl
    · rw [Nat.mod_eq_of_lt hlt, List.getElem?_append_left hlt]
    · rw [Nat.mod_self, List.getElem?_append_right (Nat.le_refl _), Nat.sub_self]
      rfl
  refine ⟨fun i => path.get ⟨i % path.length, Nat.mod_lt i hpos⟩, ?_, fun i => ?_,
    fun c hc n => ?_⟩
  · simp only [Nat.zero_mod]
    rfl
  · have hlt := Nat.mod_lt i hpos
    have hcur := hend (i % path.length) (Nat.le_of_lt hlt)
    have hnext := hend (i % path.length + 1) hlt
    rw [Nat.mod_mod, hget] at hcur
    rw [Nat.mod_add_mod, hget] at hnext
    obtain ⟨h₁, hcur⟩ := List.getElem?_eq_some_iff.1 hcur
    obtain ⟨h₂, hnext⟩ := List.getElem?_eq_some_iff.1 hnext
    beta_reduce
    rw [← hcur, ← hnext]
    exact List.isChain_iff_getElem.1 hchain _ h₂
  · obtain ⟨k, hk, hkc⟩ := List.getElem_of_mem (List.mem_cons_of_mem a (hmem c hc))
    refine ⟨k + path.length * n, ?_, ?_⟩
    · exact Nat.le_trans (Nat.le_mul_of_pos_left n hpos) (Nat.le_add_left _ k)
    · have hmod : (k + path.length * n) % path.length = k := by
        rw [Nat.add_mul_mod_self_left, Nat.mod_eq_of_lt hk]
      simp only [hmod]
      exact hkc

end OmegaAutomata
