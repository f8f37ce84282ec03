/-
# Subsumption

Subsumption is a partial order (`subsumedBy_antisymm`), so a transition of a list is subsumed by no
other one exactly if its label implies no other label for the same target (`MostGeneral`).  Pruning
a list keeps these transitions and no others (`prune_eq`), and so does adding them one by one.

Both are instances of one fact.  A list represents another one if it has some of its transitions,
none of them subsumes another, and every transition of the other list is subsumed by one of them
(`Represents`).  Then it has exactly the most general ones (`Represents.mem_iff`).
-/

import OmegaAutomata.Arena.Subsumption
import OmegaAutomata.IndexSet.Lemmas
import Mathlib.Data.List.Dedup
import Mathlib.Data.List.Pairwise
import Mathlib.Tactic.Tauto

namespace OmegaAutomata

/-! ### Labels -/

theorem Label.implies_refl (l : Label) : l.implies l = true :=
  implies_iff.2 ⟨fun _ => id, fun _ => id⟩

theorem Label.implies_trans {l m n : Label} (hlm : l.implies m = true) (hmn : m.implies n = true) :
    l.implies n = true := by
  rw [implies_iff] at *
  exact ⟨fun x hx => hlm.1 x (hmn.1 x hx), fun x hx => hlm.2 x (hmn.2 x hx)⟩

theorem Label.implies_antisymm {l m : Label} (hlm : l.implies m = true)
    (hml : m.implies l = true) : l = m := by
  rw [implies_iff] at hlm hml
  obtain ⟨lpos, lneg, _⟩ := l
  obtain ⟨mpos, mneg, _⟩ := m
  obtain rfl : lpos = mpos := IndexSet.ext fun x => ⟨hml.1 x, hlm.1 x⟩
  obtain rfl : lneg = mneg := IndexSet.ext fun x => ⟨hml.2 x, hlm.2 x⟩
  rfl

/-- A label holds wherever one that implies it does. -/
theorem Label.holds_of_implies {l m : Label} {v : IndexSet} (h : l.implies m = true)
    (hl : l.holds v = true) : m.holds v = true := by
  rw [implies_iff] at h
  rw [holds_iff] at *
  exact ⟨fun x hx => hl.1 x (h.1 x hx), fun x hx => hl.2 x (h.2 x hx)⟩

namespace Transition

variable {t u : Transition} {ts kept rest : List Transition}

theorem subsumedBy_iff : t.subsumedBy u = true ↔
    t.target = u.target ∧ t.label.implies u.label = true := by
  rw [subsumedBy, Bool.and_eq_true, beq_iff_eq]

theorem subsumedBy_refl (t : Transition) : t.subsumedBy t = true :=
  subsumedBy_iff.2 ⟨rfl, t.label.implies_refl⟩

theorem subsumedBy_trans {r : Transition} (htu : t.subsumedBy u = true)
    (hur : u.subsumedBy r = true) : t.subsumedBy r = true := by
  rw [subsumedBy_iff] at *
  exact ⟨htu.1.trans hur.1, Label.implies_trans htu.2 hur.2⟩

theorem subsumedBy_antisymm (htu : t.subsumedBy u = true) (hut : u.subsumedBy t = true) :
    t = u := by
  rw [subsumedBy_iff] at htu hut
  obtain ⟨target, label⟩ := t
  obtain rfl : target = u.target := htu.1
  obtain rfl : label = u.label := Label.implies_antisymm htu.2 hut.2
  rfl

theorem pruneFrom_subset : ∀ r ∈ pruneFrom kept rest, r ∈ kept ++ rest := by
  induction rest generalizing kept with
  | nil => simp [pruneFrom]
  | cons t rest ih =>
    intro r hr
    unfold pruneFrom at hr
    split at hr
    · rcases List.mem_append.1 (ih r hr) with h | h
      · exact List.mem_append_left _ h
      · exact List.mem_append_right _ (List.mem_cons_of_mem _ h)
    · simpa using ih r hr

/-- Whatever is dropped on the way is subsumed by a transition that is kept to the end. -/
theorem exists_mem_pruneFrom :
    ∀ r ∈ kept ++ rest, ∃ u ∈ pruneFrom kept rest, r.subsumedBy u = true := by
  induction rest generalizing kept with
  | nil => exact fun r hr => ⟨r, by simpa [pruneFrom] using hr, r.subsumedBy_refl⟩
  | cons t rest ih =>
    intro r hr
    unfold pruneFrom
    split
    · rename_i hany
      rw [← List.any_append, List.any_eq_true] at hany
      obtain ⟨u, hu, htu⟩ := hany
      have hmem : r = t ∨ r ∈ kept ++ rest := by
        simp only [List.mem_append, List.mem_cons] at hr ⊢
        tauto
      rcases hmem with rfl | hmem
      · obtain ⟨u', hu', huu'⟩ := ih u hu
        exact ⟨u', hu', subsumedBy_trans htu huu'⟩
      · exact ih r hmem
    · exact ih r (by simpa using hr)

theorem prune_subset : ∀ r ∈ prune ts, r ∈ ts :=
  fun r hr => by simpa using pruneFrom_subset r hr

/-- Whatever is pruned is subsumed by a transition that is kept. -/
theorem exists_mem_prune (ht : t ∈ ts) : ∃ u ∈ prune ts, t.subsumedBy u = true :=
  exists_mem_pruneFrom t (by simpa using ht)

theorem mem_notSubsumed : u ∈ t.notSubsumed ts ↔ u ∈ ts ∧ u.subsumedBy t = false := by
  rw [notSubsumed, List.mem_filter, Bool.not_eq_true']

theorem insertPruned_eq (t : Transition) (ts : List Transition) : t.insertPruned ts =
    if (t.notSubsumed ts).any t.subsumedBy then t.notSubsumed ts else t :: t.notSubsumed ts := rfl

theorem insertPruned_subset : ∀ r ∈ t.insertPruned ts, r ∈ t :: ts := by
  intro r hr
  rw [insertPruned_eq] at hr
  split at hr
  · exact List.mem_cons_of_mem _ (mem_notSubsumed.1 hr).1
  · rcases List.mem_cons.1 hr with rfl | hr
    · exact List.mem_cons_self
    · exact List.mem_cons_of_mem _ (mem_notSubsumed.1 hr).1

/-- A list that grows keeps a transition that subsumes the new one, and one for each old one. -/
theorem exists_mem_insertPruned :
    ∀ r ∈ t :: ts, ∃ u ∈ t.insertPruned ts, r.subsumedBy u = true := by
  have hnew : ∃ u ∈ t.insertPruned ts, t.subsumedBy u = true := by
    rw [insertPruned_eq]
    split
    · rename_i hany
      exact List.any_eq_true.1 hany
    · exact ⟨t, List.mem_cons_self, t.subsumedBy_refl⟩
  have hkept : ∀ u ∈ t.notSubsumed ts, u ∈ t.insertPruned ts := by
    intro u hu
    rw [insertPruned_eq]
    split
    · exact hu
    · exact List.mem_cons_of_mem _ hu
  intro r hr
  cases hrt : r.subsumedBy t with
  | true =>
    obtain ⟨u, hu, htu⟩ := hnew
    exact ⟨u, hu, subsumedBy_trans hrt htu⟩
  | false =>
    rcases List.mem_cons.1 hr with rfl | hr
    · rw [subsumedBy_refl] at hrt
      contradiction
    · exact ⟨r, hkept r (mem_notSubsumed.2 ⟨hr, hrt⟩), r.subsumedBy_refl⟩

/-! ### Lists without subsumed transitions -/

/-- Whether neither of two transitions subsumes the other. -/
def Incomparable (t u : Transition) : Prop :=
  t.subsumedBy u = false ∧ u.subsumedBy t = false

/-- **A pruned list has no subsumed transition.** -/
theorem pairwise_pruneFrom (hkept : kept.Pairwise Incomparable)
    (hrest : ∀ t ∈ kept, ∀ u ∈ rest, t.subsumedBy u = false) :
    (pruneFrom kept rest).Pairwise Incomparable := by
  induction rest generalizing kept with
  | nil => exact hkept
  | cons t rest ih =>
    unfold pruneFrom
    split
    · exact ih hkept fun s hs u hu => hrest s hs u (List.mem_cons_of_mem t hu)
    · rename_i hany
      simp only [Bool.or_eq_true, List.any_eq_true, not_or, not_exists, not_and,
        Bool.not_eq_true] at hany
      refine ih (List.pairwise_append.2 ⟨hkept, List.pairwise_singleton _ _, fun s hs u hu => ?_⟩)
        fun s hs u hu => ?_
      · cases List.mem_singleton.1 hu
        exact ⟨hrest s hs _ List.mem_cons_self, hany.1 s hs⟩
      · rcases List.mem_append.1 hs with hs | hs
        · exact hrest s hs u (List.mem_cons_of_mem t hu)
        · cases List.mem_singleton.1 hs
          exact hany.2 u hu

/-- A list without subsumed transitions stays as it is. -/
theorem pruneFrom_of_pairwise (h : (kept ++ rest).Pairwise Incomparable) :
    pruneFrom kept rest = kept ++ rest := by
  induction rest generalizing kept with
  | nil => rw [List.append_nil, pruneFrom]
  | cons t rest ih =>
    obtain ⟨-, hcons, hcross⟩ := List.pairwise_append.1 h
    have hnone : ¬(kept.any t.subsumedBy || rest.any t.subsumedBy) = true := by
      simp only [Bool.or_eq_true, List.any_eq_true, not_or, not_exists, not_and, Bool.not_eq_true]
      exact ⟨fun u hu => (hcross u hu t List.mem_cons_self).2,
        fun u hu => ((List.pairwise_cons.1 hcons).1 u hu).1⟩
    rw [pruneFrom, if_neg hnone, ih (by simpa using h)]
    simp

/-- A list that grows stays without subsumed transitions. -/
theorem pairwise_insertPruned (t : Transition) (hts : ts.Pairwise Incomparable) :
    (t.insertPruned ts).Pairwise Incomparable := by
  have hkept : (t.notSubsumed ts).Pairwise Incomparable := hts.filter _
  rw [insertPruned_eq]
  split
  · exact hkept
  · rename_i hnone
    simp only [List.any_eq_true, not_exists, not_and, Bool.not_eq_true] at hnone
    exact List.pairwise_cons.2 ⟨fun u hu => ⟨hnone u hu, (mem_notSubsumed.1 hu).2⟩, hkept⟩

theorem pairwise_prune (ts : List Transition) : (prune ts).Pairwise Incomparable :=
  pairwise_pruneFrom .nil (by simp)

/-- **Pruning twice is pruning once.** -/
theorem prune_prune (ts : List Transition) : prune (prune ts) = prune ts := by
  rw [prune, pruneFrom_of_pairwise (by simpa using pairwise_prune ts), List.nil_append]

/-! ### The most general transitions -/

instance : Std.Symm Incomparable :=
  ⟨fun _ _ => And.symm⟩

/-- Whether `t` is one of the most general transitions of a list: its label implies no other label
that the list has for the same target. -/
def MostGeneral (ts : List Transition) (t : Transition) : Prop :=
  t ∈ ts ∧ ∀ u ∈ ts, u.target = t.target → t.label.implies u.label = true → u.label = t.label

instance (ts : List Transition) (t : Transition) : Decidable (MostGeneral ts t) :=
  inferInstanceAs (Decidable (_ ∧ _))

/-- Nothing but itself subsumes one of the most general transitions. -/
theorem mostGeneral_iff :
    MostGeneral ts t ↔ t ∈ ts ∧ ∀ u ∈ ts, t.subsumedBy u = true → u = t := by
  refine and_congr_right fun _ => forall₂_congr fun u _ => ?_
  rw [subsumedBy_iff]
  constructor
  · rintro h ⟨htarget, himplies⟩
    obtain ⟨target, label⟩ := u
    obtain rfl : target = t.target := htarget.symm
    obtain rfl : label = t.label := h rfl himplies
    rfl
  · intro h htarget himplies
    rw [h ⟨htarget.symm, himplies⟩]

/-- Whether `kept` has some of the transitions of `ts`, none of which subsumes another, and which
together subsume all of them. -/
structure Represents (kept ts : List Transition) : Prop where
  incomparable : kept.Pairwise Incomparable
  subset : ∀ t ∈ kept, t ∈ ts
  subsumed : ∀ t ∈ ts, ∃ u ∈ kept, t.subsumedBy u = true

namespace Represents

theorem nodup (h : Represents kept ts) : kept.Nodup := by
  refine h.incomparable.imp fun htu heq => ?_
  rw [heq, Incomparable, subsumedBy_refl] at htu
  exact absurd htu.1 (by simp)

/-- **A list represents another one** by the most general of its transitions. -/
theorem mem_iff (h : Represents kept ts) : t ∈ kept ↔ MostGeneral ts t := by
  rw [mostGeneral_iff]
  constructor
  · intro ht
    refine ⟨h.subset t ht, fun u hu htu => ?_⟩
    obtain ⟨r, hr, hur⟩ := h.subsumed u hu
    have htr : t = r := by
      by_contra hne
      have hincomparable := h.incomparable.forall ht hr hne
      rw [Incomparable, subsumedBy_trans htu hur] at hincomparable
      exact absurd hincomparable.1 (by simp)
    exact subsumedBy_antisymm (htr ▸ hur) htu
  · rintro ⟨ht, hgeneral⟩
    obtain ⟨u, hu, htu⟩ := h.subsumed t ht
    exact hgeneral u (h.subset u hu) htu ▸ hu

/-- **The same targets** can be reached on a letter with fewer transitions. -/
theorem exists_holds_iff (h : Represents kept ts) (v : IndexSet) (y : StateId) :
    (∃ t ∈ kept, t.target = y ∧ t.label.holds v = true) ↔
      ∃ t ∈ ts, t.target = y ∧ t.label.holds v = true := by
  constructor
  · rintro ⟨t, ht, hy⟩
    exact ⟨t, h.subset t ht, hy⟩
  · rintro ⟨t, ht, hy, hholds⟩
    obtain ⟨u, hu, htu⟩ := h.subsumed t ht
    obtain ⟨htarget, himplies⟩ := subsumedBy_iff.1 htu
    exact ⟨u, hu, htarget ▸ hy, Label.holds_of_implies himplies hholds⟩

/-- One more transition is represented when it was added. -/
theorem insertPruned (h : Represents kept ts) (t : Transition) :
    Represents (t.insertPruned kept) (t :: ts) where
  incomparable := pairwise_insertPruned t h.incomparable
  subset u hu := by
    rcases List.mem_cons.1 (insertPruned_subset u hu) with rfl | hu
    · exact List.mem_cons_self
    · exact List.mem_cons_of_mem t (h.subset u hu)
  subsumed u hu := by
    obtain ⟨r, hr, hur⟩ : ∃ r ∈ t :: kept, u.subsumedBy r = true := by
      rcases List.mem_cons.1 hu with rfl | hu
      · exact ⟨u, List.mem_cons_self, u.subsumedBy_refl⟩
      · obtain ⟨r, hr, hur⟩ := h.subsumed u hu
        exact ⟨r, List.mem_cons_of_mem t hr, hur⟩
    obtain ⟨w, hw, hrw⟩ := exists_mem_insertPruned r hr
    exact ⟨w, hw, subsumedBy_trans hur hrw⟩

end Represents

theorem represents_nil : Represents [] [] :=
  ⟨.nil, by simp, by simp⟩

/-- **Adding transitions one after another** keeps the most general ones. -/
theorem represents_foldl (ts : List Transition) :
    Represents (ts.foldl (fun kept t => t.insertPruned kept) []) ts := by
  have hfold (kept old : List Transition) (h : Represents kept old) :
      Represents (ts.foldl (fun kept t => t.insertPruned kept) kept) (ts.reverse ++ old) := by
    induction ts generalizing kept old with
    | nil => exact h
    | cons t ts ih =>
      rw [List.foldl_cons, List.reverse_cons, List.append_assoc]
      exact ih _ _ (h.insertPruned t)
  have hall := hfold [] [] represents_nil
  exact ⟨hall.incomparable, fun t ht => by simpa using hall.subset t ht,
    fun t ht => hall.subsumed t (by simpa using ht)⟩

theorem represents_prune (ts : List Transition) : Represents (prune ts) ts :=
  ⟨pairwise_prune ts, prune_subset, fun _ => exists_mem_prune⟩

/-- Whether a transition is among the most general does not depend on one that another subsumes. -/
theorem mostGeneral_insert_iff {more : List Transition} (htu : t.subsumedBy u = true)
    (hu : u ∈ kept ++ more) {r : Transition} (hr : r ∈ kept ++ more) :
    MostGeneral (kept ++ t :: more) r ↔ MostGeneral (kept ++ more) r := by
  have hmem (w : Transition) : w ∈ kept ++ t :: more ↔ w = t ∨ w ∈ kept ++ more := by
    simp only [List.mem_append, List.mem_cons]
    tauto
  simp only [mostGeneral_iff, hmem]
  constructor
  · rintro ⟨-, hgeneral⟩
    exact ⟨hr, fun w hw => hgeneral w (.inr hw)⟩
  · rintro ⟨-, hgeneral⟩
    refine ⟨.inr hr, fun w hw hrw => ?_⟩
    rcases hw with rfl | hw
    · have hur : u = r := hgeneral u hu (subsumedBy_trans hrw htu)
      exact subsumedBy_antisymm (hur ▸ htu) hrw
    · exact hgeneral w hw hrw

/-- A transition that is subsumed by what was kept or is to come is not looked for. -/
theorem filter_of_subsumed (htu : t.subsumedBy u = true) (hu : u ∈ kept ++ rest)
    (ht : t ∉ kept) : (t :: rest).dedup.filter (MostGeneral (kept ++ t :: rest)) =
      rest.dedup.filter (MostGeneral (kept ++ rest)) := by
  have hrest : rest.dedup.filter (MostGeneral (kept ++ t :: rest)) =
      rest.dedup.filter (MostGeneral (kept ++ rest)) := by
    refine List.filter_congr fun r hr => ?_
    rw [decide_eq_decide]
    exact mostGeneral_insert_iff htu hu (List.mem_append_right _ (List.mem_dedup.1 hr))
  by_cases hmem : t ∈ rest
  · rw [List.dedup_cons_of_mem hmem, hrest]
  · have hnot : ¬MostGeneral (kept ++ t :: rest) t := fun hgeneral => by
      have hut : u = t := (mostGeneral_iff.1 hgeneral).2 u (by
        simp only [List.mem_append, List.mem_cons] at hu ⊢
        tauto) htu
      rcases List.mem_append.1 (hut ▸ hu) with hkept | hrest
      · exact ht hkept
      · exact hmem hrest
    rw [List.dedup_cons_of_notMem hmem, List.filter_cons_of_neg (by simpa using hnot), hrest]

/-- A transition that nothing else subsumes is found where it stands. -/
theorem filter_of_not_subsumed (hnone : ∀ u ∈ kept ++ rest, t.subsumedBy u = false) :
    (t :: rest).dedup.filter (MostGeneral (kept ++ t :: rest)) =
      t :: rest.dedup.filter (MostGeneral (kept ++ t :: rest)) := by
  have hmem : t ∉ rest := fun hmem => by
    have hself := hnone t (List.mem_append_right kept hmem)
    rw [subsumedBy_refl] at hself
    contradiction
  have hgeneral : MostGeneral (kept ++ t :: rest) t := by
    refine mostGeneral_iff.2 ⟨by simp, fun u hu htu => ?_⟩
    by_contra hne
    have hfalse := hnone u (by
      simp only [List.mem_append, List.mem_cons] at hu ⊢
      tauto)
    rw [htu] at hfalse
    contradiction
  rw [List.dedup_cons_of_notMem hmem, List.filter_cons_of_pos (by simpa using hgeneral)]

/-- **What a scan has kept** so far it keeps, and of what is to come the most general transitions,
each where it comes up last. -/
theorem pruneFrom_eq (hkept : ∀ t ∈ kept, ∀ u ∈ rest, t.subsumedBy u = false) :
    pruneFrom kept rest = kept ++ rest.dedup.filter (MostGeneral (kept ++ rest)) := by
  induction rest generalizing kept with
  | nil => simp [pruneFrom]
  | cons t rest ih =>
    unfold pruneFrom
    split
    · rename_i hany
      rw [← List.any_append, List.any_eq_true] at hany
      obtain ⟨u, hu, htu⟩ := hany
      have ht : t ∉ kept := fun hmem => by
        have hself := hkept t hmem t List.mem_cons_self
        rw [subsumedBy_refl] at hself
        contradiction
      rw [filter_of_subsumed htu hu ht]
      exact ih fun s hs r hr => hkept s hs r (List.mem_cons_of_mem t hr)
    · rename_i hany
      have hnone (u : Transition) (hu : u ∈ kept ++ rest) : t.subsumedBy u = false := by
        rw [← List.any_append, List.any_eq_true] at hany
        exact Bool.eq_false_iff.2 fun htu => hany ⟨u, hu, htu⟩
      rw [filter_of_not_subsumed hnone, ih fun s hs u hu => ?_]
      · simp
      · rcases List.mem_append.1 hs with hs | hs
        · exact hkept s hs u (List.mem_cons_of_mem t hu)
        · cases List.mem_singleton.1 hs
          exact hnone u (List.mem_append_right kept hu)

/-- **Pruning keeps the most general transitions** in their order, and the last of those that are
identical. -/
theorem prune_eq (ts : List Transition) : prune ts = ts.dedup.filter (MostGeneral ts) := by
  rw [prune, pruneFrom_eq (by simp), List.nil_append, List.nil_append]

theorem prune_sublist (ts : List Transition) : (prune ts).Sublist ts := by
  rw [prune_eq]
  exact List.filter_sublist.trans (List.dedup_sublist ts)

end Transition

end OmegaAutomata
