/-
# Telling states apart

Two states clash if they show the same display id and the same counter.  A state that
clashes with an older one is renamed to the number above all display ids in use, so in the end
no two states clash (`Separable.distinct`), and the oldest one has not changed
(`Separable.oldest`).

A state with a fresh number never clashes again.  So the states that may have to be
renamed become fewer with each fresh number: those with a display id up to some number
`m` from before the first renaming.  Their number and the largest display id in use
together stay the same (`Separable.exists_separateEach`), which bounds the fresh numbers over
any number of passes.
-/

import Mathlib.Data.List.Nodup
import OmegaAutomata.Proofs.Arena.Renaming

namespace OmegaAutomata

namespace Arena

variable {a b c : Arena} {id x y : StateId} {s t : State} {ids older : List StateId}
  {last last' identity m : Int} {log new : List Renaming}

/-! ### All states -/

/-- What is known after states were renamed: display ids may have changed to larger ones than
`last`, and nothing else. -/
structure Renames (last : Int) (a b : Arena) : Prop where
  live_eq : b.live = a.live
  retired_eq : b.retired = a.retired
  pending_eq : b.pending = a.pending
  liveAt : ∀ x s, b.LiveAt x s → ∃ i, a.LiveAt x { s with identity := i } ∧
    (s.identity = i ∨ last < s.identity)

/-- **Display ids are all that changes.** -/
theorem Separable.renames (h : Separable ids last a)
    (hb : separateEach ids last a = .ok (last', b)) :
    Separable [] last' b ∧ last ≤ last' ∧ Renames last a b := by
  refine h.induction (P := fun _ last₁ a₁ => last ≤ last₁ ∧ Renames last a a₁) hb
    ⟨Int.le_refl _, rfl, rfl, rfl, fun x s hs => ⟨s.identity, hs, .inl rfl⟩⟩
    (fun _ _ _ _ _ _ hP => hP) fun id older last₁ a₁ _ _ hP => ?_
  obtain ⟨hle, hren⟩ := hP
  refine ⟨by omega, hren.live_eq, hren.retired_eq, hren.pending_eq, fun x s hs => ?_⟩
  obtain ⟨t, ht, rfl⟩ := liveAt_rename.1 hs
  obtain ⟨i, hi, hti⟩ := hren.liveAt x t ht
  split
  · exact ⟨i, hi, .inr (Int.lt_add_one_of_le hle)⟩
  · exact ⟨i, hi, hti⟩

/-- The oldest state is never renamed, since no older one is left to clash with. -/
theorem Separable.oldest (h : Separable ids last a) (hx : ids.getLast? = some x)
    (hs : a.LiveAt x s) (hb : separateEach ids last a = .ok (last', b)) : b.LiveAt x s := by
  refine (h.induction
    (P := fun ids _ a => (ids = [] ∨ ids.getLast? = some x) ∧ a.LiveAt x s) hb ⟨.inr hx, hs⟩
    (fun id older last a _ _ hP => ⟨?_, hP.2⟩) fun id older last a hsep hclash hP => ?_).2.2
  · cases older with
    | nil => exact .inl rfl
    | cons y older =>
      refine .inr ?_
      have hlast := hP.1.resolve_left (List.cons_ne_nil _ _)
      rwa [List.getLast?_cons_cons] at hlast
  · have hlast := hP.1.resolve_left (List.cons_ne_nil _ _)
    cases older with
    | nil =>
      obtain ⟨_, _, y, hy, _⟩ := hclash
      exact absurd hy List.not_mem_nil
    | cons y older =>
      rw [List.getLast?_cons_cons] at hlast
      refine ⟨.inr hlast, liveAt_rename.2 ⟨s, hP.2, ?_⟩⟩
      rw [if_neg]
      rintro rfl
      exact (List.nodup_cons.1 hsep.nodup).1 (List.mem_of_getLast? hlast)

/-- Whether no two live states show the same display id and counter. -/
def Distinct (a : Arena) : Prop :=
  ∀ x y s t, a.LiveAt x s → a.LiveAt y t → s.identity = t.identity → s.counter = t.counter → x = y

/-- **In the end no two states clash**, if the visits included all of them. -/
theorem Separable.distinct (h : Separable ids last a) (hall : ∀ x s, a.LiveAt x s → x ∈ ids)
    (hb : separateEach ids last a = .ok (last', b)) : b.Distinct := by
  -- a state that was visited clashes with no other one
  have hend := (h.induction (P := fun ids _ a => ∀ x y s t, a.LiveAt x s → a.LiveAt y t →
      x ∉ ids → s.identity = t.identity → s.counter = t.counter → x = y) hb
    (fun x y s t hs _ hx => absurd (hall x s hs) hx) ?_ ?_).2
  · exact fun x y s t hs ht => hend x y s t hs ht List.not_mem_nil
  · intro id older last a hsep hclash hP x y s t hs ht hx hi hc
    by_cases hxid : x = id
    · subst hxid
      by_cases hy : y ∈ x :: older
      · rcases List.mem_cons.1 hy with rfl | hy
        · rfl
        · exact absurd ⟨s, hs, y, hy, t, ht, hi.symm, hc.symm⟩ hclash
      · exact (hP y x t s ht hs hy hi.symm hc.symm).symm
    · exact hP x y s t hs ht (by simp [hxid, hx]) hi hc
  · intro id older last a hsep _ hP x y s t hs ht hx hi hc
    obtain ⟨s₀, hs₀, rfl⟩ := liveAt_rename.1 hs
    obtain ⟨t₀, ht₀, rfl⟩ := liveAt_rename.1 ht
    have hsle := hsep.le_last x s₀ hs₀
    have htle := hsep.le_last y t₀ ht₀
    by_cases hxid : x = id
    · by_cases hyid : y = id
      · rw [hxid, hyid]
      · rw [if_pos hxid, if_neg hyid] at hi
        dsimp only at hi
        omega
    · by_cases hyid : y = id
      · rw [if_neg hxid, if_pos hyid] at hi
        dsimp only at hi
        omega
      · rw [if_neg hxid, if_neg hyid] at hi hc
        exact hP x y s₀ t₀ hs₀ ht₀ (by simp [hxid, hx]) hi hc

/-- States that do not clash stay as they are. -/
theorem Separable.separateEach_of_distinct (h : Separable ids last a) (hdistinct : a.Distinct) :
    separateEach ids last a = .ok (last, a) := by
  induction ids with
  | nil => rfl
  | cons id older ih =>
    rw [h.separateEach_cons, if_neg]
    · exact ih h.tail
    · rintro ⟨s, hs, y, hy, t, ht, hi, hc⟩
      exact (List.nodup_cons.1 h.nodup).1 (hdistinct y id t s ht hs hi hc ▸ hy)

/-! ### Counting fresh numbers -/

/-- What is not the oldest of the older ones is not the oldest of all. -/
theorem mem_dropLast_cons (hx : x ∈ older.dropLast) : x ∈ (id :: older).dropLast := by
  have hne := List.ne_nil_of_mem ((List.dropLast_sublist older).subset hx)
  rw [List.dropLast_cons_of_ne_nil hne]
  exact List.mem_cons_of_mem id hx

/-- The number of live states that may still be renamed: they have a source, and a display id up to
`m`. -/
def renamable (m : Int) (a : Arena) : Nat :=
  a.live.countP fun x =>
    (a.slot? x).any fun l => l.state.source.isSome && decide (l.state.identity ≤ m)

/-- What is known of display ids when those above `m` were fresh numbers: `last` is the largest one
in use, and no two states have the same fresh number. -/
structure Fresh (m last : Int) (a : Arena) : Prop where
  le : m ≤ last
  le_last : ∀ x s, a.LiveAt x s → s.identity ≤ last
  unique : ∀ x y s t, a.LiveAt x s → a.LiveAt y t → m < s.identity → s.identity = t.identity → x = y

theorem Fresh.rename (h : a.Fresh m last) (id : StateId) :
    (a.rename id (last + 1)).Fresh m (last + 1) where
  le := Int.le_add_one h.le
  le_last x s hs := by
    obtain ⟨t, ht, rfl⟩ := liveAt_rename.1 hs
    split
    · exact Int.le_refl _
    · exact Int.le_add_one (h.le_last x t ht)
  unique x y s t hs ht hm hi := by
    obtain ⟨s₀, hs₀, rfl⟩ := liveAt_rename.1 hs
    obtain ⟨t₀, ht₀, rfl⟩ := liveAt_rename.1 ht
    have hsle := h.le_last x s₀ hs₀
    have htle := h.le_last y t₀ ht₀
    by_cases hx : x = id
    · by_cases hy : y = id
      · rw [hx, hy]
      · rw [if_pos hx, if_neg hy] at hi
        dsimp only at hi
        omega
    · by_cases hy : y = id
      · rw [if_neg hx, if_pos hy] at hi
        dsimp only at hi
        omega
      · rw [if_neg hx] at hm
        rw [if_neg hx, if_neg hy] at hi
        exact h.unique x y s₀ t₀ hs₀ ht₀ hm hi

/-- A state that clashes has no fresh number. -/
theorem Fresh.le_of_clashes (h : a.Fresh m last) (hs : a.LiveAt id s) (hid : id ∉ older)
    (hclash : a.Clashes id older) : s.identity ≤ m := by
  obtain ⟨s', hs', y, hy, t, ht, hi, -⟩ := hclash
  cases hs.unique hs'
  by_contra hlt
  exact hid (h.unique id y s t hs ht (Int.not_le.1 hlt) hi.symm ▸ hy)

/-- **Renaming makes one state fewer renamable.** -/
theorem renamable_rename (hnodup : a.live.Nodup) (hmem : id ∈ a.live) (hs : a.LiveAt id s)
    (hsource : s.source.isSome = true) (hle : s.identity ≤ m) (hm : m < identity) :
    (a.rename id identity).renamable m + 1 = a.renamable m := by
  have hperm := List.perm_cons_erase hmem
  have hslot : (a.rename id identity).slot? id = some ⟨.live, { s with identity := identity }⟩ := by
    rw [Arena.rename, slot?_modify_self, hs]
    rfl
  have hother : ∀ x ∈ a.live.erase id, (a.rename id identity).slot? x = a.slot? x := by
    intro x hx
    rw [Arena.rename, slot?_modify_of_ne (hnodup.mem_erase_iff.1 hx).1]
  show a.live.countP _ + 1 = _
  rw [renamable, hperm.countP_eq, hperm.countP_eq, List.countP_cons, List.countP_cons,
    List.countP_congr fun x hx => by rw [hother x hx], hslot, hs]
  simp [hsource, hle, Int.not_le.2 hm]

/-- **Fresh numbers do not run out** while there is one for every state that may be renamed, and the
two together stay the same. -/
theorem Separable.exists_separateEach (h : Separable ids last a) (hfresh : a.Fresh m last)
    (hnodup : a.live.Nodup) (hmem : ∀ x ∈ ids, x ∈ a.live)
    (hsource : ∀ x ∈ ids.dropLast, ∀ s, a.LiveAt x s → s.source.isSome = true)
    (hroom : last + a.renamable m ≤ maxDisplayId) :
    ∃ last' b, separateEach ids last a = .ok (last', b) ∧ b.Fresh m last' ∧
      last' + b.renamable m = last + a.renamable m := by
  induction ids generalizing last a with
  | nil => exact ⟨last, a, rfl, hfresh, rfl⟩
  | cons id older ih =>
    obtain ⟨s, hs⟩ := h.live id List.mem_cons_self
    have hmem' (x : StateId) (hx : x ∈ older) : x ∈ a.live := hmem x (List.mem_cons_of_mem id hx)
    rw [h.separateEach_cons]
    split
    · rename_i hclash
      have hne : older ≠ [] := by
        obtain ⟨_, _, y, hy, _⟩ := hclash
        exact List.ne_nil_of_mem hy
      have hsome : s.source.isSome = true := by
        refine hsource id ?_ s hs
        rw [List.dropLast_cons_of_ne_nil hne]
        exact List.mem_cons_self
      have hle := hfresh.le_of_clashes hs (List.nodup_cons.1 h.nodup).1 hclash
      have hcount := renamable_rename hnodup (hmem id List.mem_cons_self) hs hsome hle
        (Int.lt_add_one_of_le hfresh.le)
      have hnext : nextIdentity last = .ok (last + 1) := nextIdentity_eq_ok.2 ⟨by omega, rfl⟩
      obtain ⟨last', b, hb, hfresh', hsum⟩ := ih h.rename (hfresh.rename id) hnodup hmem'
        (fun x hx t ht => by
          obtain ⟨u, hu, rfl⟩ := liveAt_rename.1 ht
          have := hsource x (mem_dropLast_cons hx) u hu
          split
          · exact this
          · exact this) (by omega)
      exact ⟨last', b, by rw [hnext, bind_ok, hb], hfresh', by omega⟩
    · exact ih h.tail hfresh hnodup hmem' (fun x hx => hsource x (mem_dropLast_cons hx)) hroom

/-! ### Renamings so far -/

/-- What a log of renamings says about a state that comes from `a`, where display ids are at most
`m`: each state was renamed at most once, to the first number that was not in use, and a state that
was not renamed still shows what it showed in `a`.  Only states with a source were renamed. -/
structure Tracks (m : Int) (a : Arena) (log : List Renaming) (last : Int) (c : Arena) : Prop where
  nodup : (log.map Renaming.state).Nodup
  after_eq : log.map Renaming.after = (List.range log.length).map fun i : Nat => m + 1 + i
  last_eq : last = m + log.length
  before : ∀ r ∈ log, ∃ t, a.LiveAt r.state t ∧ t.identity = r.before ∧ t.source.isSome = true
  shown : ∀ x s, c.LiveAt x s → ∃ t, a.LiveAt x t ∧ t.source = s.source ∧
    (t.identity = s.identity ∧ x ∉ log.map Renaming.state ∨ ⟨x, t.identity, s.identity⟩ ∈ log)

/-- At first nothing was renamed. -/
theorem Tracks.refl (m : Int) (a : Arena) : Tracks m a [] m a where
  nodup := List.nodup_nil
  after_eq := rfl
  last_eq := by simp
  before _ hr := absurd hr List.not_mem_nil
  shown _ s hs := ⟨s, hs, rfl, .inl ⟨rfl, List.not_mem_nil⟩⟩

/-- A fresh number is the position of its renaming, counted from `m`. -/
theorem Tracks.mem_after (h : Tracks m a log last b) {r : Renaming} (hr : r ∈ log) :
    m < r.after ∧ r.after ≤ last := by
  have hmem := List.mem_map_of_mem (f := Renaming.after) hr
  rw [h.after_eq] at hmem
  obtain ⟨i, hi, heq⟩ := List.mem_map.1 hmem
  have hlt := List.mem_range.1 hi
  have hlast := h.last_eq
  omega

/-- Different renamings are to different numbers. -/
theorem Tracks.after_nodup (h : Tracks m a log last b) : (log.map Renaming.after).Nodup := by
  rw [h.after_eq]
  exact List.nodup_range.map fun i j hij => by
    have heq : m + 1 + (i : Int) = m + 1 + j := hij
    omega

/-- **Numbers above `m` were fresh**, if no display id was above it before. -/
theorem Tracks.fresh (h : Tracks m a log last b) (hle : ∀ x s, a.LiveAt x s → s.identity ≤ m) :
    b.Fresh m last where
  le := by
    have hlast := h.last_eq
    omega
  le_last x s hs := by
    obtain ⟨t, ht, -, ⟨hsame, -⟩ | hmem⟩ := h.shown x s hs
    · have hlast := h.last_eq
      have htle := hle x t ht
      omega
    · exact (h.mem_after hmem).2
  unique x y s t hs ht hm hst := by
    obtain ⟨s₀, hs₀, -, ⟨hsame, -⟩ | hx⟩ := h.shown x s hs
    · have hsle := hle x s₀ hs₀
      omega
    · obtain ⟨t₀, ht₀, -, ⟨hsame, -⟩ | hy⟩ := h.shown y t ht
      · have htle := hle y t₀ ht₀
        omega
      · have heq := List.inj_on_of_nodup_map h.after_nodup hx hy hst
        exact congrArg Renaming.state heq

/-- **A state that shows no fresh number was not renamed**, and shows what it showed in `a`. -/
theorem Tracks.of_le (h : Tracks m a log last b) (hs : b.LiveAt x s) (hle : s.identity ≤ m) :
    x ∉ log.map Renaming.state ∧
      ∃ t, a.LiveAt x t ∧ t.source = s.source ∧ t.identity = s.identity := by
  obtain ⟨t, ht, hsource, ⟨hsame, hx⟩ | hmem⟩ := h.shown x s hs
  · exact ⟨hx, t, ht, hsource, hsame⟩
  · exact absurd hle (Int.not_le.2 (h.mem_after hmem).1)

/-- **A state that clashes was not renamed before.** -/
theorem Tracks.not_mem_of_clashes (h : Tracks m a log last b)
    (hle : ∀ x s, a.LiveAt x s → s.identity ≤ m) (hid : id ∉ older)
    (hclash : b.Clashes id older) : id ∉ log.map Renaming.state := by
  have hshows := hclash
  obtain ⟨s, hs, -⟩ := hshows
  exact (h.of_le hs ((h.fresh hle).le_of_clashes hs hid hclash)).1

/-- The log grows by a renaming of a state that is not in it. -/
theorem Tracks.rename (h : Tracks m a log last b) (hs : b.LiveAt id s)
    (hsource : s.source.isSome = true) (hid : id ∉ log.map Renaming.state) :
    Tracks m a (log ++ [⟨id, s.identity, last + 1⟩]) (last + 1) (b.rename id (last + 1)) where
  nodup := by
    rw [List.map_append]
    exact h.nodup.append (List.nodup_singleton _) (by simpa using hid)
  after_eq := by
    have hlast := h.last_eq
    rw [List.map_append, h.after_eq, List.length_append, List.length_singleton, List.range_succ,
      List.map_append, List.map_singleton, List.map_singleton, hlast, Int.add_right_comm]
  last_eq := by
    have hlast := h.last_eq
    rw [List.length_append, List.length_singleton]
    omega
  before r hr := by
    rcases List.mem_append.1 hr with hr | hr
    · exact h.before r hr
    · cases List.mem_singleton.1 hr
      obtain ⟨t, ht, hsame, ⟨hi, -⟩ | hmem⟩ := h.shown id s hs
      · exact ⟨t, ht, hi, hsame ▸ hsource⟩
      · exact absurd (List.mem_map_of_mem (f := Renaming.state) hmem) hid
  shown x s' hs' := by
    obtain ⟨t, ht, rfl⟩ := liveAt_rename.1 hs'
    obtain ⟨u, hu, hsame, hshown⟩ := h.shown x t ht
    by_cases hx : x = id
    · subst hx
      cases hs.unique ht
      obtain ⟨hi, -⟩ := hshown.resolve_right fun hmem =>
        hid (List.mem_map_of_mem (f := Renaming.state) hmem)
      rw [if_pos rfl]
      exact ⟨u, hu, hsame, .inr (by simp [hi])⟩
    · rw [if_neg hx]
      refine ⟨u, hu, hsame, hshown.imp (fun hi => ⟨hi.1, ?_⟩) (List.mem_append_left _)⟩
      simpa [hx] using hi.2

/-- **Telling states apart renames each at most once**, also after any renamings before. -/
theorem Separable.tracks (h : Separable ids last b) (hb : Tracks m a log last b)
    (hle : ∀ x s, a.LiveAt x s → s.identity ≤ m)
    (hsource : ∀ x ∈ ids.dropLast, ∀ s, b.LiveAt x s → s.source.isSome = true)
    (hc : separateEachLogged ids last b = .ok (new, last', c)) :
    Tracks m a (log ++ new) last' c := by
  refine (h.logged_induction (P := fun ids log last b => Tracks m a log last b ∧
    ∀ x ∈ ids.dropLast, ∀ s, b.LiveAt x s → s.source.isSome = true) log hc ⟨hb, hsource⟩
    (fun id older log last b _ _ hP => ⟨hP.1, fun x hx => hP.2 x (mem_dropLast_cons hx)⟩)
    fun id older log last b s hsep hclash hs hP => ?_).2.1
  obtain ⟨htracks, hsource⟩ := hP
  have hne : older ≠ [] := by
    obtain ⟨_, _, y, hy, _⟩ := hclash
    exact List.ne_nil_of_mem hy
  have hsome : s.source.isSome = true := by
    refine hsource id ?_ s hs
    rw [List.dropLast_cons_of_ne_nil hne]
    exact List.mem_cons_self
  refine ⟨htracks.rename hs hsome
    (htracks.not_mem_of_clashes hle (List.nodup_cons.1 hsep.nodup).1 hclash), fun x hx t ht => ?_⟩
  obtain ⟨u, hu, rfl⟩ := liveAt_rename.1 ht
  have hkept := hsource x (mem_dropLast_cons hx) u hu
  split
  · exact hkept
  · exact hkept

end Arena

end OmegaAutomata
