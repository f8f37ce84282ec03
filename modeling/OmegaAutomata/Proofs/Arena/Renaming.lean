/-
# Which states are renamed

A state is compared with all older ones, and each time it shows the same display id and counter
as one of them it gets a fresh number.  `separateEachLogged` keeps a log of this: a `Renaming`
for every fresh number that is given to a state, in order.  Without the log it is `separateEach`
(`separateEachLogged_snd`).

A fresh number is above all display ids in use, so it agrees with none of the others and one is
enough (`identityAgainstLogged_eq`).  So a state is renamed once if it clashes with an older one,
and stays as it is otherwise (`Separable.separateEachLogged_cons`).
-/

import OmegaAutomata.Arena.Identities
import OmegaAutomata.Proofs.Arena.Graph

namespace OmegaAutomata

namespace Arena

variable {a b : Arena} {id x : StateId} {s t : State} {ids older : List StateId}
  {last last' identity : Int} {counter : Nat}

/-! ### Logs -/

/-- A display id that a state gets in place of another one. -/
structure Renaming where
  state : StateId
  before : Int
  after : Int
deriving DecidableEq, Repr

/-- `identityAgainst`, with the renamings of the state `id` that it is about. -/
def identityAgainstLogged (id : StateId) (counter : Nat) (last identity : Int) :
    (older : List State) → Except Fault (List Renaming × Int × Int)
  | [] => pure ([], last, identity)
  | t :: older =>
    if t.identity = identity ∧ t.counter = counter then do
      let next ← nextIdentity last
      let (log, r) ← identityAgainstLogged id counter next next older
      pure (⟨id, identity, next⟩ :: log, r)
    else identityAgainstLogged id counter last identity older

/-- `separateEach`, with the renamings in order. -/
def separateEachLogged :
    List StateId → Int → Arena → Except Fault (List Renaming × Int × Arena)
  | [], last, a => pure ([], last, a)
  | id :: older, last, a => do
    let s ← a.state id
    let (new, last, identity) ←
      identityAgainstLogged id s.counter last s.identity (← older.mapM a.state)
    let (log, r) ← separateEachLogged older last (a.modify id fun s => { s with identity })
    pure (new ++ log, r)

/-- `separate`, with the renamings in order. -/
def separateLogged (a : Arena) (last : Int) : Except Fault (List Renaming × Int × Arena) :=
  separateEachLogged a.live.reverse last a

theorem identityAgainstLogged_snd (id : StateId) (counter : Nat) (last identity : Int)
    (older : List State) : Prod.snd <$> identityAgainstLogged id counter last identity older =
      identityAgainst counter last identity older := by
  induction older generalizing last identity with
  | nil => rfl
  | cons t older ih =>
    rw [identityAgainstLogged, identityAgainst]
    split
    · simp only [map_bind, bind_pure_comp, ih, Functor.map_map]
    · exact ih last identity

theorem separateEachLogged_snd (ids : List StateId) (last : Int) (a : Arena) :
    Prod.snd <$> separateEachLogged ids last a = separateEach ids last a := by
  induction ids generalizing last a with
  | nil => rfl
  | cons id older ih =>
    simp only [separateEachLogged, separateEach, ← identityAgainstLogged_snd id, ← ih, map_bind,
      bind_pure_comp, bind_map_left, Functor.map_map]

theorem separateLogged_snd (a : Arena) (last : Int) :
    Prod.snd <$> a.separateLogged last = a.separate last :=
  separateEachLogged_snd a.live.reverse last a

/-! ### One state -/

theorem identityAgainstLogged_of_lt {older : List State} (h : ∀ t ∈ older, t.identity < identity) :
    identityAgainstLogged id counter last identity older = .ok ([], last, identity) := by
  induction older with
  | nil => rfl
  | cons t older ih =>
    have hne : t.identity ≠ identity := Int.ne_of_lt (h t List.mem_cons_self)
    rw [identityAgainstLogged, if_neg fun hc => hne hc.1]
    exact ih fun u hu => h u (List.mem_cons_of_mem t hu)

/-- **One fresh number is enough**, since it is above all others. -/
theorem identityAgainstLogged_eq {older : List State} (h : ∀ t ∈ older, t.identity ≤ last) :
    identityAgainstLogged id counter last identity older =
      if ∃ t ∈ older, t.identity = identity ∧ t.counter = counter then
        (nextIdentity last).map fun next => ([⟨id, identity, next⟩], next, next)
      else .ok ([], last, identity) := by
  induction older with
  | nil => simp [identityAgainstLogged]
  | cons t older ih =>
    have holder : ∀ u ∈ older, u.identity ≤ last := fun u hu => h u (List.mem_cons_of_mem t hu)
    rw [identityAgainstLogged]
    by_cases hclash : t.identity = identity ∧ t.counter = counter
    · rw [if_pos hclash, if_pos ⟨t, List.mem_cons_self, hclash⟩]
      unfold nextIdentity
      split
      · rw [bind_ok, identityAgainstLogged_of_lt fun u hu => Int.lt_add_one_of_le (holder u hu)]
        rfl
      · rfl
    · have hiff : (∃ u ∈ t :: older, u.identity = identity ∧ u.counter = counter) ↔
          ∃ u ∈ older, u.identity = identity ∧ u.counter = counter := by
        simp only [List.mem_cons, exists_eq_or_imp, hclash, false_or]
      rw [if_neg hclash, ih holder]
      simp only [hiff]

/-- Gives a state another display id. -/
def rename (a : Arena) (id : StateId) (identity : Int) : Arena :=
  a.modify id fun s => { s with identity := identity }

/-- The live states after one of them was renamed. -/
theorem liveAt_rename : (a.rename id identity).LiveAt x s ↔
    ∃ t, a.LiveAt x t ∧ s = if x = id then { t with identity := identity } else t :=
  liveAt_modify

/-- Whether a live state shows the name of one of the older ones. -/
def Clashes (a : Arena) (id : StateId) (older : List StateId) : Prop :=
  ∃ s, a.LiveAt id s ∧ ∃ y ∈ older, ∃ t, a.LiveAt y t ∧
    t.identity = s.identity ∧ t.counter = s.counter

/-- What fresh display ids rely on: the states that are left are live, and `last` is the largest
display id in use. -/
structure Separable (ids : List StateId) (last : Int) (a : Arena) : Prop where
  nodup : ids.Nodup
  live : ∀ x ∈ ids, ∃ s, a.LiveAt x s
  le_last : ∀ x s, a.LiveAt x s → s.identity ≤ last

open scoped Classical in
/-- **A state is renamed once if it clashes** with an older one. -/
theorem Separable.separateEachLogged_cons (h : Separable (id :: older) last a)
    (hs : a.LiveAt id s) : separateEachLogged (id :: older) last a =
      if a.Clashes id older then do
        let next ← nextIdentity last
        let (log, r) ← separateEachLogged older next (a.rename id next)
        pure (⟨id, s.identity, next⟩ :: log, r)
      else separateEachLogged older last a := by
  -- the states of the older ids, as a function of the id
  let stateOf : StateId → State := fun y => ((a.slot? y).map Slot.state).getD s
  have hstate {y : StateId} {t : State} (ht : a.LiveAt y t) : stateOf y = t := by
    simp only [stateOf, ht, Option.map_some, Option.getD_some]
  have holder : ∀ y ∈ older, ∃ t, a.LiveAt y t := fun y hy => h.live y (List.mem_cons_of_mem id hy)
  have hstates : older.mapM a.state = .ok (older.map stateOf) := by
    refine mapM_eq_ok fun y hy => ?_
    obtain ⟨t, ht⟩ := holder y hy
    rw [ht.state_eq_ok, hstate ht]
  have hclash : (∃ t ∈ older.map stateOf, t.identity = s.identity ∧ t.counter = s.counter) ↔
      a.Clashes id older := by
    constructor
    · rintro ⟨_, ht, hsame⟩
      obtain ⟨y, hy, rfl⟩ := List.mem_map.1 ht
      obtain ⟨t, ht⟩ := holder y hy
      exact ⟨s, hs, y, hy, t, ht, hstate ht ▸ hsame⟩
    · rintro ⟨s', hs', y, hy, t, ht, hsame⟩
      cases hs.unique hs'
      exact ⟨t, List.mem_map.2 ⟨y, hy, hstate ht⟩, hsame⟩
  have hle : ∀ t ∈ older.map stateOf, t.identity ≤ last := by
    intro t ht
    obtain ⟨y, hy, rfl⟩ := List.mem_map.1 ht
    obtain ⟨t, ht⟩ := holder y hy
    exact hstate ht ▸ h.le_last y t ht
  rw [separateEachLogged, hs.state_eq_ok, bind_ok, hstates, bind_ok, identityAgainstLogged_eq hle]
  by_cases hc : a.Clashes id older
  · rw [if_pos (hclash.2 hc), if_pos hc]
    unfold nextIdentity
    split
    · rfl
    · rfl
  · rw [if_neg (fun h => hc (hclash.1 h)), if_neg hc, bind_ok]
    have hself : (a.modify id fun u => { u with identity := s.identity }) = a :=
      modify_eq_self fun l hl => by
        cases hs.symm.trans hl
        rfl
    dsimp only
    rw [hself]
    cases separateEachLogged older last a with
    | error e => rfl
    | ok r => rfl

open scoped Classical in
/-- **A state is renamed if it clashes** with an older one. -/
theorem Separable.separateEach_cons (h : Separable (id :: older) last a) :
    separateEach (id :: older) last a =
      if a.Clashes id older then do
        let next ← nextIdentity last
        separateEach older next (a.rename id next)
      else separateEach older last a := by
  obtain ⟨s, hs⟩ := h.live id List.mem_cons_self
  rw [← separateEachLogged_snd, h.separateEachLogged_cons hs]
  split
  · simp only [← separateEachLogged_snd, map_bind, bind_pure_comp, Functor.map_map]
  · exact separateEachLogged_snd older last a

/-! ### One state after the other -/

theorem Separable.tail (h : Separable (id :: older) last a) : Separable older last a :=
  ⟨(List.nodup_cons.1 h.nodup).2, fun x hx => h.live x (List.mem_cons_of_mem id hx), h.le_last⟩

theorem Separable.rename (h : Separable (id :: older) last a) :
    Separable older (last + 1) (a.rename id (last + 1)) where
  nodup := (List.nodup_cons.1 h.nodup).2
  live x hx := by
    obtain ⟨s, hs⟩ := h.live x (List.mem_cons_of_mem id hx)
    exact ⟨_, liveAt_rename.2 ⟨s, hs, rfl⟩⟩
  le_last x s hs := by
    obtain ⟨t, ht, rfl⟩ := liveAt_rename.1 hs
    split
    · exact Int.le_refl _
    · exact Int.le_add_one (h.le_last x t ht)

theorem nextIdentity_eq_ok {next : Int} :
    nextIdentity last = .ok next ↔ last < maxDisplayId ∧ next = last + 1 := by
  unfold nextIdentity
  split
  · rename_i h
    simp [h, eq_comm]
  · rename_i h
    simp [h]

/-- **What every visit to a state keeps**, with the renamings up to it, holds at the end. -/
theorem Separable.logged_induction {P : List StateId → List Renaming → Int → Arena → Prop}
    {new : List Renaming} (h : Separable ids last a) (log : List Renaming)
    (hb : separateEachLogged ids last a = .ok (new, last', b)) (h0 : P ids log last a)
    (hkeep : ∀ id older log last a, Separable (id :: older) last a → ¬a.Clashes id older →
      P (id :: older) log last a → P older log last a)
    (hrename : ∀ id older log last a s, Separable (id :: older) last a → a.Clashes id older →
      a.LiveAt id s → P (id :: older) log last a →
        P older (log ++ [⟨id, s.identity, last + 1⟩]) (last + 1) (a.rename id (last + 1))) :
    Separable [] last' b ∧ P [] (log ++ new) last' b := by
  induction ids generalizing log new last a with
  | nil =>
    cases hb
    rw [List.append_nil]
    exact ⟨h, h0⟩
  | cons id older ih =>
    obtain ⟨s, hs⟩ := h.live id List.mem_cons_self
    rw [h.separateEachLogged_cons hs] at hb
    split at hb
    · rename_i hclash
      obtain ⟨next, hnext, hb⟩ := bind_eq_ok.1 hb
      obtain ⟨-, rfl⟩ := nextIdentity_eq_ok.1 hnext
      obtain ⟨⟨rest, r⟩, hrest, hb⟩ := bind_eq_ok.1 hb
      cases hb
      have hend := ih h.rename _ hrest (hrename id older log last a s h hclash hs h0)
      rwa [List.append_assoc, List.singleton_append] at hend
    · rename_i hclash
      exact ih h.tail log hb (hkeep id older log last a h hclash h0)

/-- **What every visit to a state keeps** holds at the end. -/
theorem Separable.induction {P : List StateId → Int → Arena → Prop} (h : Separable ids last a)
    (hb : separateEach ids last a = .ok (last', b)) (h0 : P ids last a)
    (hkeep : ∀ id older last a, Separable (id :: older) last a → ¬a.Clashes id older →
      P (id :: older) last a → P older last a)
    (hrename : ∀ id older last a, Separable (id :: older) last a → a.Clashes id older →
      P (id :: older) last a → P older (last + 1) (a.rename id (last + 1))) :
    Separable [] last' b ∧ P [] last' b := by
  rw [← separateEachLogged_snd] at hb
  obtain ⟨⟨new, r⟩, hnew, hb⟩ := map_eq_ok.1 hb
  cases hb
  exact h.logged_induction (P := fun ids _ last a => P ids last a) [] hnew h0
    (fun id older _ => hkeep id older)
    fun id older _ last a _ hsep hclash _ => hrename id older last a hsep hclash

end Arena

end OmegaAutomata
