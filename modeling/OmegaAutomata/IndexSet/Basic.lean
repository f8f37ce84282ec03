/-
# Index sets

A finite set of natural numbers, stored as the list of its members in strictly
increasing order.  Index sets serve as the positive and the negative literals of a
label, as the acceptance sets that a transition belongs to, and as valuations, the
propositions that are true at one position of a word.  The members can be very large
numbers, so the cost of a set goes by how many there are.

The list is a canonical form, so equality of sets is equality of lists.  The order of
sets goes by 64-bit words: bit `j` of word `i` says whether `64 * i + j` is a member.
-/

namespace OmegaAutomata

/-- A finite set of natural numbers, by its members in strictly increasing order. -/
structure IndexSet where
  toList : List Nat
  increasing : toList.Pairwise (· < ·)
deriving DecidableEq

namespace IndexSet

instance : Membership Nat IndexSet where
  mem s x := x ∈ s.toList

instance (x : Nat) (s : IndexSet) : Decidable (x ∈ s) :=
  inferInstanceAs (Decidable (x ∈ s.toList))

/-- Whether `x` is a member. -/
def contains (s : IndexSet) (x : Nat) : Bool :=
  decide (x ∈ s)

instance : EmptyCollection IndexSet where
  emptyCollection := ⟨[], .nil⟩

instance : Inhabited IndexSet where
  default := ∅

/-- The set with `x` as its only member. -/
def singleton (x : Nat) : IndexSet :=
  ⟨[x], List.pairwise_singleton _ x⟩

/-! ### Merging increasing lists -/

/-- The numbers of two increasing lists in increasing order, each of them once. -/
def merge : List Nat → List Nat → List Nat
  | [], ys => ys
  | x :: xs, ys => ys.takeWhile (· < x) ++ x :: merge xs (ys.dropWhile (· ≤ x))

theorem mem_takeWhile_lt {ys : List Nat} (hys : ys.Pairwise (· < ·)) {x z : Nat} :
    z ∈ ys.takeWhile (· < x) ↔ z ∈ ys ∧ z < x := by
  induction ys with
  | nil => simp
  | cons y ys ih =>
    obtain ⟨hy, hys⟩ := List.pairwise_cons.1 hys
    rw [List.takeWhile_cons]
    split
    · rename_i h
      have h : y < x := of_decide_eq_true h
      rw [List.mem_cons, List.mem_cons, ih hys, or_and_right]
      exact or_congr_left ⟨fun e => ⟨e, e ▸ h⟩, And.left⟩
    · rename_i h
      have h : ¬y < x := fun hlt => h (decide_eq_true hlt)
      refine iff_of_false List.not_mem_nil fun hz => ?_
      obtain rfl | hz' := List.mem_cons.1 hz.1
      · exact h hz.2
      · exact h (Nat.lt_trans (hy z hz') hz.2)

theorem mem_dropWhile_le {ys : List Nat} (hys : ys.Pairwise (· < ·)) {x z : Nat} :
    z ∈ ys.dropWhile (· ≤ x) ↔ z ∈ ys ∧ x < z := by
  induction ys with
  | nil => simp
  | cons y ys ih =>
    obtain ⟨hy, hys⟩ := List.pairwise_cons.1 hys
    rw [List.dropWhile_cons]
    split
    · rename_i h
      have h : y ≤ x := of_decide_eq_true h
      rw [ih hys, List.mem_cons]
      exact ⟨fun hz => ⟨.inr hz.1, hz.2⟩, fun hz => ⟨hz.1.resolve_left (by omega), hz.2⟩⟩
    · rename_i h
      have h : ¬y ≤ x := fun hle => h (decide_eq_true hle)
      refine (and_iff_left_of_imp fun hz => ?_).symm
      obtain rfl | hz := List.mem_cons.1 hz
      · exact Nat.lt_of_not_le h
      · exact Nat.lt_trans (Nat.lt_of_not_le h) (hy z hz)

theorem pairwise_dropWhile {ys : List Nat} (hys : ys.Pairwise (· < ·)) (p : Nat → Bool) :
    (ys.dropWhile p).Pairwise (· < ·) :=
  hys.sublist (List.dropWhile_sublist p)

/-- A merged list has the numbers of both. -/
theorem mem_merge {xs ys : List Nat} (hys : ys.Pairwise (· < ·)) {z : Nat} :
    z ∈ merge xs ys ↔ z ∈ xs ∨ z ∈ ys := by
  induction xs generalizing ys with
  | nil => simp [merge]
  | cons x xs ih =>
    rw [merge, List.mem_append, List.mem_cons, ih (pairwise_dropWhile hys _),
      mem_takeWhile_lt hys, mem_dropWhile_le hys, List.mem_cons]
    constructor
    · rintro (h | h | h | h)
      · exact .inr h.1
      · exact .inl (.inl h)
      · exact .inl (.inr h)
      · exact .inr h.1
    · rintro ((h | h) | h)
      · exact .inr (.inl h)
      · exact .inr (.inr (.inl h))
      · obtain hlt | heq | hgt := Nat.lt_trichotomy z x
        · exact .inl ⟨h, hlt⟩
        · exact .inr (.inl heq)
        · exact .inr (.inr (.inr ⟨h, hgt⟩))

/-- A merged list is increasing. -/
theorem pairwise_merge {xs ys : List Nat} (hxs : xs.Pairwise (· < ·))
    (hys : ys.Pairwise (· < ·)) : (merge xs ys).Pairwise (· < ·) := by
  induction xs generalizing ys with
  | nil => exact hys
  | cons x xs ih =>
    obtain ⟨hx, hxs⟩ := List.pairwise_cons.1 hxs
    have hdrop := pairwise_dropWhile hys (· ≤ x)
    have hrest {z : Nat} (hz : z ∈ merge xs (ys.dropWhile (· ≤ x))) : x < z := by
      obtain h | h := (mem_merge hdrop).1 hz
      · exact hx z h
      · exact ((mem_dropWhile_le hys).1 h).2
    refine List.pairwise_append.2 ⟨hys.sublist (List.takeWhile_sublist _),
      List.pairwise_cons.2 ⟨fun z => hrest, ih hxs hdrop⟩, fun y hy z hz => ?_⟩
    have hyx := ((mem_takeWhile_lt hys).1 hy).2
    obtain rfl | hz := List.mem_cons.1 hz
    · exact hyx
    · exact Nat.lt_trans hyx (hrest hz)

/-! ### Operations -/

/-- All members of both sets. -/
def union (s t : IndexSet) : IndexSet :=
  ⟨merge s.toList t.toList, pairwise_merge s.increasing t.increasing⟩

/-- The common members. -/
def inter (s t : IndexSet) : IndexSet :=
  ⟨s.toList.filter t.contains, s.increasing.filter _⟩

instance : Union IndexSet where
  union := union

instance : Inter IndexSet where
  inter := inter

/-- Adds `x`. -/
def insert (s : IndexSet) (x : Nat) : IndexSet :=
  singleton x ∪ s

/-- Takes `x` out; a set without it stays as it is. -/
def erase (s : IndexSet) (x : Nat) : IndexSet :=
  ⟨s.toList.filter (· ≠ x), s.increasing.filter _⟩

/-- The set of the numbers in a list, repeats allowed. -/
def ofList (xs : List Nat) : IndexSet :=
  xs.foldr (fun x s => s.insert x) ∅

/-- Whether there is no member. -/
def isEmpty (s : IndexSet) : Bool :=
  s.toList.isEmpty

/-- Whether every member of `s` is one of `t`. -/
def isSubset (s t : IndexSet) : Bool :=
  s.toList.all t.contains

/-- Whether no number is a member of both. -/
def isDisjoint (s t : IndexSet) : Bool :=
  s.toList.all fun x => !t.contains x

/-- The smallest member. -/
def min? (s : IndexSet) : Option Nat :=
  s.toList.head?

/-- The largest member. -/
def max? (s : IndexSet) : Option Nat :=
  s.toList.getLast?

/-- The number of members. -/
def size (s : IndexSet) : Nat :=
  s.toList.length

/-- The members between braces, each after a blank: two and five are written `{ 2 5 }`. -/
def render (s : IndexSet) : String :=
  "\x7b" ++ String.join (s.toList.map fun x => " " ++ toString x) ++ " \x7d"

end IndexSet

end OmegaAutomata
