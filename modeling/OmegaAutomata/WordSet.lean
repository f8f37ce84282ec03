/-
# Sets of 32-bit numbers as words

An index set whose members are 32-bit numbers can be kept as a sequence of 64-bit
words, where bit `j` of word `i` says whether `64 * i + j` is a member.  The sequence
grows as needed, and words that are zero at the end are dropped, so equality of sets is
equality of words.  The order of index sets is the order of these sequences.

Sums, products and differences of 32-bit numbers need not fit into 32 bits.  What is
computed from them is an `Option`, which is `none` when a number does not fit.
-/

import Mathlib.Data.List.DropRight

namespace OmegaAutomata

/-- A finite set of 32-bit numbers, by its words. -/
structure WordSet where
  words : List UInt64
deriving DecidableEq

namespace WordSet

/-! ### Numbers -/

/-- The sum of two numbers, if it fits. -/
def add? (a b : UInt32) : Option UInt32 :=
  if a.toNat + b.toNat < UInt32.size then some (a + b) else none

/-- The difference of two numbers, if it is not negative. -/
def sub? (a b : UInt32) : Option UInt32 :=
  if b.toNat ≤ a.toNat then some (a - b) else none

/-- The product of two numbers, if it fits. -/
def mul? (a b : UInt32) : Option UInt32 :=
  if a.toNat * b.toNat < UInt32.size then some (a * b) else none

/-- The number of the word that has the bit of `x`. -/
def position (x : UInt32) : Nat :=
  (x / 64).toNat

/-- The word whose only bit is that of `x`. -/
def mask (x : UInt32) : UInt64 :=
  1 <<< (x % 64).toUInt64

/-- How many bits of a word are set. -/
def bitCount (w : UInt64) : UInt32 :=
  .ofNat w.toBitVec.cpop.toNat

/-- How many bits are zero above the highest one that is set. -/
def leadingZeros (w : UInt64) : UInt32 :=
  .ofNat w.toBitVec.clz.toNat

/-- How many bits are zero below the lowest one that is set. -/
def trailingZeros (w : UInt64) : UInt32 :=
  .ofNat w.toBitVec.ctz.toNat

/-! ### Operations -/

/-- The set without members. -/
def empty : WordSet :=
  ⟨[]⟩

/-- Drops the words at the end that are zero. -/
def normalize (words : List UInt64) : List UInt64 :=
  words.rdropWhile (· == 0)

/-- Adds zero words until there are `n` words. -/
def grow (words : List UInt64) (n : Nat) : List UInt64 :=
  words ++ List.replicate (n - words.length) 0

/-- Adds `x`. -/
def insert (s : WordSet) (x : UInt32) : WordSet :=
  ⟨(grow s.words (position x + 1)).modify (position x) (· ||| mask x)⟩

/-- Takes `x` out. -/
def remove (s : WordSet) (x : UInt32) : WordSet :=
  if position x < s.words.length then
    ⟨normalize (s.words.modify (position x) (· &&& ~~~mask x))⟩
  else s

/-- The set with `x` as its only member. -/
def singleton (x : UInt32) : WordSet :=
  empty.insert x

/-- The set of the numbers in a list. -/
def collect (xs : List UInt32) : WordSet :=
  xs.foldl insert empty

/-- Adds the bits of the second sequence to those of the first one, as far as that goes. -/
def orInto : List UInt64 → List UInt64 → List UInt64
  | w :: ws, x :: xs => (w ||| x) :: orInto ws xs
  | ws, _ => ws

/-- All members of both sets. -/
def union (s t : WordSet) : WordSet :=
  if t.words.length ≤ s.words.length then ⟨orInto s.words t.words⟩
  else ⟨orInto t.words s.words⟩

/-- The common members. -/
def inter (s t : WordSet) : WordSet :=
  ⟨normalize (List.zipWith (· &&& ·) s.words t.words)⟩

/-! ### Questions -/

/-- Whether `x` is a member. -/
def contains (s : WordSet) (x : UInt32) : Bool :=
  match s.words[position x]? with
  | none => false
  | some w => w &&& mask x != 0

/-- Whether there is no member. -/
def isEmpty (s : WordSet) : Bool :=
  s.words.isEmpty

/-- The number of members, if it fits. -/
def size? (s : WordSet) : Option UInt32 :=
  s.words.foldlM (fun n w => add? n (bitCount w)) 0

/-- The largest member, or that there is none. -/
def max? (s : WordSet) : Option (Option UInt32) :=
  match s.words.getLast? with
  | none => some none
  | some w => do
    let last ← sub? (.ofNat s.words.length) 1
    let base ← mul? last 64
    let offset ← sub? 63 (leadingZeros w)
    some <$> add? base offset

/-- Whether every member of `s` is one of `t`. -/
def isSubset (s t : WordSet) : Bool :=
  s.words.length ≤ t.words.length && (s.words.zip t.words).all fun p => p.1 &&& ~~~p.2 == 0

/-- Whether no number is a member of both. -/
def isDisjoint (s t : WordSet) : Bool :=
  (s.words.zip t.words).all fun p => p.1 &&& p.2 == 0

/-- Sets are compared like their sequences of words. -/
instance : Ord WordSet where
  compare s t := compare s.words t.words

/-! ### Iteration -/

/-- Where an iteration stands: at word number `index`, of which the bits in `current` are still to
come. -/
structure Cursor where
  words : List UInt64
  index : Nat
  current : UInt64

/-- The beginning of an iteration. -/
def iter (s : WordSet) : Cursor :=
  ⟨s.words, 0, s.words.head?.getD 0⟩

/-- The next member, or that there is none, and where the iteration stands then. -/
def Cursor.next (c : Cursor) : Option (Option UInt32 × Cursor) :=
  if c.current = 0 then
    if h : c.index + 1 < c.words.length then
      next ⟨c.words, c.index + 1, c.words[c.index + 1]⟩
    else
      some (none, ⟨c.words, c.index + 1, 0⟩)
  else do
    let base ← mul? (.ofNat c.index) 64
    let x ← add? base (trailingZeros c.current)
    -- the lowest bit is cleared; the word is not zero, so it has a predecessor
    pure (some x, ⟨c.words, c.index, c.current &&& (c.current - 1)⟩)
termination_by c.words.length - c.index

end WordSet

end OmegaAutomata
