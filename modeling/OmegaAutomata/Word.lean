/-
# Infinite words

An infinite word has a valuation at every position: the set of the propositions
that are true there.  What a run does again and again is stated with
`InfinitelyOften`.  A lasso stands for the word that it reads.
-/

import OmegaAutomata.Lasso

namespace OmegaAutomata

/-- An infinite word over valuations. -/
abbrev Word := Nat → IndexSet

/-- Whatever the position, `P` holds at a later one. -/
def InfinitelyOften (P : Nat → Prop) : Prop :=
  ∀ n, ∃ m, n ≤ m ∧ P m

/-- The infinite word of a lasso: the stem, and then the cycle again and again. -/
def Lasso.word (w : Lasso) : Word := fun i =>
  if i < w.stem.size then w.stem[i]?.getD ∅
  else w.cycle[(i - w.stem.size) % w.cycle.size]?.getD ∅

end OmegaAutomata
