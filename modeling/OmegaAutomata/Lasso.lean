/-
# Lasso words

A lasso is the infinite word `u v v v …` of a finite stem `u` and a finite,
non-empty cycle `v`; its letters are valuations.  It has as many positions as
`u v` has letters: the last of them is followed by the first position of the
cycle, so walking from position `0` reads the infinite word.
-/

import OmegaAutomata.Fault
import OmegaAutomata.IndexSet.Basic

namespace OmegaAutomata

/-- The infinite word that reads `stem` once and then `cycle` for ever. -/
structure Lasso where
  stem : Array IndexSet
  cycle : Array IndexSet
  cycle_pos : 0 < cycle.size

namespace Lasso

/-- The lasso of two lists of letters; there must be something to repeat. -/
def ofLists (stem cycle : List IndexSet) : Except Fault Lasso :=
  if h : 0 < cycle.toArray.size then .ok ⟨stem.toArray, cycle.toArray, h⟩ else .error .emptyCycle

/-- The number of positions. -/
def size (w : Lasso) : Nat :=
  w.stem.size + w.cycle.size

theorem size_pos (w : Lasso) : 0 < w.size :=
  Nat.add_pos_right _ w.cycle_pos

/-- The position where every run begins. -/
def first (w : Lasso) : Fin w.size :=
  ⟨0, w.size_pos⟩

/-- The letter read at a position. -/
def letter (w : Lasso) (p : Fin w.size) : IndexSet :=
  if h : p.val < w.stem.size then w.stem[p.val]
  else
    have hp : p.val < w.stem.size + w.cycle.size := p.isLt
    have : p.val - w.stem.size < w.cycle.size := by omega
    w.cycle[p.val - w.stem.size]

/-- The letter at position number `i`, which has to exist. -/
def letterAt (w : Lasso) (i : Nat) : Except Fault IndexSet :=
  if h : i < w.size then .ok (w.letter ⟨i, h⟩) else .error (.unknownPosition i)

/-- The number of the position after number `i`: from the last position on, the start of the
cycle. -/
def nextIndex (w : Lasso) (i : Nat) : Nat :=
  if i + 1 < w.size then i + 1 else w.stem.size

theorem nextIndex_lt (w : Lasso) (i : Nat) : w.nextIndex i < w.size := by
  unfold nextIndex
  split
  · assumption
  · exact Nat.lt_add_of_pos_right w.cycle_pos

/-- Position numbers are 64-bit words, which are below this. -/
def indexLimit : Nat := 18446744073709551616

/-- The number of the position after number `i`, which need not exist: whatever lies beyond the last
position is followed by the start of the cycle.  The largest position number has no next one. -/
def nextIndex? (w : Lasso) (i : Nat) : Except Fault Nat :=
  if i + 1 < indexLimit then .ok (w.nextIndex i) else .error (.positionOverflow i)

/-- The position read after `p`. -/
def next (w : Lasso) (p : Fin w.size) : Fin w.size :=
  ⟨w.nextIndex p.val, w.nextIndex_lt p.val⟩

end Lasso

end OmegaAutomata
