/-
# Options

The switches of the way from a generalized automaton to a minimal Büchi automaton,
and the settings of its outputs.
-/

namespace OmegaAutomata

/-- The switches of the construction and the minimization. -/
structure Options where
  /-- Drop subsumed transitions and merge states with the same transitions as they are built. -/
  onTheFly : Bool
  /-- Minimize the automaton after its construction. -/
  simplify : Bool
  /-- Go through the strongly connected components in every round of the minimization. -/
  refine : Bool
deriving DecidableEq, Repr

/-- All switches are on unless they are set. -/
instance : Inhabited Options where
  default := ⟨true, true, true⟩

/-- The settings of outputs. -/
structure ExportOptions where
  /-- The formula that the header of a never claim quotes. -/
  formula : String
deriving DecidableEq, Repr

/-- No formula is quoted unless one is set. -/
instance : Inhabited ExportOptions where
  default := ⟨""⟩

end OmegaAutomata
