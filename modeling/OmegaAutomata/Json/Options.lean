/-
# Options in JSON

Options are records whose fields may be missing.  A missing field has its usual
value; a field that is there has to be of its type.
-/

import OmegaAutomata.Json.Format
import OmegaAutomata.Options

namespace OmegaAutomata

open Json

/-- The value of a field, or `usual` if the field is missing. -/
def Json.Value.orUsual {α : Type} (usual : α) (read : Value → Option α) :
    Option Value → Option α
  | none => some usual
  | some v => read v

namespace Options

/-- Options. -/
def format : Format Options :=
  let usual : Options := default
  .record [
    Format.bool.fieldOr usual.onTheFly "on_the_fly" Options.onTheFly,
    Format.bool.fieldOr usual.simplify "simplify" Options.simplify,
    Format.bool.fieldOr usual.refine "scc_refinement" Options.refine]

/-- The options that a value describes. -/
def ofValue? (v : Value) : Option Options := do
  match ← v.fields? ["on_the_fly", "simplify", "scc_refinement"] with
  | [onTheFly, simplify, refine] =>
    let usual : Options := default
    pure ⟨← Value.orUsual usual.onTheFly Value.bool? onTheFly,
      ← Value.orUsual usual.simplify Value.bool? simplify,
      ← Value.orUsual usual.refine Value.bool? refine⟩
  | _ => none

/-- A codec of options. -/
def codec : Codec Options :=
  .ofReader format ofValue?

end Options

namespace ExportOptions

/-- Settings of outputs. -/
def format : Format ExportOptions :=
  .record [Format.text.fieldOr (default : ExportOptions).formula "formula" ExportOptions.formula]

/-- The settings that a value describes. -/
def ofValue? (v : Value) : Option ExportOptions := do
  match ← v.fields? ["formula"] with
  | [formula] => pure ⟨← Value.orUsual (default : ExportOptions).formula Value.text? formula⟩
  | _ => none

/-- A codec of settings. -/
def codec : Codec ExportOptions :=
  .ofReader format ofValue?

end ExportOptions

end OmegaAutomata
