/-
# Never claims

A never claim is a process that watches another program.  It consists of named
blocks, of which the first is where it begins.  A block selects among guarded jumps
to other blocks, or is stuck, or accepts whatever comes.  The claim accepts, that
is, reports a violation, when it comes again and again through blocks whose names
start with `accept`, or to the block that accepts everything.

Each state of an automaton has a block under its name.  The transitions of a state to
states of one name become one jump, whose guards are the labels.  A state that
accepts every word gets a block that accepts everything, which is written last.
-/

import OmegaAutomata.Output.Chunks
import OmegaAutomata.Output.StateName

namespace OmegaAutomata

namespace NeverClaim

/-- A jump to the block `target`, which can be taken when one of the guards holds. -/
structure Jump where
  guards : List Label
  target : String
deriving DecidableEq

/-- What a block does. -/
inductive Body where
  /-- Goes no further. -/
  | stuck
  /-- Takes one of the jumps. -/
  | select (jumps : List Jump)
  /-- Accepts whatever comes. -/
  | skip
deriving DecidableEq

/-- A named block. -/
structure Block where
  name : String
  body : Body
deriving DecidableEq

/-! ### Blocks of an automaton -/

/-- Adds a guard to the jump to a block, which is appended if there is none yet. -/
def addGuard (guard : Label) (target : String) : List Jump → List Jump
  | [] => [⟨[guard], target⟩]
  | j :: jumps =>
    if j.target = target then ⟨j.guards ++ [guard], target⟩ :: jumps
    else j :: addGuard guard target jumps

/-- The jumps for a list of transitions, by the first occurrence of their targets' names. -/
def jumps (b : Automaton) (ts : List Transition) : Except Fault (List Jump) :=
  ts.foldlM (fun js t => do pure (addGuard t.label (← b.targetName t) js)) []

/-- What the block of a state does. -/
def body (b : Automaton) (s : State) : Except Fault Body :=
  if s.transitions.isEmpty then .ok .stuck else (jumps b s.transitions).map .select

/-- Whether the only state has the display id of one that accepts every word. -/
def isTrivial (b : Automaton) : Bool :=
  match b.states with
  | [(_, s)] => s.identity == universalIdentity
  | _ => false

/-- The names of the blocks with what they do, in the order in which they are written. -/
def parts (b : Automaton) : List (String × Except Fault Body) :=
  if b.isEmpty then [("T0_init", .ok .stuck)]
  else if isTrivial b then [("accept_init", .ok (.select [⟨[.always], "accept_init"⟩]))]
  else
    let states := b.states.map Prod.snd
    (states.filter fun s => !b.isUniversal s).map (fun s => (b.stateName s, body b s)) ++
      if states.any b.isUniversal then [("accept_all", .ok .skip)] else []

/-- The blocks of the never claim of an automaton. -/
def blocks (b : Automaton) : Except Fault (List Block) :=
  (parts b).mapM fun (name, body) => body.map (Block.mk name)

/-! ### Text -/

/-- The line of a jump. -/
def Jump.line (names : Array String) (j : Jump) : String :=
  "\t:: (" ++ ") || (".intercalate (j.guards.map (Label.guardText names)) ++ ") -> goto " ++
    j.target ++ "\n"

/-- The lines of a block below its name. -/
def Body.lines (names : Array String) : Body → String
  | stuck => "\tfalse;\n"
  | select jumps => "\tif\n" ++ String.join (jumps.map (Jump.line names)) ++ "\tfi;\n"
  | skip => "\tskip\n"

/-- The line above the blocks, with a formula in a comment.  The comment stands apart if the claim
is the one that refuses or accepts everything. -/
def header (formula : String) (b : Automaton) : String :=
  let gap := if b.isEmpty || isTrivial b then "    " else " "
  "never \x7b" ++ gap ++ "/* " ++ formula ++ " */\n"

/-- The never claim of an automaton.  A block's name is written before it is known what the block
does. -/
def chunks (formula : String) (b : Automaton) : Chunks :=
  .ok (header formula b) ::
    (parts b).flatMap (fun (name, body) =>
      [.ok (name ++ ":\n"), body.map (Body.lines b.propositions)]) ++
    [.ok "\x7d\n"]

/-- The text of the never claim. -/
def render (formula : String) (b : Automaton) : Except Fault String :=
  (chunks formula b).text

end NeverClaim

end OmegaAutomata
