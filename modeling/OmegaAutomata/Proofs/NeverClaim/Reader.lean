/-
# Reading never claims

`read?` gets the blocks of a never claim back from its text, given the formula in its
header and the names of the propositions.  The text is cut into lines, each line is
read for itself (`Line.read?`), and blocks are put together from the last line upwards
(`assemble`).

The text of a never claim is that of its blocks (`render_of_blocks`), and from this text
the blocks are read back (`read?_text`).
-/

import OmegaAutomata.Proofs.NeverClaim.Guards

namespace OmegaAutomata

variable {names : Array String}

namespace NeverClaim

/-! ### Jumps -/

/-- Reads what a line with a jump has between closing brackets; the first guard comes after
`before`. -/
def Jump.readFrom? (names : Array String) (before : String) : List (List Char) → Option Jump
  | [] => none
  | [cs] => (cs.dropPrefix? " -> goto ".toList).map fun target => ⟨[], .ofList target⟩
  | cs :: rest => do
    let guard ← Label.read? names (← cs.dropPrefix? before.toList)
    let j ← readFrom? names " || (" rest
    some { j with guards := guard :: j.guards }

/-- Reads the line of a jump. -/
def Jump.read? (names : Array String) (cs : List Char) : Option Jump :=
  readFrom? names "\t:: (" (cs.splitOn ')')

/-- The line of a jump without its end. -/
def Jump.text (names : Array String) (j : Jump) : String :=
  "\t:: (" ++ ") || (".intercalate (j.guards.map (Label.guardText names)) ++ ") -> goto " ++
    j.target

/-- What the line of a jump has between closing brackets. -/
def Jump.pieces (names : Array String) (target before : String) : List Label → List (List Char)
  | [] => [" -> goto ".toList ++ target.toList]
  | l :: guards =>
    (before.toList ++ (l.guardText names).toList) :: pieces names target " || (" guards

theorem dropPrefix?_append (p cs : List Char) : (p ++ cs).dropPrefix? p = some cs :=
  List.dropPrefix?_eq_some_iff.2 ⟨p, rfl, beq_self_eq_true p⟩

theorem Jump.pieces_ne_nil (target before : String) (guards : List Label) :
    pieces names target before guards ≠ [] := by
  cases guards <;> simp [pieces]

/-- The line of a jump is its pieces with closing brackets between them. -/
theorem Jump.intercalate_pieces (target before : String) (l : Label) (guards : List Label) :
    [')'].intercalate (pieces names target before (l :: guards)) = before.toList ++
      (") || (".intercalate ((l :: guards).map (Label.guardText names))).toList ++
        ") -> goto ".toList ++ target.toList := by
  induction guards generalizing before l with
  | nil => simp [pieces, List.intercalate_cons_cons]
  | cons m guards ih =>
    rw [pieces, List.intercalate_cons_of_ne_nil (pieces_ne_nil _ _ _), ih, List.map_cons,
      List.map_cons, List.map_cons, String.intercalate_cons_cons]
    simp

theorem Jump.readFrom?_pieces (h : Legible names) {guards : List Label}
    (hguards : ∀ l ∈ guards, l.Below names.size) (target before : String) :
    readFrom? names before (pieces names target before guards) = some ⟨guards, target⟩ := by
  induction guards generalizing before with
  | nil =>
    rw [pieces, readFrom?, dropPrefix?_append]
    simp
  | cons l guards ih =>
    obtain ⟨hl, hguards⟩ := List.forall_mem_cons.1 hguards
    rw [pieces, readFrom?.eq_3 _ _ _ _ (pieces_ne_nil _ _ _), dropPrefix?_append, ih hguards]
    show (do
      let guard ← Label.read? names (l.guardText names).toList
      some (⟨guard :: guards, target⟩ : Jump)) = _
    rw [Label.read?_guardText h hl]
    rfl

/-- No closing bracket stands between two of them. -/
theorem Jump.bracket_not_mem_pieces (h : Legible names) {guards : List Label}
    (hguards : ∀ l ∈ guards, l.Below names.size) {target before : String} (htarget : IsName target)
    (hbefore : ')' ∉ before.toList) {cs : List Char}
    (hcs : cs ∈ pieces names target before guards) : ')' ∉ cs := by
  induction guards generalizing before with
  | nil =>
    rw [List.mem_singleton.1 hcs]
    exact List.not_mem_append (by decide) (htarget.not_mem (by decide))
  | cons l guards ih =>
    obtain ⟨hl, hguards⟩ := List.forall_mem_cons.1 hguards
    rcases List.mem_cons.1 hcs with rfl | hcs
    · exact List.not_mem_append hbefore (not_mem_guardText h hl (by decide) (by decide))
    · exact ih hguards (by decide) hcs

/-- **A jump is read back.** -/
theorem Jump.read?_text (h : Legible names) {j : Jump} (hne : j.guards ≠ [])
    (hguards : ∀ l ∈ j.guards, l.Below names.size) (htarget : IsName j.target) :
    Jump.read? names (j.text names).toList = some j := by
  obtain ⟨guards, target⟩ := j
  have hpieces : (Jump.text names ⟨guards, target⟩).toList =
      [')'].intercalate (pieces names target "\t:: (" guards) := by
    obtain ⟨l, guards, rfl⟩ := List.exists_cons_of_ne_nil hne
    rw [intercalate_pieces, text]
    simp
  rw [read?, hpieces, List.splitOn_intercalate _ _ (pieces_ne_nil _ _ _),
    readFrom?_pieces h hguards]
  exact fun cs => bracket_not_mem_pieces h hguards htarget (by decide)

/-! ### Lines -/

/-- A line of a never claim below its header. -/
inductive Line where
  | block (name : String)
  | stuck
  | skip
  | select
  | jump (j : Jump)
  | endSelect
  | endClaim
deriving DecidableEq

namespace Line

/-- Reads a line. -/
def read? (names : Array String) (cs : List Char) : Option Line :=
  if cs.getLast? = some ':' then some (.block (.ofList cs.dropLast))
  else if "\t::".toList <+: cs then (Jump.read? names cs).map .jump
  else match String.ofList cs with
    | "\tfalse;" => some .stuck
    | "\tskip" => some .skip
    | "\tif" => some .select
    | "\tfi;" => some .endSelect
    | "\x7d" => some .endClaim
    | _ => none

/-- A line without its end. -/
def text (names : Array String) : Line → String
  | block name => name ++ ":"
  | stuck => "\tfalse;"
  | skip => "\tskip"
  | select => "\tif"
  | jump j => j.text names
  | endSelect => "\tfi;"
  | endClaim => "\x7d"

/-- Whether a line can be read back: its names are names, and its guards have propositions that
have a name. -/
def Readable (n : Nat) : Line → Prop
  | block name => IsName name
  | jump j => j.guards ≠ [] ∧ (∀ l ∈ j.guards, l.Below n) ∧ IsName j.target
  | _ => True

/-- **A line is read back.** -/
theorem read?_text (h : Legible names) {l : Line} (hl : l.Readable names.size) :
    read? names (l.text names).toList = some l := by
  cases l with
  | block name =>
    rw [read?, text, String.toList_append, if_pos (by simp)]
    simp
  | jump j =>
    obtain ⟨hne, hguards, htarget⟩ := hl
    have hlast : (text names (jump j)).toList.getLast? ≠ some ':' := by
      rw [text, Jump.text, String.toList_append,
        List.getLast?_append_of_ne_nil _ htarget.toList_ne_nil]
      exact fun heq => htarget.not_mem (by decide) (List.mem_of_getLast? heq)
    have hfirst : "\t::".toList <+: (text names (jump j)).toList := by
      rw [text, Jump.text, String.append_assoc, String.append_assoc, String.toList_append]
      exact ⟨_, rfl⟩
    rw [read?, if_neg hlast, if_pos hfirst, text, Jump.read?_text h hne hguards htarget]
    rfl
  | _ =>
    rw [text, read?, if_neg (by decide), if_neg (by decide)]
    simp

/-- No line has a line break in it. -/
theorem newline_not_mem_text (h : Legible names) {l : Line} (hl : l.Readable names.size) :
    '\n' ∉ (l.text names).toList := by
  cases l with
  | block name =>
    rw [text, String.toList_append]
    exact List.not_mem_append (IsName.not_mem hl (by decide)) (by decide)
  | jump j =>
    obtain ⟨-, hguards, htarget⟩ := hl
    rw [text, Jump.text, String.toList_append, String.toList_append, String.toList_append,
      String.toList_intercalate]
    refine List.not_mem_append (List.not_mem_append (List.not_mem_append (by decide) ?_)
      (by decide)) (htarget.not_mem (by decide))
    refine not_mem_intercalate (by decide) fun w hw => ?_
    obtain ⟨_, hguard, rfl⟩ := List.mem_map.1 hw
    obtain ⟨l, hl, rfl⟩ := List.mem_map.1 hguard
    exact not_mem_guardText h (hguards l hl) (by decide) (by decide)
  | _ =>
    rw [text]
    decide

end Line

/-! ### Blocks -/

/-- What has been read below a line. -/
inductive Below where
  /-- There is no line below. -/
  | nothing
  /-- Whole blocks. -/
  | blocks
  /-- Whole blocks, and above them what a block does. -/
  | body (body : Body)
  /-- Whole blocks, and above them jumps and the end of their selection. -/
  | jumps (jumps : List Jump)

/-- Puts a line on top of what is below it. -/
def Line.above : Line → Below × List Block → Option (Below × List Block)
  | .endClaim, (.nothing, bs) => some (.blocks, bs)
  | .block name, (.body body, bs) => some (.blocks, ⟨name, body⟩ :: bs)
  | .stuck, (.blocks, bs) => some (.body .stuck, bs)
  | .skip, (.blocks, bs) => some (.body .skip, bs)
  | .endSelect, (.blocks, bs) => some (.jumps [], bs)
  | .jump j, (.jumps js, bs) => some (.jumps (j :: js), bs)
  | .select, (.jumps js, bs) => some (.body (.select js), bs)
  | _, _ => none

/-- Puts lines together to blocks. -/
def assemble (lines : List Line) : Option (List Block) :=
  match lines.foldrM Line.above (.nothing, []) with
  | some (.blocks, bs) => some bs
  | _ => none

/-- The lines of what a block does. -/
def Body.toLines : Body → List Line
  | stuck => [.stuck]
  | select jumps => .select :: (jumps.map .jump ++ [.endSelect])
  | skip => [.skip]

/-- The lines of a block. -/
def Block.toLines (c : Block) : List Line :=
  .block c.name :: c.body.toLines

/-- The lines of a never claim below its header. -/
def toLines (bs : List Block) : List Line :=
  bs.flatMap Block.toLines ++ [.endClaim]

theorem foldrM_jumps (js : List Jump) (bs : List Block) :
    (js.map Line.jump).foldrM Line.above (.jumps [], bs) = some (.jumps js, bs) := by
  induction js with
  | nil => rfl
  | cons j js ih =>
    rw [List.map_cons, List.foldrM_cons, ih]
    rfl

theorem foldrM_body (body : Body) (bs : List Block) :
    body.toLines.foldrM Line.above (.blocks, bs) = some (.body body, bs) := by
  cases body with
  | stuck => rfl
  | skip => rfl
  | select js =>
    rw [Body.toLines, List.foldrM_cons, List.foldrM_append]
    show ((js.map Line.jump).foldrM Line.above (.jumps [], bs)) >>= _ = _
    rw [foldrM_jumps]
    rfl

theorem foldrM_blocks (cs bs : List Block) :
    (cs.flatMap Block.toLines).foldrM Line.above (.blocks, bs) = some (.blocks, cs ++ bs) := by
  induction cs with
  | nil => rfl
  | cons c cs ih =>
    rw [List.flatMap_cons, List.foldrM_append, ih]
    show (Line.block c.name :: c.body.toLines).foldrM Line.above (.blocks, cs ++ bs) = _
    rw [List.foldrM_cons, foldrM_body]
    rfl

/-- **Blocks are put together again** from their lines. -/
theorem assemble_toLines (bs : List Block) : assemble (toLines bs) = some bs := by
  rw [assemble, toLines, List.foldrM_append]
  show (match (bs.flatMap Block.toLines).foldrM Line.above (.blocks, []) with
    | some (.blocks, bs) => some bs
    | _ => none) = some bs
  rw [foldrM_blocks, List.append_nil]

/-- Whether a block can be read back. -/
def Block.Readable (n : Nat) (c : Block) : Prop :=
  ∀ l ∈ c.toLines, l.Readable n

/-! ### Texts -/

/-- The blocks of a never claim, by its text.  Each line has to be ended. -/
def read? (formula : String) (names : Array String) (text : String) : Option (List Block) := do
  let cs ← text.toList.dropPrefix? "never \x7b".toList
  let cs ← (cs.dropWhile (· = ' ')).dropPrefix? ("/* " ++ formula ++ " */\n").toList
  let lines := cs.splitOn '\n'
  if lines.getLast? = some [] then assemble (← lines.dropLast.mapM (Line.read? names)) else none

/-- The text of a never claim with given blocks. -/
def text (formula : String) (b : Automaton) (bs : List Block) : String :=
  header formula b ++
    String.join (((toLines bs).map (Line.text b.propositions)).map (· ++ "\n"))

/-- The blocks of an automaton are its parts, all of which have a result. -/
theorem parts_eq_of_blocks {b : Automaton} {bs : List Block} (h : blocks b = .ok bs) :
    parts b = bs.map fun c => (c.name, .ok c.body) := by
  rw [blocks] at h
  generalize parts b = ps at h ⊢
  induction ps generalizing bs with
  | nil =>
    cases h
    rfl
  | cons p ps ih =>
    rw [List.mapM_cons] at h
    obtain ⟨c, hc, h⟩ := bind_eq_ok.1 h
    obtain ⟨cs, hcs, h⟩ := bind_eq_ok.1 h
    cases h
    obtain ⟨body, hbody, rfl⟩ := map_eq_ok.1 hc
    rw [ih hcs, List.map_cons, ← hbody]

/-- A block is written as its lines are. -/
theorem join_toLines (c : Block) :
    String.join ((c.toLines.map (Line.text names)).map (· ++ "\n")) =
      String.join [c.name ++ ":\n", c.body.lines names] := by
  obtain ⟨name, body⟩ := c
  refine String.toList_injective ?_
  cases body with
  | stuck => simp [Block.toLines, Body.toLines, Body.lines, Line.text]
  | skip => simp [Block.toLines, Body.toLines, Body.lines, Line.text]
  | select js =>
    have hjump : (· ++ "\n") ∘ Line.text names ∘ Line.jump = Jump.line names := rfl
    simp [Block.toLines, Body.toLines, Body.lines, Line.text, hjump]

theorem join_flatMap_congr {α : Type} {f g : α → List String}
    (h : ∀ x, String.join (f x) = String.join (g x)) (l : List α) :
    String.join (l.flatMap f) = String.join (l.flatMap g) := by
  induction l with
  | nil => rfl
  | cons x l ih =>
    rw [List.flatMap_cons, List.flatMap_cons, String.join_append, String.join_append, h, ih]

/-- **The text of a never claim** is that of its blocks. -/
theorem render_of_blocks {b : Automaton} {bs : List Block} (h : blocks b = .ok bs)
    (formula : String) : render formula b = .ok (text formula b bs) := by
  let written := bs.flatMap fun c => [c.name ++ ":\n", c.body.lines b.propositions]
  have hchunks : chunks formula b = (header formula b :: written ++ ["\x7d\n"]).map .ok := by
    rw [chunks, parts_eq_of_blocks h]
    simp only [List.flatMap_map, List.map_cons, List.map_append, List.map_flatMap, written]
    rfl
  have hjoin : String.join written = String.join
      (((bs.flatMap Block.toLines).map (Line.text b.propositions)).map (· ++ "\n")) := by
    rw [List.map_flatMap, List.map_flatMap]
    exact join_flatMap_congr (fun c => (join_toLines c).symm) bs
  rw [render, Chunks.text, hchunks, List.mapM_map]
  have hall : (header formula b :: written ++ ["\x7d\n"]).mapM (id ∘ Except.ok (ε := Fault)) =
      .ok ((header formula b :: written ++ ["\x7d\n"]).map id) := mapM_eq_ok fun _ _ => rfl
  rw [hall, List.map_id]
  refine congrArg Except.ok ?_
  rw [List.cons_append, String.join_cons, String.join_append, hjoin, text, toLines, List.map_append,
    List.map_append, String.join_append]
  rfl

theorem header_eq (formula : String) (b : Automaton) : ∃ gap : List Char, (∀ c ∈ gap, c = ' ') ∧
    (header formula b).toList =
      "never \x7b".toList ++ (gap ++ ("/* " ++ formula ++ " */\n").toList) := by
  refine ⟨(if b.isEmpty || isTrivial b then "    " else " ").toList, ?_, ?_⟩
  · split <;> simp
  · rw [header]
    simp

/-- Lines with their ends are lines with line breaks between them, and an empty one. -/
theorem intercalate_newline (lines : List String) :
    ['\n'].intercalate (lines.map String.toList ++ [[]]) =
      (String.join (lines.map (· ++ "\n"))).toList := by
  induction lines with
  | nil => rfl
  | cons l lines ih =>
    rw [List.map_cons, List.cons_append, List.intercalate_cons_of_ne_nil (by simp), ih,
      List.map_cons, String.join_cons]
    simp

theorem splitOn_newline {lines : List String} (h : ∀ l ∈ lines, '\n' ∉ l.toList) :
    (String.join (lines.map (· ++ "\n"))).toList.splitOn '\n' =
      lines.map String.toList ++ [[]] := by
  rw [← intercalate_newline, List.splitOn_intercalate _ _ (by simp)]
  intro cs hcs
  rcases List.mem_append.1 hcs with hcs | hcs
  · obtain ⟨l, hl, rfl⟩ := List.mem_map.1 hcs
    exact h l hl
  · rw [List.mem_singleton.1 hcs]
    exact List.not_mem_nil

/-- **What is written is read back.** -/
theorem read?_text {b : Automaton} (h : Legible b.propositions) {bs : List Block}
    (hbs : ∀ c ∈ bs, c.Readable b.propositions.size) (formula : String) :
    read? formula b.propositions (text formula b bs) = some bs := by
  have hlines : ∀ l ∈ toLines bs, l.Readable b.propositions.size := by
    intro l hl
    rcases List.mem_append.1 hl with hl | hl
    · obtain ⟨c, hc, hl⟩ := List.mem_flatMap.1 hl
      exact hbs c hc l hl
    · rw [List.mem_singleton.1 hl]
      trivial
  obtain ⟨gap, hgap, hheader⟩ := header_eq formula b
  let comment := "/* " ++ formula ++ " */\n"
  let body := String.join (((toLines bs).map (Line.text b.propositions)).map (· ++ "\n"))
  have htext : (text formula b bs).toList =
      "never \x7b".toList ++ (gap ++ (comment.toList ++ body.toList)) := by
    rw [text, String.toList_append, hheader, List.append_assoc, List.append_assoc]
  have hcomment : (gap ++ (comment.toList ++ body.toList)).dropWhile (· = ' ') =
      comment.toList ++ body.toList := by
    rw [List.dropWhile_append_of_pos (by simpa using hgap)]
    simp [comment]
  have hsplit : body.toList.splitOn '\n' =
      ((toLines bs).map (Line.text b.propositions)).map String.toList ++ [[]] := by
    refine splitOn_newline fun cs hcs => ?_
    obtain ⟨l, hl, rfl⟩ := List.mem_map.1 hcs
    exact Line.newline_not_mem_text h (hlines l hl)
  rw [read?, htext, dropPrefix?_append]
  dsimp only [Option.bind_eq_bind, Option.bind_some]
  rw [hcomment, dropPrefix?_append]
  dsimp only [Option.bind_some]
  have hread : (((toLines bs).map (Line.text b.propositions)).map String.toList).mapM
      (Line.read? b.propositions) = some (toLines bs) := by
    rw [List.map_map]
    exact mapM_map_eq_some fun l hl => Line.read?_text h (hlines l hl)
  rw [hsplit, List.getLast?_concat, if_pos rfl, List.dropLast_concat, hread]
  exact assemble_toLines bs

end NeverClaim

end OmegaAutomata
