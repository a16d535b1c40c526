import SplBasic.Proofs.BranchLowering

/-!
# Where jumps lead

`Commands.ListedBy` says which lines list a block: what the lines of its branches jump to is told by
the lines right behind other lines, without counting any. It is enough to know the number of the
line behind the block.

* `Commands.listedBy` : the statements of a block, numbered, list it,
* `Commands.ListedBy.forward` : lines that list a block jump to lines behind them,
* `jumps_forward` : a listing falls into the lines of its segments, and no jump leads back or out of
  its segment.
-/

namespace SplBasic

/-! ## Lines that list a block -/

namespace Instruction

def targets : Instruction → List Nat
  | goto target => [target]
  | branch _ thenTarget elseTarget => [thenTarget, elseTarget]
  | _ => []

end Instruction

/-- The number of the first line, or of the line behind if there are none. -/
def firstNumber (lines : List NumberedLine) (next : Nat) : Nat :=
  match lines with
  | [] => next
  | line :: _ => line.number

/-- The line lists a command in front of the line numbered `next`: skipping is a jump there, and the
other commands do not jump. -/
def SimpleCommand.ListedBy (line : NumberedLine) (next : Nat) : SimpleCommand → Prop
  | skip _ => Instruction.ofText line.text = .goto next
  | _ => (Instruction.ofText line.text).targets = []

/-- The lines list commands in front of the line numbered `next`. A branch goes on right behind its
first line or, if its condition fails, behind its first block; with a second block, a jump behind
that one closes the first block. -/
inductive Commands.ListedBy : Commands → List NumberedLine → (next : Nat) → Prop
  | nil (next : Nat) : ListedBy .nil [] next
  | simple {command : SimpleCommand} {tag : Ty} {rest : Commands} {line : NumberedLine}
      {behind : List NumberedLine} {next : Nat} :
      command.ListedBy line (firstNumber behind next) → ListedBy rest behind next →
      ListedBy (.simple command tag rest) (line :: behind) next
  | ifThen {keyword : Token} {condition : Expr} {brackets : Brackets} {body : Commands} {tag : Ty}
      {rest : Commands} {line : NumberedLine} {inside behind : List NumberedLine} {next : Nat} :
      Instruction.ofText line.text =
        .branch condition.basic (firstNumber inside (firstNumber behind next))
          (firstNumber behind next) →
      ListedBy body inside (firstNumber behind next) → ListedBy rest behind next →
      ListedBy (.ifThen keyword condition brackets body tag rest) (line :: (inside ++ behind)) next
  | ifThenElse {keyword : Token} {condition : Expr} {thenBrackets : Brackets} {thenBody : Commands}
      {elseBrackets : Brackets} {elseBody : Commands} {tag : Ty} {rest : Commands}
      {line closing : NumberedLine} {first second behind : List NumberedLine} {next : Nat} :
      Instruction.ofText line.text =
        .branch condition.basic (firstNumber first closing.number)
          (firstNumber second (firstNumber behind next)) →
      ListedBy thenBody first closing.number →
      Instruction.ofText closing.text = .goto (firstNumber behind next) →
      ListedBy elseBody second (firstNumber behind next) → ListedBy rest behind next →
      ListedBy (.ifThenElse keyword condition thenBrackets thenBody elseBrackets elseBody tag rest)
        (line :: (first ++ closing :: (second ++ behind))) next

/-- The lines list a segment: its prologue, its block, and the line that closes it. -/
inductive Segment.ListedBy (segment : Segment) : List NumberedLine → Prop
  | intro {front inside : List NumberedLine} {closing : NumberedLine} :
      front.map NumberedLine.text = segment.prologue →
      segment.block.commands.ListedBy inside closing.number → closing.text = segment.closing →
      ListedBy segment (front ++ (inside ++ [closing]))

/-- The main part of a program and its functions in preorder. -/
def Program.segments (p : Program) : List Segment :=
  p.mainSegment :: p.functions.toList.map FunctionDecl.segment

/-! ## Numbered statements -/

/-- Statements with their numbers, all indented alike. -/
def numberStatements (indented : Bool) (position : Nat) (statements : List Statement) :
    List NumberedLine :=
  numberLines position (statements.map (ListingLine.mk indented))

section Statements

variable (indented : Bool) (position : Nat)

theorem numberStatements_cons (st : Statement) (rest : List Statement) :
    numberStatements indented position (st :: rest) =
      ⟨lineNumber position, if indented then "  " else "", st.text⟩
        :: numberStatements indented (position + 1) rest :=
  rfl

/-- Lines are numbered on from the ones in front of them. -/
theorem numberLines_append (first second : List ListingLine) :
    numberLines position (first ++ second) =
      numberLines position first ++ numberLines (position + first.length) second := by
  induction first generalizing position with
  | nil => rfl
  | cons line rest ih => simp [numberLines, ih, Nat.add_assoc, Nat.add_comm 1]

theorem numberStatements_append (first second : List Statement) :
    numberStatements indented position (first ++ second) =
      numberStatements indented position first
        ++ numberStatements indented (position + first.length) second := by
  simp [numberStatements, numberLines_append]

theorem map_text_numberStatements (statements : List Statement) :
    (numberStatements indented position statements).map NumberedLine.text =
      statements.map Statement.text := by
  induction statements generalizing position with
  | nil => rfl
  | cons st rest ih => rw [numberStatements_cons, List.map_cons, List.map_cons, ih]

end Statements

/-- The first line of a block stands where the block starts, or right behind it if it is empty. -/
theorem firstNumber_statements (indented : Bool) (cs : Commands) {start stop : Nat}
    (ends : start + cs.size = stop) :
    firstNumber (numberStatements indented start (cs.statements start)) (lineNumber stop) =
      lineNumber start := by
  subst ends
  rw [← cs.length_statements start]
  cases cs.statements start with
  | nil => rfl
  | cons st rest => rfl

/-- A command without blocks is listed as one line, which goes on at the next one. -/
theorem SimpleCommand.listedBy (command : SimpleCommand) {line : NumberedLine} {position : Nat}
    (text : line.text = (command.statement position).text) :
    command.ListedBy line (lineNumber (position + 1)) := by
  have instruction : Instruction.ofText line.text = (command.statement position).instruction := by
    rw [text, Instruction.ofText_text]
  cases command with
  | skip keyword => exact instruction
  | _ => exact congrArg Instruction.targets instruction

/-- The statements of commands list the commands. -/
theorem Commands.listedBy (cs : Commands) (indented : Bool) {start stop : Nat}
    (ends : start + cs.size = stop) :
    cs.ListedBy (numberStatements indented start (cs.statements start)) (lineNumber stop) := by
  -- along the commands: where the lines of one part stop, those of the next one start
  induction cs generalizing start stop with
  | nil => exact .nil _
  | simple command tag rest ih =>
    have behind : start + 1 + rest.size = stop := by
      rw [← ends, size, Nat.add_assoc]
    have next := firstNumber_statements indented rest behind
    rw [statements, numberStatements_cons]
    refine .simple ?_ (ih behind)
    rw [next]
    exact command.listedBy rfl
  | ifThen keyword condition brackets body tag rest ihBody ihRest =>
    have behind : start + 1 + body.size + rest.size = stop := by
      rw [← ends, size]
      omega
    rw [statements, numberStatements_cons, numberStatements_append, length_statements]
    refine .ifThen ?_ ?_ (ihRest behind)
    · rw [firstNumber_statements indented rest behind, firstNumber_statements indented body rfl]
      exact Instruction.ofText_text (.branch _ _ _)
    · rw [firstNumber_statements indented rest behind]
      exact ihBody rfl
  | ifThenElse keyword condition thenBrackets thenBody elseBrackets elseBody tag rest ihThen ihElse
      ihRest =>
    have behind : start + 1 + thenBody.size + 1 + elseBody.size + rest.size = stop := by
      rw [← ends, size]
      omega
    -- branch, first block, jump, second block, rest
    rw [statements, numberStatements_cons, numberStatements_append, length_statements,
      numberStatements_cons, numberStatements_append, length_statements]
    refine .ifThenElse ?_ (ihThen rfl) ?_ ?_ (ihRest behind)
    · rw [firstNumber_statements indented rest behind,
        firstNumber_statements indented thenBody rfl, firstNumber_statements indented elseBody rfl]
      exact Instruction.ofText_text (.branch _ _ _)
    · rw [firstNumber_statements indented rest behind]
      exact Instruction.ofText_text (.goto _)
    · rw [firstNumber_statements indented rest behind]
      exact ihElse rfl

/-! ## Lines that lead forward -/

/-- The line jumps only to the given numbers, and a branch goes on with the first of them. -/
structure NumberedLine.LeadsTo (line : NumberedLine) (numbers : List Nat) : Prop where
  targets : ∀ target ∈ (Instruction.ofText line.text).targets, target ∈ numbers
  next : ∀ condition thenTarget elseTarget,
    Instruction.ofText line.text = .branch condition thenTarget elseTarget →
      numbers.head? = some thenTarget

namespace NumberedLine

variable {line : NumberedLine} {numbers : List Nat}

/-- Lines that jump nowhere lead on. -/
theorem leadsTo_of_quiet (quiet : (Instruction.ofText line.text).targets = []) :
    line.LeadsTo numbers := by
  constructor
  · simp [quiet]
  · intro condition thenTarget elseTarget reads
    rw [reads] at quiet
    cases quiet

/-- A jump to a listed line leads forward. -/
theorem leadsTo_of_goto {target : Nat} (reads : Instruction.ofText line.text = .goto target)
    (listed : target ∈ numbers) : line.LeadsTo numbers := by
  constructor
  · simpa [reads, Instruction.targets] using listed
  · intro condition thenTarget elseTarget isBranch
    cases reads.symm.trans isBranch

/-- A branch leads to the next line or to a listed one. -/
theorem leadsTo_of_branch {condition : String} {thenTarget elseTarget : Nat}
    (reads : Instruction.ofText line.text = .branch condition thenTarget elseTarget)
    (first : numbers.head? = some thenTarget) (listed : elseTarget ∈ numbers) :
    line.LeadsTo numbers := by
  constructor
  · simp only [reads, Instruction.targets, List.forall_mem_cons]
    exact ⟨List.mem_of_mem_head? first, listed, by simp⟩
  · intro condition' thenTarget' elseTarget' isBranch
    cases reads.symm.trans isBranch
    exact first

/-- A line that leads up to some number leads as well to a list that starts with it. -/
theorem LeadsTo.extend {front : List Nat} {number : Nat} (leads : line.LeadsTo (front ++ [number]))
    (first : numbers.head? = some number) : line.LeadsTo (front ++ numbers) := by
  constructor
  · intro target isTarget
    rcases List.mem_append.1 (leads.targets target isTarget) with inFront | last
    · exact List.mem_append_left _ inFront
    · cases List.mem_singleton.1 last
      exact List.mem_append_right _ (List.mem_of_mem_head? first)
  · intro condition thenTarget elseTarget reads
    have heads := leads.next condition thenTarget elseTarget reads
    cases front with
    | nil => exact first.trans heads
    | cons n front => exact heads

end NumberedLine

/-- Every line leads to the lines behind it, followed by lines with the numbers `behind`. -/
def LeadForward (behind : List Nat) : List NumberedLine → Prop
  | [] => True
  | line :: rest => line.LeadsTo (rest.map NumberedLine.number ++ behind) ∧ LeadForward behind rest

/-- The first number is the one of the first lines, if there are any. -/
theorem firstNumber_append (first second : List NumberedLine) (next : Nat) :
    firstNumber (first ++ second) next = firstNumber first (firstNumber second next) := by
  cases first with
  | nil => rfl
  | cons line rest => rfl

/-- It stands in front of the numbers of all lines. -/
theorem head?_numbers (lines : List NumberedLine) (next : Nat) (more : List Nat) :
    (lines.map NumberedLine.number ++ next :: more).head? = some (firstNumber lines next) := by
  cases lines with
  | nil => rfl
  | cons line rest => rfl

namespace LeadForward

variable {behind : List Nat} {first second : List NumberedLine}

/-- Lines without jumps lead forward. -/
theorem of_quiet {lines : List NumberedLine}
    (quiet : ∀ line ∈ lines, (Instruction.ofText line.text).targets = []) (behind : List Nat) :
    LeadForward behind lines := by
  induction lines with
  | nil => trivial
  | cons line rest ih =>
    rcases List.forall_mem_cons.1 quiet with ⟨here, later⟩
    exact ⟨NumberedLine.leadsTo_of_quiet here, ih later⟩

/-- Lines that lead to the next part may stand in front of it. -/
theorem append {number : Nat} (leads : LeadForward [number] first)
    (starts : (second.map NumberedLine.number ++ behind).head? = some number)
    (leads' : LeadForward behind second) : LeadForward behind (first ++ second) := by
  induction first with
  | nil => exact leads'
  | cons line rest ih =>
    rw [List.cons_append]
    refine ⟨?_, ih leads.2⟩
    rw [List.map_append, List.append_assoc]
    exact leads.1.extend starts

/-- Each line leads to lines behind it. -/
theorem leadsTo {before after lines : List NumberedLine} {line : NumberedLine}
    (leads : LeadForward [] lines) (split : lines = before ++ line :: after) :
    line.LeadsTo (after.map NumberedLine.number) := by
  subst split
  induction before with
  | nil =>
    have here := leads.1
    rwa [List.append_nil] at here
  | cons earlier before ih => exact ih leads.2

end LeadForward

/-- A listed command leads on to the next line. -/
theorem SimpleCommand.ListedBy.leadsTo {command : SimpleCommand} {line : NumberedLine} {next : Nat}
    (listed : command.ListedBy line next) {numbers : List Nat} (member : next ∈ numbers) :
    line.LeadsTo numbers := by
  cases command with
  | skip keyword => exact NumberedLine.leadsTo_of_goto listed member
  | _ => exact NumberedLine.leadsTo_of_quiet listed

/-- Lines that list commands lead forward, at most to the line right behind them. -/
theorem Commands.ListedBy.forward {cs : Commands} {lines : List NumberedLine} {next : Nat}
    (listed : cs.ListedBy lines next) : LeadForward [next] lines := by
  have follows (lines : List NumberedLine) (next : Nat) :
      firstNumber lines next ∈ lines.map NumberedLine.number ++ [next] :=
    List.mem_of_mem_head? (head?_numbers lines next [])
  -- a block leads at most to the first line of what follows, and what follows leads on to `next`
  induction listed with
  | nil next => trivial
  | simple command rest ihRest => exact ⟨command.leadsTo (follows _ _), ihRest⟩
  | @ifThen _ _ _ _ _ _ line inside behind next reads body rest ihBody ihRest =>
    refine ⟨NumberedLine.leadsTo_of_branch reads ?_ ?_,
      ihBody.append (head?_numbers behind next []) ihRest⟩
    · rw [← firstNumber_append]
      exact head?_numbers (inside ++ behind) next []
    · rw [List.map_append, List.append_assoc]
      exact List.mem_append_right _ (follows behind next)
  | @ifThenElse _ _ _ _ _ _ _ _ line closing first second behind next reads thenBody closes elseBody
      rest ihThen ihElse ihRest =>
    have rest : LeadForward [next] (second ++ behind) :=
      ihElse.append (head?_numbers behind next []) ihRest
    -- the jump between the blocks passes over the second one
    have goesOn : closing.LeadsTo ((second ++ behind).map NumberedLine.number ++ [next]) := by
      refine NumberedLine.leadsTo_of_goto closes ?_
      rw [List.map_append, List.append_assoc]
      exact List.mem_append_right _ (follows behind next)
    refine ⟨NumberedLine.leadsTo_of_branch reads ?_ ?_, ihThen.append rfl ⟨goesOn, rest⟩⟩
    · rw [List.map_append, List.append_assoc]
      exact head?_numbers first closing.number _
    · rw [← firstNumber_append, List.map_append, List.append_assoc]
      exact List.mem_append_right _ (List.mem_cons_of_mem _ (follows (second ++ behind) next))

/-! ## Segments -/

/-- Outside of its block, the segment does not jump. -/
structure Segment.QuietAround (segment : Segment) : Prop where
  prologue : ∀ text ∈ segment.prologue, (Instruction.ofText text).targets = []
  closing : (Instruction.ofText segment.closing).targets = []

/-- In a segment that jumps only in its commands, all jumps lead forward and stay inside. -/
theorem Segment.ListedBy.forward {segment : Segment} {lines : List NumberedLine}
    (listed : segment.ListedBy lines) (quiet : segment.QuietAround) : LeadForward [] lines := by
  cases listed with
  | @intro front inside closing prologue block closes =>
    have last : LeadForward [] [closing] := .of_quiet (by simpa [closes] using quiet.closing) []
    have inner : LeadForward [] (inside ++ [closing]) := block.forward.append rfl last
    have opening : ∀ line ∈ front, (Instruction.ofText line.text).targets = [] := by
      intro line member
      apply quiet.prologue
      rw [← prologue]
      exact List.mem_map_of_mem member
    refine LeadForward.append (.of_quiet opening [firstNumber inside closing.number]) ?_ inner
    rw [List.append_nil, List.map_append]
    exact head?_numbers inside closing.number []

/-- Reading the text of a statement gives back its jumps. -/
theorem Statement.targets_text (st : Statement) (quiet : st.instruction.targets = []) :
    (Instruction.ofText st.text).targets = [] := by
  rw [Instruction.ofText_text, quiet]

namespace FunctionDecl

/-- Nothing jumps around the commands of a function. -/
theorem quietAround (f : FunctionDecl) : f.segment.QuietAround where
  prologue := by
    have opening := (Statement.sub f.name.text (f.params.map Name.text)).targets_text rfl
    have params := (Statement.locals (f.params.map Name.text)).targets_text rfl
    exact List.forall_mem_cons.2 ⟨opening, List.forall_mem_singleton.2 params⟩
  closing := Statement.endSub.targets_text rfl

/-- The lines of a function are its segment, numbered. -/
theorem listedBy (f : FunctionDecl) (start : Nat) :
    f.segment.ListedBy (numberLines start (f.listing start)) := by
  have body := f.body.commands.listedBy true (show start + 2 + _ = _ from rfl)
  have closing : (numberLines (start + 2) ((f.body.commands.statements (start + 2)).map
      (ListingLine.mk true) ++ [⟨false, .endSub⟩])) = _ := numberLines_append _ _ _
  rw [List.length_map, Commands.length_statements] at closing
  -- two lines open the function, so its body starts at the third one
  rw [listing, numberLines, numberLines, closing]
  exact @Segment.ListedBy.intro _ [_, _] _ _ rfl body rfl

end FunctionDecl

/-- The lines of all functions are their segments, one behind the other. -/
theorem exists_functionParts (start : Nat) (fs : List FunctionDecl) :
    ∃ parts : List (List NumberedLine),
      parts.flatten = numberLines start (functionListings start fs) ∧
      List.Forall₂ Segment.ListedBy (fs.map FunctionDecl.segment) parts ∧
      ∀ lines ∈ parts, LeadForward [] lines := by
  induction fs generalizing start with
  | nil => exact ⟨[], rfl, .nil, by simp⟩
  | cons f fs ih =>
    rcases ih (start + f.lineCount) with ⟨parts, whole, listed, forward⟩
    have first := f.listedBy start
    refine ⟨numberLines start (f.listing start) :: parts, ?_, .cons first listed,
      List.forall_mem_cons.2 ⟨first.forward f.quietAround, forward⟩⟩
    rw [functionListings, numberLines_append, FunctionDecl.length_listing, List.flatten_cons, whole]

namespace Program

/-- Nothing jumps around the commands of the main part. -/
theorem quietAround_main (p : Program) : p.mainSegment.QuietAround where
  prologue := by
    intro text inPrologue
    rcases List.mem_map.1 inPrologue with ⟨decl, _, rfl⟩
    exact (Statement.letVar decl.name.text decl.type.initialValue).targets_text rfl
  closing := Statement.finish.targets_text rfl

/-- The lines of the main part are its segment, numbered. -/
theorem listedBy_main (p : Program) :
    p.mainSegment.ListedBy (numberStatements false 0 p.mainStatements) := by
  have globals : 0 + p.prologue.length = p.globals.length := by simp [prologue]
  have block := p.block.commands.listedBy false (show p.globals.length + _ = _ from rfl)
  rw [mainStatements, List.append_assoc, numberStatements_append, numberStatements_append, globals,
    Commands.length_statements]
  refine .intro ?_ block rfl
  rw [map_text_numberStatements, prologue, List.map_map]
  rfl

/-- The listing falls into the lines of the segments. -/
theorem exists_parts (p : Program) :
    ∃ parts : List (List NumberedLine), parts.flatten = p.numberedLines ∧
      List.Forall₂ Segment.ListedBy p.segments parts ∧ ∀ lines ∈ parts, LeadForward [] lines := by
  rcases exists_functionParts p.mainStatements.length p.functions.toList with
    ⟨parts, whole, listed, forward⟩
  have main := p.listedBy_main
  refine ⟨numberStatements false 0 p.mainStatements :: parts, ?_, .cons main listed,
    List.forall_mem_cons.2 ⟨main.forward p.quietAround_main, forward⟩⟩
  calc (numberStatements false 0 p.mainStatements :: parts).flatten
      = numberStatements false 0 p.mainStatements
          ++ numberLines p.mainStatements.length
            (functionListings p.mainStatements.length p.functions.toList) := by
        rw [List.flatten_cons, whole]
    _ = p.numberedLines := by
        rw [numberedLines, listing, numberLines_append, List.length_map, Nat.zero_add]
        rfl

end Program

/-- Lines behind a position have larger numbers. -/
theorem lt_of_mem_numberLines {position : Nat} {listing : List ListingLine} :
    ∀ line ∈ numberLines (position + 1) listing, lineNumber position < line.number := by
  induction listing generalizing position with
  | nil => simp [numberLines]
  | cons line rest ih =>
    have step : lineNumber position < lineNumber (position + 1) :=
      lineNumber_lt.2 (Nat.lt_succ_self position)
    rw [numberLines, List.forall_mem_cons]
    exact ⟨step, fun later member => Nat.lt_trans step (ih later member)⟩

/-- Lines are numbered in increasing order. -/
theorem pairwise_numberLines (position : Nat) (listing : List ListingLine) :
    (numberLines position listing).Pairwise fun line later => line.number < later.number := by
  induction listing generalizing position with
  | nil => exact .nil
  | cons line rest ih => exact .cons lt_of_mem_numberLines (ih (position + 1))

/-- A listing falls into the lines of its segments. Whatever a line jumps to is the number of a line
behind it in the same segment; a branch goes on with the next line or behind its first block, and
the jump that closes a first block leads behind the second one. -/
theorem jumps_forward (p : Program) :
    p.basic = String.join (p.numberedLines.map NumberedLine.render) ∧
    ∃ parts : List (List NumberedLine), parts.flatten = p.numberedLines ∧
      List.Forall₂ Segment.ListedBy p.segments parts ∧
      ∀ lines ∈ parts, ∀ before line after, lines = before ++ line :: after →
        (∀ target ∈ (Instruction.ofText line.text).targets,
          line.number < target ∧ target ∈ after.map NumberedLine.number) ∧
        ∀ condition thenTarget elseTarget,
          Instruction.ofText line.text = .branch condition thenTarget elseTarget →
            (after.map NumberedLine.number).head? = some thenTarget := by
  rcases p.exists_parts with ⟨parts, whole, listed, forward⟩
  refine ⟨renderLines_eq_join 0 p.listing, parts, whole, listed, ?_⟩
  intro lines isPart before line after split
  have leads := (forward lines isPart).leadsTo split
  refine ⟨fun target isTarget => ?_, leads.next⟩
  have behind := leads.targets target isTarget
  refine ⟨?_, behind⟩
  -- numbers increase along the whole listing, so they do along its parts
  have increasing : parts.flatten.Pairwise fun line later => line.number < later.number := by
    rw [whole]
    exact pairwise_numberLines 0 p.listing
  have inPart := (List.pairwise_flatten.1 increasing).1 lines isPart
  rw [split, List.pairwise_append, List.pairwise_cons] at inPart
  rcases List.mem_map.1 behind with ⟨later, isLater, rfl⟩
  exact inPart.2.1.1 later isLater

/-- A branch inside a branch, with empty blocks: lines right behind a block belong to what is around
it. -/
def emptyBlocksSource : String :=
  "main begin if eq(1,2)then begin if eq(1,2)then begin end end else begin end end"

/-- The inner branch goes on with the jump that closes the block around it, whatever its condition
is, and that jump leads to the end. -/
theorem jumps_forward_emptyBlocks :
    ∃ tokens p, tokenize emptyBlocksSource "t.spl" = .ok tokens ∧ parse tokens = .ok p ∧
      (p.numberedLines.map fun line => (line.number, Instruction.ofText line.text)) =
        [(10, .branch "(1 = 2)" 20 40), (20, .branch "(1 = 2)" 30 30), (30, .goto 40),
          (40, .stop)] ∧
      ∃ parts : List (List NumberedLine), parts.flatten = p.numberedLines ∧
        List.Forall₂ Segment.ListedBy p.segments parts ∧
        ∀ lines ∈ parts, ∀ line ∈ lines, ∀ target ∈ (Instruction.ofText line.text).targets,
          line.number < target ∧ target ∈ lines.map NumberedLine.number := by
  have listed : (readProgram? emptyBlocksSource "t.spl").any (fun p =>
      (p.numberedLines.map fun line => (line.number, Instruction.ofText line.text)) =
        [(10, .branch "(1 = 2)" 20 40), (20, .branch "(1 = 2)" 30 30), (30, .goto 40),
          (40, .stop)]) = true := by
    decide +kernel
  rcases exists_of_readProgram? listed with ⟨tokens, p, read, parsed, isListing⟩
  rcases jumps_forward p with ⟨_, parts, whole, segments, forward⟩
  refine ⟨tokens, p, read, parsed, of_decide_eq_true isListing, parts, whole, segments, ?_⟩
  intro lines isPart line member target isTarget
  rcases List.append_of_mem member with ⟨before, after, rfl⟩
  rcases (forward _ isPart before line after rfl).1 target isTarget with ⟨later, inside⟩
  rw [List.map_append, List.map_cons]
  exact ⟨later, List.mem_append_right _ (List.mem_cons_of_mem _ inside)⟩

end SplBasic
