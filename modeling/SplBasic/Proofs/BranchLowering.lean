import SplBasic.Proofs.Execution
import SplBasic.Proofs.ProgramNames

/-!
# Lowering branches preserves execution

The listing of a program, followed by its line numbers, does what the blocks of the program do:

* `Instruction.ofText_text` : every statement is read off its text as what it is,
* `run_commands` : statements that stand where they were lowered to run like their commands,
* `run_listing` : the main part and every function run like their segments.

All jumps lead forward, so a run never needs more lines than the listing has.
-/

namespace SplBasic

universe u

variable {σ : Type u}

/-! ## Reading statements back -/

/-- A number at the end of a text is read back, if no digit stands in front of it. -/
theorem trailingNumber_append (front : List Char) (n : Nat)
    (apart : ∀ c ∈ front.getLast?, c.isDigit = false) :
    trailingNumber (front ++ (toString n).toList) = (front, n) := by
  -- read backwards, the digits come first, and nothing of `front` is taken for one of them
  have digits : ∀ c ∈ (toString n).toList.reverse, c.isDigit = true := by
    intro c hc
    rw [List.mem_reverse, Nat.toString_eq_repr, Nat.toList_repr] at hc
    exact Nat.isDigit_of_mem_toDigits (by decide) (by decide) hc
  have stops : front.reverse.takeWhile Char.isDigit = [] ∧
      front.reverse.dropWhile Char.isDigit = front.reverse := by
    rw [← List.head?_reverse] at apart
    cases reversed : front.reverse with
    | nil => simp
    | cons c cs =>
      have notDigit : c.isDigit = false := apart c (by simp [reversed])
      simp [notDigit]
  simp only [trailingNumber, List.reverse_append, List.takeWhile_append_of_pos digits,
    List.dropWhile_append_of_pos digits, stops]
  simp

namespace Instruction

theorem ofText_goto (n : Nat) : ofText ("GOTO " ++ toString n) = goto n := by
  have number := trailingNumber_append [] n (by simp)
  simp only [List.nil_append, Nat.toString_eq_repr, Nat.toList_repr] at number
  simp [ofText, goto?, List.dropPrefix?, number]

/-- The condition may itself contain `THEN GOTO` and numbers: only the end of the text counts. -/
theorem ofText_branch (condition : String) (a b : Nat) :
    ofText ("IF " ++ condition ++ " THEN GOTO " ++ toString a ++ " ELSE GOTO " ++ toString b) =
      branch condition a b := by
  let beforeThen := condition.toList ++ " THEN GOTO ".toList
  let beforeElse := beforeThen ++ (toString a).toList ++ " ELSE GOTO ".toList
  have thenNumber := trailingNumber_append beforeThen a (by simp [beforeThen])
  have elseNumber := trailingNumber_append beforeElse b
    (by simp [beforeElse, List.getLast?_append])
  -- from the end inward: number, `ELSE GOTO`, number, `THEN GOTO`; the condition is what is left
  have elseCut : beforeElse.dropSuffix? " ELSE GOTO ".toList =
      some (beforeThen ++ (toString a).toList) :=
    List.dropSuffix?_eq_some_iff.2 ⟨_, rfl, by simp⟩
  have thenCut : beforeThen.dropSuffix? " THEN GOTO ".toList = some condition.toList :=
    List.dropSuffix?_eq_some_iff.2 ⟨_, rfl, by simp⟩
  have whole : ("IF " ++ condition ++ " THEN GOTO " ++ toString a ++ " ELSE GOTO "
      ++ toString b).toList = "IF ".toList ++ (beforeElse ++ (toString b).toList) := by
    simp [beforeElse, beforeThen]
  have ifCut : ("IF ".toList ++ (beforeElse ++ (toString b).toList)).dropPrefix? "IF ".toList =
      some (beforeElse ++ (toString b).toList) :=
    List.dropPrefix?_append_of_beq _ (by simp)
  have noGoto : goto? ("IF ".toList ++ (beforeElse ++ (toString b).toList)) = none := by
    simp [goto?, List.dropPrefix?]
  simp only [ofText, whole, noGoto, branch?, ifCut, elseNumber, elseCut, thenNumber, thenCut,
    bind, Option.bind, pure, String.ofList_toList]
  rfl

end Instruction

namespace Statement

/-- What a statement tells the machine to do. -/
def instruction : Statement → Instruction
  | goto target => .goto (lineNumber target)
  | branch condition thenTarget elseTarget =>
    .branch condition (lineNumber thenTarget) (lineNumber elseTarget)
  | giveBack _ => .stop
  | finish => .stop
  | endSub => .stop
  | _ => .act

end Statement

/-- No statement is mistaken for another one, whatever names and literals it contains. -/
theorem Instruction.ofText_text (st : Statement) : ofText st.text = st.instruction := by
  cases st with
  | goto target => exact ofText_goto _
  | branch condition thenTarget elseTarget => exact ofText_branch _ _ _
  | _ =>
    simp [ofText, goto?, branch?, isStop, List.dropPrefix?, Statement.text, Statement.instruction]

/-! ## Positions and line numbers -/

/-- Line numbers grow with positions. -/
theorem lineNumber_lt {k j : Nat} : lineNumber k < lineNumber j ↔ k < j := by
  simp only [lineNumber, lineStep]
  omega

theorem lineNumber_inj {k j : Nat} : lineNumber k = lineNumber j ↔ k = j := by
  simp only [lineNumber, lineStep]
  omega

/-- The line number of a position finds the statement at that position. -/
theorem textAt_numberLines (listing : List ListingLine) (first k : Nat) :
    textAt (numberLines first listing) (lineNumber (first + k)) =
      listing[k]?.map fun line => line.statement.text := by
  induction listing generalizing first k with
  | nil => rfl
  | cons line rest ih =>
    cases k with
    | zero => simp [textAt, numberLines]
    | succ k =>
      -- the first line has a smaller number, so the search goes on behind it
      have later : lineNumber first ≠ lineNumber (first + (k + 1)) := by
        rw [ne_eq, lineNumber_inj]
        omega
      have shifted := ih (first + 1) k
      rw [show first + 1 + k = first + (k + 1) by omega] at shifted
      simpa [textAt, numberLines, later] using shifted

/-- Behind the line at a position comes the line at the next position, if there is one. -/
theorem nextNumber_numberLines (listing : List ListingLine) (first k : Nat)
    (more : k + 1 < listing.length) :
    nextNumber (numberLines first listing) (lineNumber (first + k)) =
      some (lineNumber (first + k + 1)) := by
  induction listing generalizing first k with
  | nil => simp at more
  | cons line rest ih =>
    -- the first line is never behind the line in question
    have notLater : ¬ lineNumber (first + k) < lineNumber first := by
      rw [lineNumber_lt]
      omega
    cases k with
    | zero =>
      cases rest with
      | nil => simp at more
      | cons next rest => simp [nextNumber, numberLines, lineNumber_lt]
    | succ k =>
      have shifted := ih (first + 1) k (by simpa using more)
      rw [show first + 1 + k = first + (k + 1) by omega] at shifted
      simpa [nextNumber, numberLines, notLater] using shifted

/-! ## One line -/

/-- The statements stand one after the other in a listing, the first of them at `position`. -/
def Stand (listing : List ListingLine) (position : Nat) (statements : List Statement) : Prop :=
  statements <+: (listing.map ListingLine.statement).drop position

namespace Stand

variable {listing : List ListingLine} {position : Nat} {statements others : List Statement}
  {st : Statement}

/-- The first statement stands at the position. -/
theorem head (stand : Stand listing position (st :: statements)) :
    listing[position]?.map ListingLine.statement = some st := by
  rcases stand with ⟨behind, whole⟩
  have first := congrArg List.head? whole
  simpa [List.head?_drop] using first.symm

/-- The others stand behind it. -/
theorem tail (stand : Stand listing position (st :: statements)) :
    Stand listing (position + 1) statements := by
  rcases stand with ⟨behind, whole⟩
  refine ⟨behind, ?_⟩
  have rest := congrArg List.tail whole
  simpa [List.tail_drop] using rest

/-- What stands is a prefix of what stands. -/
theorem left (stand : Stand listing position (statements ++ others)) :
    Stand listing position statements :=
  (List.prefix_append statements others).trans stand

/-- The second part stands behind the first. -/
theorem right (stand : Stand listing position (statements ++ others)) :
    Stand listing (position + statements.length) others := by
  rcases stand with ⟨behind, whole⟩
  refine ⟨behind, ?_⟩
  have rest := congrArg (List.drop statements.length) whole
  simpa [List.drop_drop, List.append_assoc] using rest

/-- What stands in a listing ends inside it. -/
theorem length_le (stand : Stand listing position (st :: statements)) :
    position + (st :: statements).length ≤ listing.length := by
  have bound := List.IsPrefix.length_le stand
  simp only [List.length_drop, List.length_map, List.length_cons] at bound ⊢
  omega

end Stand

section Lines

variable (I : Interpretation σ) {listing : List ListingLine} {k : Nat}

/-- The text of a statement is found at its line number. -/
theorem textAt_of_stand {st : Statement} {more : List Statement}
    (stand : Stand listing k (st :: more)) :
    textAt (numberLines 0 listing) (lineNumber k) = some st.text := by
  have found := textAt_numberLines listing 0 k
  rw [Nat.zero_add] at found
  rw [found]
  simpa using congrArg (Option.map Statement.text) stand.head

/-- A jump goes on at its target. -/
theorem run_goto {target : Nat} {more : List Statement}
    (stand : Stand listing k (.goto target :: more)) (budget : Nat) (s : σ) :
    run I (numberLines 0 listing) (budget + 1) (lineNumber k) s =
      run I (numberLines 0 listing) budget (lineNumber target) s := by
  rw [run, textAt_of_stand stand]
  simp [Instruction.ofText_text, Statement.instruction]

/-- A branch tests its condition and goes on at one of its targets. -/
theorem run_branch {condition : String} {thenTarget elseTarget : Nat} {more : List Statement}
    (stand : Stand listing k (.branch condition thenTarget elseTarget :: more)) (budget : Nat)
    (s : σ) :
    run I (numberLines 0 listing) (budget + 1) (lineNumber k) s =
      (run I (numberLines 0 listing) budget
        (lineNumber (if I.test condition s then thenTarget else elseTarget)) s).after
          [.test condition (I.test condition s)] := by
  rw [run, textAt_of_stand stand]
  cases holds : I.test condition s with
  | false => simp [Instruction.ofText_text, Statement.instruction, holds]
  | true => simp [Instruction.ofText_text, Statement.instruction, holds]

/-- A stop ends the run. -/
theorem run_stop {st : Statement} {more : List Statement}
    (stand : Stand listing k (st :: more)) (stops : st.instruction = .stop) (budget : Nat)
    (s : σ) :
    run I (numberLines 0 listing) (budget + 1) (lineNumber k) s = .stopped ⟨[], s, st.text⟩ := by
  rw [run, textAt_of_stand stand]
  simp [Instruction.ofText_text, stops]

/-- A statement that acts is followed by the next line. -/
theorem run_act {st : Statement} {more : List Statement}
    (stand : Stand listing k (st :: more)) (acts : st.instruction = .act)
    (inside : k + 1 < listing.length) (budget : Nat) (s : σ) :
    run I (numberLines 0 listing) (budget + 1) (lineNumber k) s =
      (run I (numberLines 0 listing) budget (lineNumber (k + 1)) (I.act st.text s)).after
        [.effect st.text] := by
  have next := nextNumber_numberLines listing 0 k inside
  rw [Nat.zero_add] at next
  rw [run, textAt_of_stand stand]
  simp [Instruction.ofText_text, acts, next]

end Lines

/-! ## From executions of commands to runs -/

namespace Outcome

@[simp] theorem after_nil (outcome : Outcome σ) : outcome.after [] = outcome := by
  cases outcome with
  | stopped finish => rfl
  | missing => rfl
  | unfinished => rfl

/-- What happens before is put in front. -/
theorem after_append (first second : List Event) (outcome : Outcome σ) :
    outcome.after (first ++ second) = (outcome.after second).after first := by
  cases outcome with
  | stopped finish => simp [after]
  | missing => rfl
  | unfinished => rfl

end Outcome

namespace Progress

/-- A run that goes on with `goOn` where the execution came to an end. -/
def resume (progress : Progress σ) (goOn : σ → Outcome σ) : Outcome σ :=
  match progress.stop with
  | some text => .stopped ⟨progress.events, progress.state, text⟩
  | none => (goOn progress.state).after progress.events

theorem resume_congr {progress : Progress σ} {first second : σ → Outcome σ}
    (same : first progress.state = second progress.state) :
    progress.resume first = progress.resume second := by
  simp only [resume, same]

/-- Going on behind two parts is going on behind the first with the second. -/
theorem resume_andThen (progress : Progress σ) (next : σ → Progress σ)
    (goOn : σ → Outcome σ) :
    (progress.andThen next).resume goOn =
      progress.resume fun s => (next s).resume goOn := by
  rcases progress with ⟨events, s, stop⟩
  cases stop with
  | some text => rfl
  | none =>
    simp only [andThen, resume]
    cases (next s).stop with
    | some text => rfl
    | none => simp only [Outcome.after_append]

/-- A choice tests its condition before it takes its side. -/
theorem resume_choose (I : Interpretation σ) (condition : String) (yes no : σ → Progress σ) (s : σ)
    (goOn : σ → Outcome σ) :
    (choose I condition yes no s).resume goOn =
      (((if I.test condition s then yes else no) s).resume goOn).after
        [.test condition (I.test condition s)] := by
  rw [choose, resume_andThen]
  rfl

/-- A run that goes on to a stop is finished there. -/
theorem resume_stopped (progress : Progress σ) (closing : String) :
    progress.resume (fun s => .stopped ⟨[], s, closing⟩) = .stopped (progress.finish closing) := by
  rcases progress with ⟨events, s, stop⟩
  cases stop with
  | none => simp [resume, finish, Outcome.after]
  | some text => rfl

end Progress

section Blocks

variable (I : Interpretation σ) {listing : List ListingLine}

/-- One line per command without blocks. -/
theorem run_simple (command : SimpleCommand) {start : Nat} {more : List Statement}
    (stand : Stand listing start (command.statement start :: more))
    (inside : start + 1 < listing.length) (budget : Nat) (s : σ) :
    run I (numberLines 0 listing) (budget + 1) (lineNumber start) s =
      (command.execute I s).resume
        (run I (numberLines 0 listing) budget (lineNumber (start + 1))) := by
  cases command with
  | skip keyword =>
    -- a jump to the next line, which leaves no event
    rw [run_goto I stand]
    exact (Outcome.after_nil _).symm
  | halt keyword => exact run_stop I stand rfl budget s
  | giveBack keyword value => exact run_stop I stand rfl budget s
  | _ => exact run_act I stand rfl inside budget s

/-- The lines from `start` on run like the commands and then go on behind them. A run takes one path
through the branches, so of the budget at least what was not meant for these commands is left. -/
def RunLike (listing : List ListingLine) (cs : Commands) (start : Nat) : Prop :=
  ∀ budget s, ∃ left, budget ≤ left ∧
    run I (numberLines 0 listing) (cs.size + budget) (lineNumber start) s =
      (cs.execute I s).resume
        (run I (numberLines 0 listing) left (lineNumber (start + cs.size)))

/-- Behind an execution that came to its end, the commands that follow take over. -/
theorem RunLike.takeOver {rest : Commands} {start available budget : Nat}
    (runRest : RunLike I listing rest start) (progress : Progress σ)
    (enough : rest.size + budget ≤ available) :
    ∃ left, budget ≤ left ∧
      progress.resume (run I (numberLines 0 listing) available (lineNumber start)) =
        progress.resume fun s => (rest.execute I s).resume
          (run I (numberLines 0 listing) left (lineNumber (start + rest.size))) := by
  rcases runRest (available - rest.size) progress.state with ⟨left, atLeast, same⟩
  refine ⟨left, by omega, Progress.resume_congr ?_⟩
  rw [← same, show rest.size + (available - rest.size) = available by omega]

/-- Commands that stand where they were lowered to run as they execute. -/
theorem run_commands (cs : Commands) {start : Nat}
    (stand : Stand listing start (cs.statements start))
    (inside : start + cs.size < listing.length) : RunLike I listing cs start := by
  -- along the commands, for every budget behind them: what one block does not use up is passed on
  induction cs generalizing start with
  | nil =>
    intro budget s
    refine ⟨budget, Nat.le_refl _, ?_⟩
    simp [Commands.size, Commands.execute, Progress.resume, Progress.idle]
  | simple command tag rest ihRest =>
    intro budget s
    simp only [Commands.statements, Commands.size] at stand inside
    have runRest := ihRest stand.tail (by omega)
    rcases runRest.takeOver I (command.execute I s) (Nat.le_refl (rest.size + budget)) with
      ⟨left, enough, same⟩
    refine ⟨left, enough, ?_⟩
    rw [Commands.size, show 1 + rest.size + budget = rest.size + budget + 1 by omega]
    calc run I (numberLines 0 listing) (rest.size + budget + 1) (lineNumber start) s
        = (command.execute I s).resume
            (run I (numberLines 0 listing) (rest.size + budget) (lineNumber (start + 1))) :=
          run_simple I command stand (by omega) _ s
      _ = (command.execute I s).resume fun s => (rest.execute I s).resume
            (run I (numberLines 0 listing) left (lineNumber (start + 1 + rest.size))) := same
      _ = ((command.execute I s).andThen (rest.execute I)).resume
            (run I (numberLines 0 listing) left (lineNumber (start + (1 + rest.size)))) := by
          rw [Progress.resume_andThen, Nat.add_assoc start]
  | ifThen keyword condition brackets body tag rest ihBody ihRest =>
    intro budget s
    simp only [Commands.statements, Commands.size] at stand inside
    have standRest := stand.tail.right
    simp only [Commands.length_statements] at standRest
    have runBody := ihBody stand.tail.left (by omega)
    have runRest := ihRest standRest (by omega)
    rw [Commands.execute, Commands.size,
      show 1 + body.size + rest.size + budget = body.size + (rest.size + budget) + 1 by omega,
      run_branch I stand,
      show start + (1 + body.size + rest.size) = start + 1 + body.size + rest.size by omega]
    simp only [Progress.resume_andThen, Progress.resume_choose]
    cases I.test condition.basic s with
    | true =>
      -- the block stands right behind the branch, and what follows stands right behind the block
      rcases runBody (rest.size + budget) s with ⟨available, enough, runsBody⟩
      rcases runRest.takeOver I (body.execute I s) enough with ⟨left, atLeast, same⟩
      exact ⟨left, atLeast, congrArg _ (runsBody.trans same)⟩
    | false =>
      -- the jump leads behind the block, whose share of the budget is left over
      rcases runRest.takeOver I (.idle s)
        (show rest.size + budget ≤ body.size + (rest.size + budget) by omega) with
        ⟨left, atLeast, same⟩
      refine ⟨left, atLeast, congrArg _ ?_⟩
      simpa [Progress.resume, Progress.idle] using same
  | ifThenElse keyword condition thenBrackets thenBody elseBrackets elseBody tag rest ihThen ihElse
      ihRest =>
    intro budget s
    simp only [Commands.statements, Commands.size] at stand inside
    -- the listing has the branch, the first block, a jump, the second block and then the rest
    have standGoto := stand.tail.right
    have standElse := standGoto.tail.left
    have standRest := standGoto.tail.right
    simp only [Commands.length_statements] at standGoto standElse standRest
    have runThen := ihThen stand.tail.left (by omega)
    have runElse := ihElse standElse (by omega)
    have runRest := ihRest standRest (by omega)
    rw [Commands.execute, Commands.size,
      show 1 + thenBody.size + 1 + elseBody.size + rest.size + budget
        = thenBody.size + (1 + elseBody.size + rest.size + budget) + 1 by omega,
      run_branch I stand,
      show start + (1 + thenBody.size + 1 + elseBody.size + rest.size)
        = start + 1 + thenBody.size + 1 + elseBody.size + rest.size by omega]
    simp only [Progress.resume_andThen, Progress.resume_choose]
    cases I.test condition.basic s with
    | true =>
      rcases runThen (1 + elseBody.size + rest.size + budget) s with ⟨available, enough, runsThen⟩
      rcases runRest.takeOver I (thenBody.execute I s)
        (show rest.size + budget ≤ available - 1 by omega) with ⟨left, atLeast, same⟩
      refine ⟨left, atLeast, congrArg _ ?_⟩
      -- the closing jump of the first block leads over the second one
      have jumps (s : σ) : run I (numberLines 0 listing) available
          (lineNumber (start + 1 + thenBody.size)) s =
            run I (numberLines 0 listing) (available - 1)
              (lineNumber (start + 1 + thenBody.size + 1 + elseBody.size)) s := by
        rw [show available = available - 1 + 1 by omega, run_goto I standGoto]
        rfl
      calc run I (numberLines 0 listing)
            (thenBody.size + (1 + elseBody.size + rest.size + budget)) (lineNumber (start + 1)) s
          = (thenBody.execute I s).resume
              (run I (numberLines 0 listing) available
                (lineNumber (start + 1 + thenBody.size))) := runsThen
        _ = (thenBody.execute I s).resume
              (run I (numberLines 0 listing) (available - 1)
                (lineNumber (start + 1 + thenBody.size + 1 + elseBody.size))) :=
            Progress.resume_congr (jumps _)
        _ = _ := same
    | false =>
      -- the second block stands behind that jump; the share of the first one is left over
      rcases runElse (thenBody.size + 1 + rest.size + budget) s with ⟨available, enough, runsElse⟩
      rcases runRest.takeOver I (elseBody.execute I s)
        (show rest.size + budget ≤ available by omega) with ⟨left, atLeast, same⟩
      refine ⟨left, atLeast, congrArg _ ?_⟩
      rw [if_neg Bool.false_ne_true, if_neg Bool.false_ne_true, ← same, ← runsElse,
        show elseBody.size + (thenBody.size + 1 + rest.size + budget)
          = thenBody.size + (1 + elseBody.size + rest.size + budget) by omega]

/-- Statements that only act run one after the other. -/
theorem run_prologue {prologue : List Statement} {k : Nat} (stand : Stand listing k prologue)
    (acts : ∀ st ∈ prologue, st.instruction = .act)
    (inside : k + prologue.length < listing.length) (budget : Nat) (s : σ) :
    run I (numberLines 0 listing) (prologue.length + budget) (lineNumber k) s =
      (performAll I (prologue.map Statement.text) s).resume
        (run I (numberLines 0 listing) budget (lineNumber (k + prologue.length))) := by
  induction prologue generalizing k s with
  | nil => simp [performAll, Progress.resume, Progress.idle]
  | cons st rest ih =>
    simp only [List.length_cons] at inside ⊢
    -- the state behind the first statement is where the others start
    have runRest := ih stand.tail (fun st' member => acts st' (List.mem_cons_of_mem _ member))
      (by omega) (I.act st.text s)
    rw [show k + 1 + rest.length = k + (rest.length + 1) by omega] at runRest
    rw [show rest.length + 1 + budget = rest.length + budget + 1 by omega]
    calc run I (numberLines 0 listing) (rest.length + budget + 1) (lineNumber k) s
        = (run I (numberLines 0 listing) (rest.length + budget) (lineNumber (k + 1))
            (I.act st.text s)).after [.effect st.text] :=
          run_act I stand (acts st List.mem_cons_self) (by omega) _ s
      _ = ((performAll I (rest.map Statement.text) (I.act st.text s)).resume
            (run I (numberLines 0 listing) budget
              (lineNumber (k + (rest.length + 1))))).after [.effect st.text] := by rw [runRest]
      _ = (performAll I ((st :: rest).map Statement.text) s).resume
            (run I (numberLines 0 listing) budget (lineNumber (k + (rest.length + 1)))) := by
          rw [List.map_cons, performAll, Progress.resume_andThen]
          rfl

/-- Statements that act, a lowered block and a statement that stops run like a segment. -/
theorem run_segment {prologue : List Statement} {cs : Commands} {closing : Statement} {k : Nat}
    (stand : Stand listing k
      (prologue ++ (cs.statements (k + prologue.length) ++ [closing])))
    (acts : ∀ st ∈ prologue, st.instruction = .act) (stops : closing.instruction = .stop)
    (budget : Nat) (enough : prologue.length + cs.size + 1 ≤ budget) (s : σ) :
    run I (numberLines 0 listing) budget (lineNumber k) s =
      .stopped (((performAll I (prologue.map Statement.text) s).andThen (cs.execute I)).finish
        closing.text) := by
  -- prologue, block and closing statement hand over to each other
  have standClosing := stand.right.right
  simp only [Commands.length_statements] at standClosing
  have inside := standClosing.length_le
  simp only [List.length_cons, List.length_nil] at inside
  have runBlock := run_commands I cs stand.right.left (by omega)
  rcases runBlock.takeOver I (performAll I (prologue.map Statement.text) s)
    (show cs.size + 1 ≤ budget - prologue.length by omega) with ⟨left, atLeast, same⟩
  have runClosing (s : σ) : run I (numberLines 0 listing) left
      (lineNumber (k + prologue.length + cs.size)) s = .stopped ⟨[], s, closing.text⟩ := by
    rw [show left = left - 1 + 1 by omega, run_stop I standClosing stops]
  calc run I (numberLines 0 listing) budget (lineNumber k) s
      = run I (numberLines 0 listing) (prologue.length + (budget - prologue.length))
          (lineNumber k) s := by
        rw [show prologue.length + (budget - prologue.length) = budget by omega]
    _ = (performAll I (prologue.map Statement.text) s).resume
          (run I (numberLines 0 listing) (budget - prologue.length)
            (lineNumber (k + prologue.length))) := run_prologue I stand.left acts (by omega) _ s
    _ = ((performAll I (prologue.map Statement.text) s).andThen (cs.execute I)).resume
          (run I (numberLines 0 listing) left (lineNumber (k + prologue.length + cs.size))) := by
        rw [same, Progress.resume_andThen]
    _ = ((performAll I (prologue.map Statement.text) s).andThen (cs.execute I)).resume
          fun s => .stopped ⟨[], s, closing.text⟩ := Progress.resume_congr (runClosing _)
    _ = _ := Progress.resume_stopped _ _

end Blocks

/-! ## Segments of a program -/

/-- Functions are listed on from the ones in front of them. -/
theorem functionListings_append (start : Nat) (first second : List FunctionDecl) :
    functionListings start (first ++ second) =
      functionListings start first
        ++ functionListings (start + (functionListings start first).length) second := by
  induction first generalizing start with
  | nil => simp [functionListings]
  | cons f rest ih => simp [functionListings, ih, Nat.add_assoc]

namespace Program

/-- The main part stands at the beginning of the listing. -/
theorem stand_main (p : Program) :
    Stand p.listing 0
      (p.prologue ++ (p.block.commands.statements (0 + p.prologue.length) ++ [.finish])) := by
  refine ⟨(functionListings p.mainStatements.length p.functions.toList).map
    ListingLine.statement, ?_⟩
  simp [listing, mainStatements, prologue, Function.comp_def]

/-- Every function stands behind the main part and the functions before it. -/
theorem stand_function (p : Program) {before after : List FunctionDecl} {f : FunctionDecl}
    (split : p.functions.toList = before ++ f :: after) :
    Stand p.listing (p.functionStart before)
      ([.sub f.name.text (f.params.map Name.text), .locals (f.params.map Name.text)]
        ++ (f.body.commands.statements (p.functionStart before + 2) ++ [.endSub])) := by
  -- the listing is cut right in front of the function and right behind it
  have front : p.functionStart before = (p.mainStatements.map (ListingLine.mk false)
      ++ functionListings p.mainStatements.length before).length := by
    simp [functionStart]
  have parts : p.listing = (p.mainStatements.map (ListingLine.mk false)
      ++ functionListings p.mainStatements.length before)
        ++ (f.listing (p.functionStart before)
          ++ functionListings (p.functionStart before + f.lineCount) after) := by
    simp [listing, split, functionListings_append, functionListings, functionStart]
  refine ⟨(functionListings (p.functionStart before + f.lineCount) after).map
    ListingLine.statement, ?_⟩
  rw [parts, List.map_append, List.drop_left' (by rw [List.length_map, front])]
  simp [FunctionDecl.listing, Function.comp_def]

end Program

/-- The text of a program is its numbered lines written out. Followed from the first line of the
main part or of any function, they come to a stop within as many steps as there are lines, never
miss a line, and do, test and leave behind exactly what the segment does. -/
theorem run_listing (p : Program) (I : Interpretation σ) (s : σ) (extra : Nat) :
    p.basic = String.join (p.numberedLines.map NumberedLine.render) ∧
    run I p.numberedLines (p.listing.length + extra) (lineNumber 0) s =
      .stopped (p.mainSegment.execute I s) ∧
    ∀ before f after, p.functions.toList = before ++ f :: after →
      run I p.numberedLines (p.listing.length + extra) (lineNumber (p.functionStart before)) s =
        .stopped (f.segment.execute I s) := by
  refine ⟨renderLines_eq_join 0 p.listing, ?_, ?_⟩
  · -- the budget is enough, as the segment is a part of the listing
    have bound := List.IsPrefix.length_le p.stand_main
    simp only [List.length_append, Commands.length_statements, List.length_drop, List.length_map,
      List.length_cons, List.length_nil] at bound
    have acts : ∀ st ∈ p.prologue, st.instruction = .act := by
      intro st member
      rcases List.mem_map.1 member with ⟨decl, _, rfl⟩
      rfl
    have runs := run_segment I p.stand_main acts rfl (p.listing.length + extra) (by omega) s
    simpa [Program.mainSegment, Segment.execute, Program.prologue, Function.comp_def,
      Statement.text, Program.numberedLines] using runs
  · -- a function stands where the functions before it end
    intro before f after split
    have stand := p.stand_function split
    have bound := List.IsPrefix.length_le stand
    simp only [List.length_append, Commands.length_statements, List.length_drop, List.length_map,
      List.length_cons, List.length_nil] at bound
    have runs := run_segment I stand (by simp [Statement.instruction]) rfl
      (p.listing.length + extra) (by simp only [List.length_cons, List.length_nil]; omega) s
    simpa [FunctionDecl.segment, Segment.execute, Statement.text, commaSeparated, Triple.map,
      Program.numberedLines] using runs

/-- The inner function of a program with nested functions, run on its own. -/
theorem run_listing_inner_function :
    ∃ tokens p f g, tokenize nestedSource "nested.spl" = .ok tokens ∧ parse tokens = .ok p ∧
      p.functions.toList = [f] ++ g :: [] ∧
      run ⟨fun _ n => n + 1, fun _ n => n = 2⟩ p.numberedLines (p.listing.length + 0)
          (lineNumber (p.functionStart [f])) 0 =
        .stopped (g.segment.execute ⟨fun _ n => n + 1, fun _ n => n = 2⟩ 0) := by
  rcases exists_program_nestedSource with ⟨tokens, p, read, parsed, _, _, f, g, functions⟩
  exact ⟨tokens, p, f, g, read, parsed, functions, (run_listing p _ 0 0).2.2 [f] g [] functions⟩

end SplBasic
