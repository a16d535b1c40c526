import SplBasic.Proofs.RelabelledCompilation
import SplBasic.Proofs.ScopeProblems
import SplBasic.Proofs.SourceTexts
import SplBasic.Proofs.TypeChecking

/-!
# Names that stand for nothing

Both analyses look for the declarations of used names, each in its own way. Resolving asks for the
source name in the scopes around its block, and leaves the name alone if there is no declaration.
Checking asks for the text of the name among all unique names. They fail at the same places:

* `Program.unknownSymbols_typeProblems` : the names that checking finds nothing for are the used
  names without a declaration of their text, in source order,
* `Program.unboundNames_scopeProblems` : the names that resolving finds nothing for are the used
  names without a referent, in source order,
* `ScopeTree.pos_typeProblems_bind` : a name has a referent exactly if there is a declaration of the
  text that resolving leaves it with.
-/

namespace SplBasic

/-- Whether a used name has no declaration. -/
def TypeError.isUnknownSymbol : TypeError → Bool
  | unknownSymbol _ => true
  | _ => false

/-- Whether a used name has nothing that it could refer to. -/
def ScopeError.isUnbound : ScopeError → Bool
  | undeclaredVariable _ => true
  | undeclaredFunction _ => true
  | recursiveMain => true
  | _ => false

/-- Whether a used name stands for nothing, as far as the analysis can tell. -/
def Problem.isUnbound : Problem → Bool
  | scope error => error.isUnbound
  | type error => error.isUnknownSymbol

def unknownSymbols (problems : List (Located TypeError)) : List (Located TypeError) :=
  problems.filter fun l => l.cause.isUnknownSymbol

/-- The problems of names that refer to nothing. -/
def unboundNames (problems : List (Located ScopeError)) : List (Located ScopeError) :=
  problems.filter fun l => l.cause.isUnbound

/-! ## What checking finds nothing for -/

section Checking

@[simp] theorem unknownSymbols_append (first second : List (Located TypeError)) :
    unknownSymbols (first ++ second) = unknownSymbols first ++ unknownSymbols second :=
  List.filter_append first second

/-- Types that do not fit are no unknown names. -/
theorem unknownSymbols_mismatch (expected found : Ty) (cause : TypeError) (pos : Position)
    (other : cause.isUnknownSymbol = false) :
    unknownSymbols (mismatch expected found cause pos) = [] := by
  unfold mismatch
  split
  · simp [unknownSymbols, other]
  · rfl

variable (scopes : ScopeTree)

def NameUse.typeProblems (use : NameUse) : List (Located TypeError) :=
  use.kinded.name.typeProblems scopes use.kinded.kind

/-- Every problem of a name is that it is unknown. -/
theorem Name.unknownSymbols_typeProblems (kind : SymbolKind) (n : Name) :
    unknownSymbols (n.typeProblems scopes kind) = n.typeProblems scopes kind := by
  unfold typeProblems
  split
  · rfl
  · rfl

theorem Atom.unknownSymbols_typeProblems (a : Atom) :
    unknownSymbols (a.typeProblems scopes) = a.uses.flatMap (NameUse.typeProblems scopes) := by
  cases a with
  | name n =>
    rw [uses, List.flatMap_singleton]
    exact n.unknownSymbols_typeProblems scopes .variable
  | literal l => rfl

theorem Expr.unknownSymbols_operandProblems (op : Operator) (operand : Expr) :
    unknownSymbols (operand.operandProblems scopes op) = [] :=
  unknownSymbols_mismatch _ _ _ _ rfl

/-- The unknown names of an expression are those of its uses. -/
theorem Expr.unknownSymbols_typeProblems (e : Expr) :
    unknownSymbols (e.typeProblems scopes) = e.uses.flatMap (NameUse.typeProblems scopes) := by
  induction e with
  | atom a => exact a.unknownSymbols_typeProblems scopes
  | unary op token operand tag ih =>
    rw [typeProblems, unknownSymbols_append, ih, unknownSymbols_operandProblems, List.append_nil]
    rfl
  | binary op token left right tag ihLeft ihRight =>
    simp only [typeProblems, unknownSymbols_append, ihLeft, ihRight,
      unknownSymbols_operandProblems, List.append_nil, uses, List.flatMap_append]

theorem Call.unknownSymbols_argumentProblems (c : Call) (position : Nat) (arg : Atom) :
    unknownSymbols (c.argumentProblems scopes position arg) =
      arg.uses.flatMap (NameUse.typeProblems scopes) := by
  rw [argumentProblems, unknownSymbols_append, unknownSymbols_mismatch _ _ _ _ rfl,
    List.append_nil, arg.unknownSymbols_typeProblems]

/-- The unknown names of a call are those of its uses. -/
theorem Call.unknownSymbols_typeProblems (c : Call) :
    unknownSymbols (c.typeProblems scopes) = c.uses.flatMap (NameUse.typeProblems scopes) := by
  have callee : unknownSymbols (c.callee.typeProblems scopes .function) =
      NameUse.typeProblems scopes (.callee c.callee) :=
    c.callee.unknownSymbols_typeProblems scopes .function
  simp only [typeProblems, unknownSymbols_append, callee, unknownSymbols_argumentProblems, uses,
    Triple.toList, List.flatMap_cons, List.flatMap_nil, List.flatMap_append, List.append_assoc,
    List.append_nil]

theorem Term.unknownSymbols_typeProblems (value : Term) :
    unknownSymbols (value.typeProblems scopes) =
      value.uses.flatMap (NameUse.typeProblems scopes) := by
  cases value with
  | expr e => exact e.unknownSymbols_typeProblems scopes
  | call c => exact c.unknownSymbols_typeProblems scopes

/-- The unknown names of a command are those of its uses; mismatches are of another sort. -/
theorem SimpleCommand.unknownSymbols_typeProblems (outer : Option Enclosing)
    (command : SimpleCommand) :
    unknownSymbols (command.typeProblems scopes outer) =
      command.uses.flatMap (NameUse.typeProblems scopes) := by
  have target (name : Name) : unknownSymbols (name.typeProblems scopes .variable) =
      NameUse.typeProblems scopes (.variable name) :=
    name.unknownSymbols_typeProblems scopes .variable
  cases command with
  | skip keyword => rfl
  | halt keyword => rfl
  | print keyword value => exact value.unknownSymbols_typeProblems scopes
  | giveBack keyword value =>
    cases outer with
    | none =>
      rw [typeProblems, unknownSymbols_append, value.unknownSymbols_typeProblems]
      exact List.append_nil _
    | some f =>
      rw [typeProblems, unknownSymbols_append, value.unknownSymbols_typeProblems,
        unknownSymbols_mismatch _ _ _ _ rfl, List.append_nil]
      rfl
  | read name keyword =>
    rw [typeProblems, unknownSymbols_append, target, unknownSymbols_mismatch _ _ _ _ rfl, uses,
      List.flatMap_singleton, List.append_nil]
  | assign name value =>
    -- a mismatch is reported on top of unknown names, and is none of them
    rw [typeProblems, unknownSymbols_append, unknownSymbols_append, target,
      value.unknownSymbols_typeProblems, uses, List.flatMap_cons]
    split
    · exact List.append_nil _
    · rw [unknownSymbols_mismatch _ _ _ _ rfl, List.append_nil]
  | call c => exact c.unknownSymbols_typeProblems scopes

/-- The unknown names of a condition are those of its uses. -/
theorem unknownSymbols_conditionProblems (condition : Expr) :
    unknownSymbols (conditionProblems scopes condition) =
      condition.uses.flatMap (NameUse.typeProblems scopes) := by
  rw [conditionProblems, unknownSymbols_append, condition.unknownSymbols_typeProblems]
  split
  · exact List.append_nil _
  · exact List.append_nil _

/-- The names that checking commands finds nothing for stand in the order in which they are used. -/
theorem Commands.unknownSymbols_typeProblems (outer : Option Enclosing) (cs : Commands) :
    unknownSymbols (cs.typeProblems scopes outer) =
      cs.uses.flatMap (NameUse.typeProblems scopes) := by
  induction cs with
  | nil => rfl
  | simple command tag rest ih =>
    simp only [typeProblems, unknownSymbols_append, command.unknownSymbols_typeProblems, ih, uses,
      List.flatMap_append]
  | ifThen keyword condition brackets body tag rest ihBody ihRest =>
    simp only [typeProblems, unknownSymbols_append, unknownSymbols_conditionProblems, ihBody,
      ihRest, uses, List.flatMap_append]
  | ifThenElse keyword condition thenBrackets thenBody elseBrackets elseBody tag rest ihThen ihElse
      ihRest =>
    simp only [typeProblems, unknownSymbols_append, unknownSymbols_conditionProblems, ihThen,
      ihElse, ihRest, uses, List.flatMap_append]

/-- Names are checked block by block, in source order. -/
theorem Program.unknownSymbols_typeProblems (p : Program) :
    unknownSymbols (p.typeProblems scopes) =
      p.block.commands.uses.flatMap (NameUse.typeProblems scopes)
        ++ p.functions.toList.flatMap fun f =>
          f.body.commands.uses.flatMap (NameUse.typeProblems scopes) := by
  rw [typeProblems, unknownSymbols_append, Commands.unknownSymbols_typeProblems, unknownSymbols,
    List.filter_flatMap]
  congr 2
  funext f
  exact f.body.commands.unknownSymbols_typeProblems scopes (some f.enclosing)

end Checking

/-! ## What resolving finds nothing for -/

/-- The names that refer to nothing are those that problems of used names are about. -/
theorem unboundNames_eq (problems : List (Located ScopeError)) :
    unboundNames problems = problemsAbout .use problems := by
  refine congrArg (problems.filter ·) (funext fun l => ?_)
  cases l.cause <;> rfl

/-- The unbound names of a program are those of its blocks. -/
theorem Program.unboundNames_scopeProblems (tree : ScopeTree) (p : Program) :
    unboundNames (p.scopeProblems tree) = tree.blockProblems ScopeTree.global p.block
      ++ p.placed.toList.flatMap fun f => tree.blockProblems f.own f.value.body := by
  rw [unboundNames_eq, p.problemsAbout_use tree]

/-! ## Both together -/

namespace ScopeTree

/-- No declaration has a source name as its unique name. -/
theorem Numbered.byUnique?_mark {tree : ScopeTree} (numbered : tree.Numbered) (kind : SymbolKind)
    (bare : String) : tree.byUnique? (kind.mark ++ bare) = none := by
  refine List.find?_eq_none.2 fun d member => ?_
  rcases numbered.bounded d member with ⟨number, _, unique⟩
  rw [unique, decide_eq_true_eq]
  exact unmarked_numberedName d.symbol.kind number kind bare

/-- A name refers to a declaration of its kind. -/
theorem kind_of_referent {tree : ScopeTree} {scope : Nat} {use : NameUse} {d : Declaration}
    (found : tree.referent scope use = some d) : d.symbol.kind = use.kinded.kind := by
  cases use with
  | «variable» name => exact of_decide_eq_true (Option.filter_eq_some_iff.1 found).2
  | callee name =>
    by_cases isMain : name.bare = "main"
    · simp [referent, isMain] at found
    · simp only [referent, isMain, if_false] at found
      exact of_decide_eq_true (Option.filter_eq_some_iff.1 found).2

/-- A name is unknown to the checker exactly where resolving left it with its source name. -/
theorem pos_typeProblems_bind {tree : ScopeTree} (numbered : tree.Numbered) (scope : Nat)
    {use : NameUse} {bare : String} (asRead : use.kinded.name.text = use.kinded.kind.mark ++ bare) :
    (NameUse.typeProblems tree (use.mapNames (tree.bindVariable scope) (tree.bindCallee scope))).map
      Located.pos = (tree.useObjection scope use).toList.map Located.pos := by
  cases referent : tree.referent scope use with
  | some d =>
    -- the text is the unique name of a declaration of the right kind
    have bound := numbered.byUnique?_eq_some (mem_of_referent referent)
    rw [← text_of_referent referent] at bound
    have kind (f g : Name → Name) : (use.mapNames f g).kinded.kind = use.kinded.kind := by
      cases use with
      | «variable» name => rfl
      | callee name => rfl
    have known : (use.mapNames (tree.bindVariable scope)
        (tree.bindCallee scope)).kinded.name.declaredType? tree use.kinded.kind =
          some d.symbol.ty := by
      simp [Name.declaredType?, bound, kind_of_referent referent]
    rw [useObjection_eq_none_iff.2 (by simp [referent]), NameUse.typeProblems, kind,
      Name.typeProblems, known]
    rfl
  | none =>
    -- the text is still the source name
    have unbound := numbered.byUnique?_mark use.kinded.kind bare
    rw [← asRead] at unbound
    have unknown : use.kinded.name.declaredType? tree use.kinded.kind = none := by
      simp [Name.declaredType?, unbound]
    cases use with
    | «variable» name =>
      have unknown : name.declaredType? tree .variable = none := unknown
      simp [NameUse.mapNames, bindVariable, referent, rename, NameUse.typeProblems, NameUse.kinded,
        Name.typeProblems, unknown, useObjection]
    | callee name =>
      have unknown : name.declaredType? tree .function = none := unknown
      -- the two problems stand at the same place
      by_cases isMain : name.bare = "main"
      · simp [NameUse.mapNames, bindCallee, referent, rename, NameUse.typeProblems, NameUse.kinded,
          Name.typeProblems, unknown, useObjection, isMain]
      · simp [NameUse.mapNames, bindCallee, referent, rename, NameUse.typeProblems, NameUse.kinded,
          Name.typeProblems, unknown, useObjection, isMain]

/-- In a bound block, the names that have no type are the ones that were not bound. -/
theorem pos_typeProblems_bindBlock {tree : ScopeTree} (numbered : tree.Numbered) (scope : Nat)
    {block : Block} (asRead : ∀ use ∈ block.commands.uses,
      ∃ bare, use.kinded.name.text = use.kinded.kind.mark ++ bare) :
    ((tree.bindBlock scope block).commands.uses.flatMap
      (NameUse.typeProblems tree)).map Located.pos =
      (tree.blockProblems scope block).map Located.pos := by
  rw [uses_bindBlock, List.flatMap_map, List.map_flatMap, blockProblems,
    List.filterMap_eq_flatMap_toList, List.map_flatMap]
  refine List.flatMap_congr fun use used => ?_
  rcases asRead use used with ⟨bare, text⟩
  exact pos_typeProblems_bind numbered scope text

end ScopeTree

/-- Checking a resolved program finds nothing at the places where resolving it found nothing. -/
theorem Program.pos_unknownSymbols_bindNames {p : Program}
    (asRead : ∀ r ∈ p.regions, ∀ use ∈ r.block.commands.uses,
      ∃ bare, use.kinded.name.text = use.kinded.kind.mark ++ bare) :
    (unknownSymbols ((p.bindNames p.scopeTree).typeProblems p.scopeTree)).map Located.pos =
      (unboundNames (p.scopeProblems p.scopeTree)).map Located.pos := by
  let tree := p.scopeTree
  -- both passes visit the main block and then the bodies in preorder, so blocks are compared
  have bodies : ((p.bindNames tree).functions.toList.flatMap fun f =>
      f.body.commands.uses.flatMap (NameUse.typeProblems tree)) =
        p.placed.toList.flatMap fun f =>
          (tree.bindBlock f.own f.value.body).commands.uses.flatMap (NameUse.typeProblems tree) := by
    rw [show (p.bindNames tree).functions.toList = _ from Forest.toList_map _ _, p.placed_eq_sites,
      Forest.toList_map, List.flatMap_map, List.flatMap_map]
    rfl
  have main : ((tree.bindBlock ScopeTree.global p.block).commands.uses.flatMap
      (NameUse.typeProblems tree)).map Located.pos =
        (tree.blockProblems ScopeTree.global p.block).map Located.pos :=
    ScopeTree.pos_typeProblems_bindBlock p.numbered_scopeTree _
      (asRead p.mainRegion List.mem_cons_self)
  have body {f : Placed FunctionDecl} (isPlaced : f ∈ p.placed.toList) :
      ((tree.bindBlock f.own f.value.body).commands.uses.flatMap (NameUse.typeProblems tree)).map
        Located.pos = (tree.blockProblems f.own f.value.body).map Located.pos := by
    rcases exists_region_of_function isPlaced with ⟨r, member, _, _, block⟩
    exact ScopeTree.pos_typeProblems_bindBlock p.numbered_scopeTree _ (block ▸ asRead r member)
  calc (unknownSymbols ((p.bindNames tree).typeProblems tree)).map Located.pos
      = ((tree.bindBlock ScopeTree.global p.block).commands.uses.flatMap
          (NameUse.typeProblems tree)).map Located.pos
            ++ (p.placed.toList.flatMap fun f => (tree.bindBlock f.own
              f.value.body).commands.uses.flatMap (NameUse.typeProblems tree)).map Located.pos := by
        rw [unknownSymbols_typeProblems, bodies, List.map_append]
        rfl
    _ = (tree.blockProblems ScopeTree.global p.block).map Located.pos
          ++ (p.placed.toList.flatMap fun f =>
            tree.blockProblems f.own f.value.body).map Located.pos := by
        rw [main, List.map_flatMap, List.flatMap_congr fun f => body, ← List.map_flatMap]
    _ = (unboundNames (p.scopeProblems tree)).map Located.pos := by
        rw [unboundNames_scopeProblems, List.map_append]

/-- In a program that is read from a text and resolved, with or without problems, checking reports
an unknown symbol exactly where resolving reports a name that it finds no declaration for, in the same
order. If resolving reports nothing, no symbol is unknown. -/
theorem unknownSymbol_places {text file : String} {tokens : List Token} {p : Program}
    (read : tokenize text file = .ok tokens) (parsed : parse tokens = .ok p) :
    ((typecheck (resolve p).scopes (resolve p).program).diagnostics.filter
        fun d => d.problem.isUnbound).map Diagnostic.pos =
      ((resolve p).diagnostics.filter fun d => d.problem.isUnbound).map Diagnostic.pos ∧
    ((resolve p).diagnostics = [] →
      ∀ d ∈ (typecheck (resolve p).scopes (resolve p).program).diagnostics,
        ∀ name, d.problem ≠ .type (.unknownSymbol name)) := by
  have named := wellNamed_of_parse read parsed
  have asRead : ∀ r ∈ p.regions, ∀ use ∈ r.block.commands.uses,
      ∃ bare, use.kinded.name.text = use.kinded.kind.mark ++ bare := by
    intro r member use used
    rw [(spelt_of_parse parsed).text_of_use r member use used]
    exact named.marked use.kinded (Program.use_mem_names member used)
  -- on both sides the diagnostics are the problems, shown at their places
  have places : ((typecheck (resolve p).scopes (resolve p).program).diagnostics.filter
        fun d => d.problem.isUnbound).map Diagnostic.pos =
      ((resolve p).diagnostics.filter fun d => d.problem.isUnbound).map Diagnostic.pos := by
    rw [Typing.diagnostics, Resolution.diagnostics, List.filter_map, List.filter_map, List.map_map,
      List.map_map]
    exact Program.pos_unknownSymbols_bindNames asRead
  refine ⟨places, fun clean d listed name unknown => ?_⟩
  rw [clean, List.filter_nil, List.map_nil, List.map_eq_nil_iff, List.filter_eq_nil_iff] at places
  exact places d listed (by rw [unknown]; rfl)

/-- A program that calls a function named `F_main`, uses a variable and sets another one that are
not declared, and declares a function with the name it calls. -/
def unboundSource : String :=
  "main num V_x begin F_main(V_x,V_y,1);V_z=\"V_z\" end "
    ++ "num F_main(V_a,V_b,V_c)\x7bnum V_p,num V_q,num V_r,begin return V_x end\x7dend"

/-- Both analyses report three names, although one of them is declared and another one is quoted. -/
theorem unknownSymbol_places_unboundSource :
    ∃ tokens p, tokenize unboundSource "t.spl" = .ok tokens ∧ parse tokens = .ok p ∧
      ((resolve p).diagnostics.filter fun d => d.problem.isUnbound).map Diagnostic.pos =
        [⟨1, 20⟩, ⟨1, 31⟩, ⟨1, 38⟩] ∧
      ((typecheck (resolve p).scopes (resolve p).program).diagnostics.filter
        fun d => d.problem.isUnbound).map Diagnostic.pos = [⟨1, 20⟩, ⟨1, 31⟩, ⟨1, 38⟩] := by
  have reported : (readProgram? unboundSource "t.spl").any (fun p =>
      ((resolve p).diagnostics.filter fun d => d.problem.isUnbound).map Diagnostic.pos =
        [⟨1, 20⟩, ⟨1, 31⟩, ⟨1, 38⟩]) = true := by
    decide +kernel
  rcases exists_of_readProgram? reported with ⟨tokens, p, read, parsed, places⟩
  have resolved := of_decide_eq_true places
  exact ⟨tokens, p, read, parsed, resolved, (unknownSymbol_places read parsed).1.trans resolved⟩

end SplBasic
