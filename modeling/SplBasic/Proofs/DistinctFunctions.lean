import SplBasic.Proofs.ConsistentRenaming
import SplBasic.Proofs.Execution
import SplBasic.Proofs.ProgramParts

/-!
# Functions with the same name

Of several functions with one name in one list the first one is declared, and each of the others is
taken for a second one because it does not stand where the first one does. That is a comparison of
places, so it tells functions apart only if their places differ.

* `exists_first` : what a declared function is looked up as,
* `subNames_eq` : the functions that a listing opens,
* `functions_distinct_iff` : what is compiled has no function twice, in its lists and in its
  listing, exactly if no function stands twice at one place,
* `duplicate_functions_compiled` : tokens for which this fails.
-/

namespace SplBasic

/-! ## What functions are looked up as -/

namespace ScopeTree

/-- Whatever a scope of the first tree has, it has in the second one. -/
def Extends (tree tree' : ScopeTree) : Prop :=
  ∀ ⦃s name d⦄, tree.lookupLocal s name = some d → tree'.lookupLocal s name = some d

/-- A variable hides nothing of its own scope: a name that is taken meets an objection. -/
theorem extends_declareVariable (tree : ScopeTree) (scope : Nat) (entry : Name × ValueType) :
    tree.Extends (tree.declareVariable scope entry) := by
  intro s name d found
  by_cases taken : scope = s ∧ entry.1.source = name
  · rcases taken with ⟨rfl, rfl⟩
    have objection : (tree.variableObjection scope entry.1).isSome := by
      simp [variableObjection, found]
    rw [declareVariable_of_objection objection, found]
  · rw [lookupLocal_declareVariable_of_ne tree (not_and_or.1 taken), found]

/-- A tree is extended step by step. -/
theorem extends_foldl {α : Type} {step : ScopeTree → α → ScopeTree}
    (each : ∀ (tree : ScopeTree) (a : α), tree.Extends (step tree a)) (xs : List α)
    (tree : ScopeTree) : tree.Extends (xs.foldl step tree) := by
  induction xs generalizing tree with
  | nil =>
    intro s name d found
    exact found
  | cons x xs ih =>
    intro s name d found
    exact ih (step tree x) (each tree x found)

end ScopeTree

namespace Frame

def functionNames (frame : Frame) : List String :=
  frame.functionDecls.map fun entry => entry.1.lexeme

/-- The names of the functions of one list with their places. -/
def functionPlaces (frame : Frame) : List (String × Position) :=
  frame.functionDecls.map fun entry => (entry.1.lexeme, entry.1.pos)

end Frame

namespace Program

variable {p : Program}

/-- Declaring variables extends the hoisted tree. -/
theorem hoisted_extends (p : Program) : p.hoisted.Extends p.scopeTree := by
  intro s name d found
  -- behind the functions only variables are declared
  have withGlobals : p.withGlobals.lookupLocal s name = some d :=
    ScopeTree.extends_foldl (fun tree entry => tree.extends_declareVariable _ entry) _ _ found
  refine ScopeTree.extends_foldl (fun tree f => ?_) _ _ withGlobals
  exact ScopeTree.extends_foldl (fun tree entry => tree.extends_declareVariable _ entry) _ tree

/-- A declared function is looked up as the first function of its name in its list, whatever the
variables around it are called. -/
theorem exists_first {r : Region} (member : r ∈ p.regions) {entry : Token × ReturnType}
    (listed : entry ∈ r.frame.functionDecls) :
    ∃ first d, r.frame.findFunction? entry.1.lexeme = some first ∧
      p.scopeTree.lookupLocal r.frame.number entry.1.lexeme = some d ∧
      d.symbol.pos = first.1.pos := by
  have isSome : (r.frame.findFunction? entry.1.lexeme).isSome := by
    rw [Frame.findFunction?, List.find?_isSome]
    exact ⟨entry, listed, by simp⟩
  rcases Option.isSome_iff_exists.1 isSome with ⟨first, isFirst⟩
  have looked := lookupLocal_hoisted member entry.1.lexeme
  rw [isFirst, Option.map_some, Option.map_eq_some_iff] at looked
  rcases looked with ⟨d, found, view⟩
  exact ⟨first, d, isFirst, p.hoisted_extends found, congrArg (fun v => v.2.2) view⟩

/-- If nothing is wrong with the functions of a list, each stands where the first of its name
does. -/
theorem exists_first_at_place
    (functions : ∀ f ∈ p.placed.toList, p.scopeTree.functionObjection f.outer f.value.name = none)
    {r : Region} (member : r ∈ p.regions) {entry : Token × ReturnType}
    (listed : entry ∈ r.frame.functionDecls) :
    ∃ first, r.frame.findFunction? entry.1.lexeme = some first ∧ first.1.pos = entry.1.pos := by
  rcases (mem_functionDecls_iff member).1 listed with ⟨f, isPlaced, inside, rfl⟩
  rcases exists_first member listed with ⟨first, d, isFirst, found, place⟩
  refine ⟨first, isFirst, ?_⟩
  have isSome := (ScopeTree.functionObjection_eq_none_iff.1 (functions f isPlaced)).1
  rcases Option.isSome_iff_exists.1 isSome with ⟨e, isEntry⟩
  rcases Option.filter_eq_some_iff.1 isEntry with ⟨found', samePlace⟩
  -- the entry is what the name is looked up as, so it stands where the first function does
  rw [inside] at found'
  cases found.symm.trans found'
  exact place.symm.trans (of_decide_eq_true samePlace)

/-- If nothing is wrong with its functions, a list has no name twice exactly if it has no name twice
at one place. -/
theorem nodup_functionNames_iff
    (functions : ∀ f ∈ p.placed.toList, p.scopeTree.functionObjection f.outer f.value.name = none)
    {r : Region} (member : r ∈ p.regions) :
    r.frame.functionNames.Nodup ↔ r.frame.functionPlaces.Nodup := by
  constructor
  · intro distinct
    refine List.Nodup.of_map Prod.fst ?_
    rwa [Frame.functionPlaces, List.map_map]
  · intro apart
    apply (nodup_map_iff_find? apart).2
    intro entry listed
    exact exists_first_at_place functions member listed

/-! ## Unique names of functions -/

/-- No function is placed twice. -/
theorem nodup_placed (p : Program) : p.placed.toList.Nodup := by
  apply List.Nodup.of_map Placed.own
  rw [p.map_own_placed]
  exact List.nodup_range'

/-- The functions of the renamed program have the texts that their names are bound to. -/
theorem functionTexts_bindNames (tree : ScopeTree) (p : Program) :
    ((p.bindNames tree).functions.toList.map fun f => f.name.text) =
      p.placed.toList.map fun f => (tree.bindFunction f.outer f.value.name).text := by
  have functions : (p.bindNames tree).functions.toList =
      p.sites.toList.map fun site => tree.bindDecl site.1 site.2 := Forest.toList_map _ _
  calc ((p.bindNames tree).functions.toList.map fun f => f.name.text)
      = p.sites.toList.map fun site => (tree.bindFunction site.2.outer site.2.value.name).text := by
        rw [functions, List.map_map]
        rfl
    _ = p.placed.toList.map fun f => (tree.bindFunction f.outer f.value.name).text := by
        rw [p.placed_eq_sites, Forest.toList_map, List.map_map]
        rfl

/-- Functions of different lists or with different names get different unique names. -/
theorem nodup_functionTexts
    (functions : ∀ f ∈ p.placed.toList, p.scopeTree.functionObjection f.outer f.value.name = none)
    (distinct : ∀ r ∈ p.regions, r.frame.functionNames.Nodup) :
    ((p.bindNames p.scopeTree).functions.toList.map fun f => f.name.text).Nodup := by
  rw [functionTexts_bindNames]
  have entry {f : Placed FunctionDecl} (isPlaced : f ∈ p.placed.toList) :
      ∃ d, p.scopeTree.lookupLocal f.outer f.value.name.source = some d ∧
        (p.scopeTree.bindFunction f.outer f.value.name).text = d.symbol.unique := by
    have isSome := (ScopeTree.functionObjection_eq_none_iff.1 (functions f isPlaced)).1
    rcases Option.isSome_iff_exists.1 isSome with ⟨d, isEntry⟩
    refine ⟨d, (Option.filter_eq_some_iff.1 isEntry).1, ?_⟩
    rw [ScopeTree.bindFunction, isEntry]
  refine p.nodup_placed.map_on fun f isPlaced g isPlaced' same => ?_
  rcases entry isPlaced with ⟨d, found, text⟩
  rcases entry isPlaced' with ⟨e, found', text'⟩
  rw [text, text'] at same
  -- one unique name is one declaration, and a declaration has one scope and one name
  have sameEntry : d = e := p.numbered_scopeTree.eq_of_unique (List.mem_of_find?_eq_some found)
    (List.mem_of_find?_eq_some found') same
  subst sameEntry
  have here := List.find?_some found
  have there := List.find?_some found'
  simp only [Bool.and_eq_true, decide_eq_true_eq] at here there
  -- so both functions are in one list, under a name that the list has only once
  rcases exists_region_around isPlaced with ⟨r, member, inside⟩
  have names := distinct r member
  rw [Frame.functionNames, functionDecls_eq member, List.map_map] at names
  have listed : f ∈ p.placed.toList.filter fun f => f.outer = r.frame.number :=
    List.mem_filter.2 ⟨isPlaced, by simp [inside]⟩
  have listed' : g ∈ p.placed.toList.filter fun f => f.outer = r.frame.number :=
    List.mem_filter.2 ⟨isPlaced', by simp [inside, ← here.1, there.1]⟩
  exact List.inj_on_of_nodup_map names listed listed' (here.2.symm.trans there.2)

end Program

/-! ## The functions that a listing opens -/

namespace NumberedLine

/-- The name of the function that a line opens: what stands between `SUB` and the bracket. -/
def subName? (line : NumberedLine) : Option String :=
  (line.text.toList.dropPrefix? "SUB ".toList).map fun behind =>
    String.ofList (behind.takeWhile fun c => c ≠ '(')

end NumberedLine

namespace Program

def subNames (p : Program) : List String :=
  p.numberedLines.filterMap NumberedLine.subName?

end Program

namespace Statement

def isBoundary : Statement → Bool
  | sub _ _ => true
  | locals _ => true
  | endSub => true
  | _ => false

def subName? : Statement → Option String
  | sub name _ => some name
  | _ => none

/-- Only statements that open a function have a name for it. -/
theorem subName?_eq_none {st : Statement} (inside : st.isBoundary = false) :
    st.subName? = none := by
  cases st with
  | sub name params => cases inside
  | _ => rfl

/-- The name is read off the text of the statement, if it has no bracket in it. -/
theorem subName?_text (number : Nat) (indentation : String) {st : Statement}
    (plain : ∀ name ∈ st.subName?, '(' ∉ name.toList) :
    NumberedLine.subName? ⟨number, indentation, st.text⟩ = st.subName? := by
  cases st with
  | sub name params =>
    have noBracket : ∀ c ∈ name.toList, decide (c ≠ '(') = true := by
      intro c member
      simp only [ne_eq, decide_eq_true_eq]
      rintro rfl
      exact plain name rfl member
    have chars : (text (sub name params)).toList =
        "SUB ".toList ++ (name.toList ++ '(' :: (commaSeparated params ++ ")").toList) := by
      simp [text]
    rw [NumberedLine.subName?, chars, List.dropPrefix?_append_of_beq _ (by simp), Option.map_some,
      List.takeWhile_append_of_pos noBracket]
    simp [subName?]
  | _ => simp [NumberedLine.subName?, text, subName?, List.dropPrefix?]

end Statement

/-- Statements of commands neither open nor close a function. -/
theorem Statement.WrittenFrom.isBoundary {P : Part → Prop} {st : Statement}
    (written : st.WrittenFrom P) : st.isBoundary = false := by
  cases written with
  | goto target => rfl
  | branch parts thenTarget elseTarget => rfl
  | @simple command parts position =>
    cases command with
    | skip keyword => rfl
    | halt keyword => rfl
    | print keyword value => rfl
    | giveBack keyword value => rfl
    | read target keyword => rfl
    | assign target value => rfl
    | call c => rfl

/-- No command opens or closes a function. -/
theorem Commands.isBoundary_of_mem {cs : Commands} {start : Nat} {st : Statement}
    (member : st ∈ cs.statements start) : st.isBoundary = false := by
  have written : st.WrittenFrom fun _ => True :=
    Commands.writtenFrom_of_mem (fun _ _ => trivial) st member
  exact written.isBoundary

/-- The names of functions are read back from the lines. -/
theorem filterMap_subName?_numberLines (position : Nat) {listing : List ListingLine}
    (plain : ∀ line ∈ listing, ∀ name ∈ line.statement.subName?, '(' ∉ name.toList) :
    (numberLines position listing).filterMap NumberedLine.subName? =
      listing.filterMap fun line => line.statement.subName? := by
  induction listing generalizing position with
  | nil => rfl
  | cons line rest ih =>
    rcases List.forall_mem_cons.1 plain with ⟨here, later⟩
    rw [numberLines, List.filterMap_cons, List.filterMap_cons, Statement.subName?_text _ _ here,
      ih (position + 1) later]

/-- Each function opens one. -/
theorem FunctionDecl.filterMap_subName?_listing (start : Nat) (f : FunctionDecl) :
    ((f.listing start).filterMap fun line => line.statement.subName?) = [f.name.text] := by
  have body : ((f.body.commands.statements (start + 2)).map (ListingLine.mk true)).filterMap
      (fun line => line.statement.subName?) = [] := by
    rw [List.filterMap_map, List.filterMap_eq_nil_iff]
    intro st member
    exact Statement.subName?_eq_none (Commands.isBoundary_of_mem member)
  rw [listing, List.filterMap_cons, List.filterMap_cons, List.filterMap_append, body]
  rfl

/-- The functions are opened in order. -/
theorem filterMap_subName?_functionListings (start : Nat) (fs : List FunctionDecl) :
    ((functionListings start fs).filterMap fun line => line.statement.subName?) =
      fs.map fun f => f.name.text := by
  induction fs generalizing start with
  | nil => rfl
  | cons f fs ih =>
    calc ((functionListings start (f :: fs)).filterMap fun line => line.statement.subName?)
        = ((f.listing start).filterMap fun line => line.statement.subName?)
            ++ (functionListings (start + f.lineCount) fs).filterMap
              fun line => line.statement.subName? := List.filterMap_append
      _ = [f.name.text] ++ fs.map fun f => f.name.text := by
          rw [f.filterMap_subName?_listing, ih]
      _ = (f :: fs).map fun f => f.name.text := rfl

namespace Program

/-- The listing opens the functions of the program, in preorder. -/
theorem filterMap_subName?_listing (p : Program) :
    (p.listing.filterMap fun line => line.statement.subName?) =
      p.functions.toList.map fun f => f.name.text := by
  have main : (p.mainStatements.map (ListingLine.mk false)).filterMap
      (fun line => line.statement.subName?) = [] := by
    rw [List.filterMap_map, List.filterMap_eq_nil_iff]
    intro st member
    apply Statement.subName?_eq_none
    simp only [mainStatements, prologue, List.mem_append, List.mem_map,
      List.mem_singleton] at member
    rcases member with (⟨decl, _, rfl⟩ | inBlock) | rfl
    · rfl
    · exact Commands.isBoundary_of_mem inBlock
    · rfl
  rw [listing, List.filterMap_append, main, filterMap_subName?_functionListings, List.nil_append]

/-- The listing opens the functions of the program in preorder, one line for each. -/
theorem subNames_eq {p : Program} (plain : ∀ f ∈ p.functions.toList, '(' ∉ f.name.text.toList) :
    p.subNames = p.functions.toList.map fun f => f.name.text := by
  rw [subNames, numberedLines, filterMap_subName?_numberLines, filterMap_subName?_listing]
  intro line member name opened
  have listed : name ∈ p.listing.filterMap fun line => line.statement.subName? :=
    List.mem_filterMap.2 ⟨line, member, opened⟩
  rw [filterMap_subName?_listing] at listed
  rcases List.mem_map.1 listed with ⟨f, isFunction, rfl⟩
  exact plain f isFunction

end Program

/-! ## Compiled programs -/

/-- What is compiled was parsed. -/
theorem exists_program_of_compileTokens {tokens : List Token} {c : Compilation}
    (compiled : compileTokens tokens = .ok c) :
    ∃ p, parse tokens = .ok p ∧ compileProgram p = .ok c := by
  cases parsed : parse tokens with
  | ok p => exact ⟨p, rfl, (compileTokens_of_ok parsed).symm.trans compiled⟩
  | error e =>
    rw [compileTokens_of_error parsed] at compiled
    cases compiled

/-- The functions of a compiled program are opened under the texts that their names are bound to. -/
theorem subNames_annotate {p : Program} (clean : p.scopeProblems p.scopeTree = [])
    (scopes : ScopeTree) :
    ((p.bindNames p.scopeTree).annotate scopes).subNames =
      (p.bindNames p.scopeTree).functions.toList.map fun f => f.name.text := by
  -- a name without a bracket is read back whole from its line
  have texts : ∀ f ∈ (p.bindNames p.scopeTree).functions.toList, '(' ∉ f.name.text.toList := by
    intro f isFunction bracket
    rcases Program.numbered_declaredNames clean f.name (Program.name_mem_declaredNames isFunction)
      with ⟨kind, number, text⟩
    rw [text] at bracket
    have plain := SymbolKind.isAlphanum_of_mem_numberedName bracket
    cases plain
  have functions : ((p.bindNames p.scopeTree).annotate scopes).functions.toList =
      (p.bindNames p.scopeTree).functions.toList.map (FunctionDecl.annotate scopes) :=
    Forest.toList_map _ _
  rw [Program.subNames_eq, functions, List.map_map]
  · rfl
  · rw [functions]
    intro f tagged
    rcases List.mem_map.1 tagged with ⟨g, isFunction, rfl⟩
    exact texts g isFunction

/-- What is compiled has no function twice, neither in a list of its program nor in its listing,
exactly if no list has two functions with the same name at the same place. -/
theorem functions_distinct_iff {tokens : List Token} {c : Compilation}
    (compiled : compileTokens tokens = .ok c) :
    ∃ p, parse tokens = .ok p ∧
      c.basic = String.join (c.program.numberedLines.map NumberedLine.render) ∧
      ((∀ r ∈ p.regions, r.frame.functionNames.Nodup) ∧ c.program.subNames.Nodup ↔
        ∀ r ∈ p.regions, r.frame.functionPlaces.Nodup) := by
  rcases exists_program_of_compileTokens compiled with ⟨p, parsed, compiled⟩
  rcases compileProgram_eq_ok compiled with ⟨clean, _, rfl⟩
  rcases Program.scopeProblems_eq_nil_iff.1 clean with ⟨_, functions, _⟩
  -- every function found itself when it was looked up, so a name tells the place
  have names (r : Region) (member : r ∈ p.regions) :
      r.frame.functionNames.Nodup ↔ r.frame.functionPlaces.Nodup :=
    Program.nodup_functionNames_iff functions member
  refine ⟨p, parsed, renderLines_eq_join 0 _, ?_⟩
  constructor
  · rintro ⟨distinct, _⟩ r member
    exact (names r member).1 (distinct r member)
  · intro apart
    have distinct : ∀ r ∈ p.regions, r.frame.functionNames.Nodup := fun r member =>
      (names r member).2 (apart r member)
    refine ⟨distinct, ?_⟩
    have opened : ((resolve p).program.annotate (resolve p).scopes).subNames = _ :=
      subNames_annotate clean (resolve p).scopes
    rw [opened]
    exact Program.nodup_functionTexts functions distinct

/-- A program with a function inside a function: no function stands twice, so none is opened
twice. -/
theorem functions_distinct_nested :
    ∃ tokens c p, tokenize nestedSource "nested.spl" = .ok tokens ∧ compileTokens tokens = .ok c ∧
      parse tokens = .ok p ∧ (∀ r ∈ p.regions, r.frame.functionPlaces.Nodup) ∧
      (∀ r ∈ p.regions, r.frame.functionNames.Nodup) ∧ c.program.subNames.Nodup := by
  rcases exists_program_nestedSource with ⟨tokens, p, read, parsed, resolved, checked, _⟩
  have compiled := (compileTokens_of_ok parsed).trans
    (compileProgram_of_clean (List.map_eq_nil_iff.1 resolved) (List.isEmpty_iff.1 checked))
  have apart : ∀ r ∈ p.regions, r.frame.functionPlaces.Nodup := fun r member =>
    (wellNamed_of_parse read parsed).functionDecls_apart member
  rcases functions_distinct_iff compiled with ⟨q, parsed', _, distinct⟩
  rw [parsed] at parsed'
  cases parsed'
  rcases distinct.2 apart with ⟨names, opened⟩
  exact ⟨tokens, _, p, read, compiled, parsed, apart, names, opened⟩

/-- The words of a program that has nothing but functions with empty bodies, by their names. -/
def emptyFunctions (names : List String) : List (TokenKind × String) :=
  [(.keyword .mainWord, "main"), (.keyword .beginWord, "begin"), (.keyword .endWord, "end")]
    ++ names.flatMap fun name =>
      [(.keyword .voidWord, "void"), (.funName, name), (.punctuation .lparen, "("),
        (.varName, "V_a"), (.punctuation .comma, ","), (.varName, "V_b"),
        (.punctuation .comma, ","), (.varName, "V_c"), (.punctuation .rparen, ")"),
        (.punctuation .lbrace, "\x7b"), (.keyword .numWord, "num"), (.varName, "V_x"),
        (.punctuation .comma, ","), (.keyword .numWord, "num"), (.varName, "V_y"),
        (.punctuation .comma, ","), (.keyword .numWord, "num"), (.varName, "V_z"),
        (.punctuation .comma, ","), (.keyword .beginWord, "begin"), (.keyword .endWord, "end"),
        (.punctuation .rbrace, "\x7d"), (.keyword .endWord, "end")]

/-- Two functions of one name, as they come from a source of tokens that does not record places. -/
def duplicateTokens : List Token :=
  (emptyFunctions ["F_f", "F_f"]).map fun (kind, lexeme) => ⟨kind, "t.spl", .start, lexeme⟩

/-- Both functions are taken for the declared one, so nothing is reported and the listing opens one
function twice. -/
theorem duplicate_functions_compiled :
    ∃ c p, compileTokens duplicateTokens = .ok c ∧ parse duplicateTokens = .ok p ∧
      (∃ r ∈ p.regions, r.frame.functionNames = ["F_f", "F_f"] ∧ ¬ r.frame.functionNames.Nodup) ∧
      c.program.subNames = ["f1", "f1"] ∧ ¬ c.program.subNames.Nodup := by
  have compiled : (compileTokens duplicateTokens).toOption.any
      (fun c => c.program.subNames = ["f1", "f1"]) = true := by decide +kernel
  have parsed : (parse duplicateTokens).toOption.any
      (fun p => p.mainRegion.frame.functionNames = ["F_f", "F_f"]) = true := by decide +kernel
  cases listed : compileTokens duplicateTokens with
  | error e =>
    rw [listed] at compiled
    cases compiled
  | ok c =>
    cases read : parse duplicateTokens with
    | error e =>
      rw [read] at parsed
      cases parsed
    | ok p =>
      rw [listed] at compiled
      rw [read] at parsed
      have opened : c.program.subNames = ["f1", "f1"] := of_decide_eq_true compiled
      have names : p.mainRegion.frame.functionNames = ["F_f", "F_f"] := of_decide_eq_true parsed
      refine ⟨c, p, rfl, rfl, ⟨p.mainRegion, List.mem_cons_self, names, ?_⟩, opened, ?_⟩
      · rw [names]
        decide
      · rw [opened]
        decide

end SplBasic
