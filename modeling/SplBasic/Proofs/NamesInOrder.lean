import SplBasic.Proofs.RelabelledCompilation
import SplBasic.Proofs.SymbolArena

/-!
# Unique names in order

In a program without scope problems everything that is declared gets a symbol, so unique names are
numbered without gaps: the `k`-th function in preorder is `fk`, and variables are counted from the
globals on, with six for each function.

* `Program.declarations_of_clean` : all symbols of such a program,
* `Program.map_text_functions` : the unique names of its functions,
* `Program.texts_of_params` : the unique names of their parameters.
-/

namespace SplBasic

/-! ## Slots and their symbols -/

namespace Slot

/-- If nothing is rejected, everything is accepted. -/
theorem accepted_of_rejections {slots : List Slot} {verdicts : List (Option ScopeError)}
    (judged : verdicts.length = slots.length) (none : rejections slots verdicts = []) :
    accepted slots verdicts = slots := by
  induction slots generalizing verdicts with
  | nil => rfl
  | cons slot slots ih =>
    cases verdicts with
    | nil => cases judged
    | cons verdict verdicts =>
      have later := ih (Nat.succ.inj judged)
      cases verdict with
      | some objection => simp [rejections] at none
      | none =>
        simp only [rejections, List.zip_cons_cons, List.filterMap_cons, Option.map_none] at none
        simpa [accepted] using later none

/-- Declarations stand where their slots do. -/
theorem map_pos_declarations (id number : Nat) (slots : List Slot) :
    ((declarations id number slots).map fun d => d.symbol.pos) = slots.map Slot.pos := by
  induction slots generalizing id number with
  | nil => rfl
  | cons slot slots ih => rw [declarations, List.map_cons, List.map_cons, ih, declaration]

/-- Slots of one kind get the numbers of a row. -/
theorem map_unique_declarations {kind : SymbolKind} {slots : List Slot}
    (kinds : ∀ slot ∈ slots, slot.kind = kind) (id number : Nat) :
    ((declarations id number slots).map fun d => d.symbol.unique) =
      (List.range' number slots.length).map kind.numberedName := by
  induction slots generalizing id number with
  | nil => rfl
  | cons slot slots ih =>
    rcases List.forall_mem_cons.1 kinds with ⟨here, later⟩
    calc ((declarations id number (slot :: slots)).map fun d => d.symbol.unique)
        = slot.kind.numberedName number
            :: (declarations (id + 1) (number + 1) slots).map fun d => d.symbol.unique := rfl
      _ = kind.numberedName number
            :: (List.range' (number + 1) slots.length).map kind.numberedName := by
          rw [here, ih later]
      _ = (List.range' number (slot :: slots).length).map kind.numberedName := by
          rw [List.length_cons, List.range'_succ, List.map_cons]

end Slot

namespace Forest

/-- The functions that get a symbol are some of the functions, in the same order. -/
theorem functionSlots_sublist (forest : Forest FunctionDecl) (seen : List String)
    (outer level next : Nat) :
    ((forest.functionSlots seen outer level next).map Slot.pos).Sublist
      (forest.toList.map fun f => f.name.pos) := by
  induction forest generalizing seen outer level next with
  | nil => exact .slnil
  | cons f inner rest ihInner ihRest =>
    have below := (ihInner [] next (level + 1) (next + 1)).append
      (ihRest (f.name.source :: seen) outer level (next + 1 + inner.size))
    simp only [functionSlots, toList, List.map_cons, List.map_append, List.append_assoc]
    by_cases again : f.name.source ∈ seen
    · simpa [again] using below.cons f.name.pos
    · simpa [again] using below.cons_cons f.name.pos

/-- The slots of variables stand at the names, in preorder. -/
theorem map_pos_variableSlots (forest : Forest FunctionDecl) (level next : Nat) :
    (forest.variableSlots level next).map Slot.pos =
      (forest.toList.flatMap fun f => f.entries.map Prod.fst).map Name.pos := by
  induction forest generalizing level next with
  | nil => rfl
  | cons f inner rest ihInner ihRest =>
    simp only [variableSlots, toList, List.map_append, List.flatMap_cons, List.flatMap_append,
      ihInner, ihRest, List.map_map, List.append_assoc]
    rfl

end Forest

namespace Program

variable {p : Program}

/-- The declared variables in the order of their declaration. -/
def variableNames (p : Program) : List Name :=
  p.globals.map VarDecl.name ++ p.functions.toList.flatMap fun f => f.entries.map Prod.fst

/-- So do all slots of variables. -/
theorem map_pos_variableSlots (p : Program) :
    p.variableSlots.map Slot.pos = p.variableNames.map Name.pos := by
  rw [variableSlots, variableNames, List.map_append, List.map_append, Forest.map_pos_variableSlots]
  simp [Slot.ofVariable, VarDecl.entry, Function.comp_def]

theorem kind_of_mem_variableSlots {slot : Slot} (member : slot ∈ p.variableSlots) :
    slot.kind = .variable := by
  have inside (forest : Forest FunctionDecl) {level next : Nat}
      (listed : slot ∈ forest.variableSlots level next) : slot.kind = .variable := by
    induction forest generalizing level next with
    | nil => cases listed
    | cons f inner rest ihInner ihRest =>
      simp only [Forest.variableSlots, List.mem_append, List.mem_map] at listed
      rcases listed with (⟨entry, _, rfl⟩ | below) | behind
      · rfl
      · exact ihInner below
      · exact ihRest behind
  rcases List.mem_append.1 member with isGlobal | inFunction
  · rcases List.mem_map.1 isGlobal with ⟨entry, _, rfl⟩
    rfl
  · exact inside p.functions inFunction

/-! ## Symbols of programs without problems -/

theorem kind_of_mem_functionSlots {slot : Slot} (member : slot ∈ p.functionSlots) :
    slot.kind = .function :=
  (Forest.scope_of_mem_functionSlots member).2

/-- All variables get a symbol. -/
theorem declarations_of_clean (clean : p.scopeProblems p.scopeTree = []) :
    p.scopeTree.declarations.reverse =
      Slot.declarations 0 1 p.functionSlots
        ++ Slot.declarations p.functionSlots.length 1 p.variableSlots := by
  have none : Slot.rejections p.variableSlots (p.hoisted.verdicts p.variableSites) = [] := by
    rw [p.rejections_variableSlots p.scopeTree, clean]
    rfl
  rw [p.declarations_scopeTree, Slot.accepted_of_rejections p.length_verdicts none]

/-- No two declared names stand at one place. -/
theorem places_apart (named : p.WellNamed) :
    ((p.functions.toList.map fun f => f.name.pos) ++ p.variableNames.map Name.pos).Nodup := by
  have inOrder : (((p.placed.toList.map fun f => f.value.name.pos)
      ++ (p.globals.map VarDecl.entry).map fun entry => entry.1.pos)
      ++ p.placed.toList.flatMap fun f => f.value.entries.map fun entry => entry.1.pos) =
      (p.functions.toList.map fun f => f.name.pos) ++ p.variableNames.map Name.pos := by
    simp [variableNames, ← p.functions.map_value_place 0 1, List.map_flatMap, List.flatMap_map,
      Function.comp_def, VarDecl.entry, placed]
  rw [← inOrder]
  exact p.places_perm.nodup_iff.2 named.declared_apart

/-- All functions get a symbol. -/
theorem map_pos_functionSlots (named : p.WellNamed) (clean : p.scopeProblems p.scopeTree = []) :
    p.functionSlots.map Slot.pos = p.functions.toList.map fun f => f.name.pos := by
  rcases List.nodup_append.1 (places_apart named) with ⟨distinct, _, notVariable⟩
  rcases scopeProblems_eq_nil_iff.1 clean with ⟨_, functions, _⟩
  -- each function has a symbol at its place, and that is not the symbol of a variable
  have covered : (p.functions.toList.map fun f => f.name.pos) ⊆ p.functionSlots.map Slot.pos := by
    intro pos isPlace
    rcases List.mem_map.1 isPlace with ⟨f, isFunction, rfl⟩
    rw [← p.functions.map_value_place 0 1] at isFunction
    rcases List.mem_map.1 isFunction with ⟨f, isPlaced, rfl⟩
    have isSome := (ScopeTree.functionObjection_eq_none_iff.1 (functions f isPlaced)).1
    rcases Option.isSome_iff_exists.1 isSome with ⟨d, isEntry⟩
    rcases Option.filter_eq_some_iff.1 isEntry with ⟨found, samePlace⟩
    have place : d.symbol.pos = f.value.name.pos := of_decide_eq_true samePlace
    have declared : d ∈ p.scopeTree.declarations.reverse :=
      List.mem_reverse.2 (List.mem_of_find?_eq_some found)
    rw [declarations_of_clean clean, List.mem_append] at declared
    rcases declared with hasSlot | isVariable
    · rw [← place, ← Slot.map_pos_declarations 0 1]
      exact List.mem_map_of_mem hasSlot
    · have listed := List.mem_map_of_mem (f := fun d : Declaration => d.symbol.pos) isVariable
      rw [Slot.map_pos_declarations, map_pos_variableSlots, place] at listed
      exact absurd rfl (notVariable _ isPlace _ listed)
  exact (p.functions.functionSlots_sublist [] 0 0 1).eq_of_length_le
    (List.subperm_of_subset distinct covered).length_le

/-! ## Texts of declared names -/

/-- Declared names have the unique names of the symbols at their places. -/
theorem map_text_of_places (named : p.WellNamed) (clean : p.scopeProblems p.scopeTree = [])
    {names : List Name} (declared : ∀ n ∈ names, n ∈ (p.bindNames p.scopeTree).declaredNames)
    {ds : List Declaration} (listed : ∀ d ∈ ds, d ∈ p.scopeTree.declarations)
    (same : names.map Name.pos = ds.map fun d => d.symbol.pos) :
    names.map Name.text = ds.map fun d => d.symbol.unique := by
  rcases scopeProblems_eq_nil_iff.1 clean with ⟨fit, functions, _⟩
  induction names generalizing ds with
  | nil =>
    cases ds with
    | nil => rfl
    | cons d ds => cases same
  | cons n names ih =>
    cases ds with
    | nil => cases same
    | cons d ds =>
      rcases List.forall_mem_cons.1 declared with ⟨here, later⟩
      rcases List.forall_mem_cons.1 listed with ⟨isSymbol, others⟩
      rw [List.map_cons, List.map_cons, List.cons.injEq] at same
      rcases settles_declared fit functions here with ⟨e, isSymbol', text, name, _, binder, place⟩
      -- `n` was settled as some symbol `e`; no two symbols share a place, so `e` is `d`
      have token : n.token = name.token := Option.some.inj binder
      have samePlace : e.symbol.pos = d.symbol.pos := by
        rw [← place, ← same.1, Name.pos, Name.pos, token]
      rw [List.map_cons, List.map_cons, ih later others same.2,
        show n.text = e.symbol.unique from text,
        declaration_eq_of_pos named isSymbol' isSymbol samePlace]

/-- Binding keeps the tokens of function names. -/
theorem tokens_functionNames_bindNames (tree : ScopeTree) (p : Program) :
    ((p.bindNames tree).functions.toList.map FunctionDecl.name).map Name.token =
      (p.functions.toList.map FunctionDecl.name).map Name.token := by
  have kept := tokens_functions_bindNames tree p (fun f => [f.name]) fun before f => by
    simp [ScopeTree.bindDecl]
  rwa [← List.map_eq_flatMap, ← List.map_eq_flatMap] at kept

/-- The symbols of functions stay in the tree. -/
theorem functionSymbols_subset (clean : p.scopeProblems p.scopeTree = []) :
    ∀ d ∈ Slot.declarations 0 1 p.functionSlots, d ∈ p.scopeTree.declarations := by
  intro d listed
  rw [← List.mem_reverse, declarations_of_clean clean]
  exact List.mem_append_left _ listed

/-- Functions are numbered from one, in preorder. -/
theorem map_unique_functions (named : p.WellNamed) (clean : p.scopeProblems p.scopeTree = []) :
    ((Slot.declarations 0 1 p.functionSlots).map fun d => d.symbol.unique) =
      (List.range' 1 p.functions.size).map SymbolKind.function.numberedName := by
  have length : p.functionSlots.length = p.functions.size := by
    have lengths := congrArg List.length (map_pos_functionSlots named clean)
    simpa using lengths
  rw [Slot.map_unique_declarations fun slot => kind_of_mem_functionSlots, length]

/-- The functions of a program without problems are `f1`, `f2`, … in preorder. -/
theorem map_text_functions (named : p.WellNamed) (clean : p.scopeProblems p.scopeTree = []) :
    ((p.bindNames p.scopeTree).functions.toList.map fun f => f.name.text) =
      (List.range' 1 p.functions.size).map SymbolKind.function.numberedName := by
  let names := (p.bindNames p.scopeTree).functions.toList.map FunctionDecl.name
  have declared : ∀ n ∈ names, n ∈ (p.bindNames p.scopeTree).declaredNames :=
    fun n member => (functionNames_sublist _).subset member
  -- a text is found by its place, and functions stand at the places of their slots
  have places : names.map Name.pos =
      (Slot.declarations 0 1 p.functionSlots).map fun d => d.symbol.pos := by
    rw [Slot.map_pos_declarations, map_pos_functionSlots named clean]
    calc names.map Name.pos
        = (names.map Name.token).map Token.pos := List.map_map.symm
      _ = ((p.functions.toList.map FunctionDecl.name).map Name.token).map Token.pos := by
          rw [tokens_functionNames_bindNames]
      _ = p.functions.toList.map fun f => f.name.pos := by
          rw [List.map_map, List.map_map]
          rfl
  calc (p.bindNames p.scopeTree).functions.toList.map (fun f => f.name.text)
      = names.map Name.text := List.map_map.symm
    _ = (Slot.declarations 0 1 p.functionSlots).map fun d => d.symbol.unique :=
        map_text_of_places named clean declared (functionSymbols_subset clean) places
    _ = (List.range' 1 p.functions.size).map SymbolKind.function.numberedName :=
        map_unique_functions named clean

/-- The unique name of a function tells where it stands in preorder. -/
theorem text_of_function (named : p.WellNamed) (clean : p.scopeProblems p.scopeTree = []) {k : Nat}
    {f : FunctionDecl} (found : (p.bindNames p.scopeTree).functions.toList[k]? = some f) :
    f.name.text = SymbolKind.function.numberedName (k + 1) := by
  have texts := congrArg (fun texts => texts[k]?) (map_text_functions named clean)
  simp only [List.getElem?_map, found, Option.map_some] at texts
  rcases Option.map_eq_some_iff.1 texts.symm with ⟨number, isNumber, text⟩
  rcases List.getElem?_eq_some_iff.1 isNumber with ⟨_, rfl⟩
  rw [← text, List.getElem_range', Nat.one_mul, Nat.add_comm]

/-- The variables of a program without problems are `v1`, `v2`, … in the order of their
declaration. -/
theorem map_text_variables (named : p.WellNamed) (clean : p.scopeProblems p.scopeTree = []) :
    (p.bindNames p.scopeTree).variableNames.map Name.text =
      (List.range' 1 p.variableNames.length).map SymbolKind.variable.numberedName := by
  -- nothing was rejected, so there is a symbol for every variable
  let ds := Slot.declarations p.functionSlots.length 1 p.variableSlots
  have declared : ∀ n ∈ (p.bindNames p.scopeTree).variableNames,
      n ∈ (p.bindNames p.scopeTree).declaredNames := by
    intro n member
    rcases List.mem_append.1 member with isGlobal | inFunction
    · exact List.mem_append_left _ isGlobal
    · rcases List.mem_flatMap.1 inFunction with ⟨f, isFunction, listed⟩
      exact List.mem_append_right _
        (List.mem_flatMap.2 ⟨f, isFunction, List.mem_cons_of_mem _ listed⟩)
  have listed : ∀ d ∈ ds, d ∈ p.scopeTree.declarations := by
    intro d isSymbol
    rw [← List.mem_reverse, declarations_of_clean clean]
    exact List.mem_append_right _ isSymbol
  have tokens : (p.bindNames p.scopeTree).variableNames.map Name.token =
      p.variableNames.map Name.token := by
    rw [variableNames, variableNames, List.map_append, List.map_append, tokens_globals_bindNames,
      tokens_functions_bindNames]
    exact fun before f => ScopeTree.tokens_variables_bindDecl _ before f
  have places : (p.bindNames p.scopeTree).variableNames.map Name.pos =
      ds.map fun d => d.symbol.pos := by
    calc (p.bindNames p.scopeTree).variableNames.map Name.pos
        = ((p.bindNames p.scopeTree).variableNames.map Name.token).map Token.pos :=
          List.map_map.symm
      _ = (p.variableNames.map Name.token).map Token.pos := by rw [tokens]
      _ = p.variableNames.map Name.pos := List.map_map
      _ = p.variableSlots.map Slot.pos := p.map_pos_variableSlots.symm
      _ = ds.map fun d => d.symbol.pos := (Slot.map_pos_declarations _ _ _).symm
  have length : p.variableSlots.length = p.variableNames.length := by
    have lengths := congrArg List.length p.map_pos_variableSlots
    simpa using lengths
  calc (p.bindNames p.scopeTree).variableNames.map Name.text
      = ds.map fun d => d.symbol.unique :=
        map_text_of_places named clean declared listed places
    _ = (List.range' 1 p.variableSlots.length).map SymbolKind.variable.numberedName :=
        Slot.map_unique_declarations (fun slot => kind_of_mem_variableSlots) _ _
    _ = (List.range' 1 p.variableNames.length).map SymbolKind.variable.numberedName := by
        rw [length]

/-! ## Numbering by function -/

/-- Three variables with consecutive numbers. -/
def variableTriple (first : Nat) : Triple String :=
  ⟨SymbolKind.variable.numberedName first, SymbolKind.variable.numberedName (first + 1),
    SymbolKind.variable.numberedName (first + 2)⟩

/-- If the variables of functions are numbered one after the other, six for each function, then the
parameters have the first three numbers of their function. -/
theorem texts_of_numbered {fs : List FunctionDecl} {first : Nat}
    (numbered : (fs.flatMap fun f => f.entries.map Prod.fst).map Name.text =
      (List.range' first (6 * fs.length)).map SymbolKind.variable.numberedName) {k : Nat}
    {f : FunctionDecl} (found : fs[k]? = some f) :
    f.params.map Name.text = variableTriple (first + 6 * k) := by
  induction fs generalizing first k with
  | nil => cases found
  | cons g fs ih =>
    have six : 6 * (g :: fs).length = 6 + 6 * fs.length := by
      rw [List.length_cons]
      omega
    rw [List.flatMap_cons, List.map_append, six, ← List.range'_append_1,
      List.map_append] at numbered
    -- the first six numbers are those of the first function
    rcases List.append_inj numbered (by simp [FunctionDecl.entries, Triple.toList]) with
      ⟨here, later⟩
    cases k with
    | zero =>
      cases found
      simp only [FunctionDecl.entries, Triple.toList, List.map_cons, List.map_nil, List.cons_append,
        List.nil_append, List.range', List.cons.injEq] at here
      rcases here with ⟨first', second', third', _⟩
      simp [Triple.map, variableTriple, first', second', third']
    | succ k =>
      rw [ih later found]
      congr 1
      omega

/-- Each function has three parameters and three local variables. -/
theorem length_variableNames (p : Program) :
    p.variableNames.length = p.globals.length + 6 * p.functions.size := by
  have each (fs : List FunctionDecl) :
      (fs.flatMap fun f => f.entries.map Prod.fst).length = 6 * fs.length := by
    induction fs with
    | nil => rfl
    | cons f fs ih =>
      rw [List.flatMap_cons, List.length_append, ih, List.length_cons]
      simp only [FunctionDecl.entries, Triple.toList, List.length_map, List.length_append,
        List.length_cons, List.length_nil]
      omega
  rw [variableNames, List.length_append, List.length_map, each, Forest.length_toList]

/-- The parameters of the `k`-th function of a program without problems, counted from 0. -/
theorem texts_of_params (named : p.WellNamed) (clean : p.scopeProblems p.scopeTree = []) {k : Nat}
    {f : FunctionDecl} (found : (p.bindNames p.scopeTree).functions.toList[k]? = some f) :
    f.params.map Name.text = variableTriple (p.globals.length + 6 * k + 1) := by
  let q := p.bindNames p.scopeTree
  have globals : (q.globals.map VarDecl.name).length = p.globals.length := by
    have lengths := congrArg List.length (tokens_globals_bindNames p.scopeTree p)
    simpa using lengths
  have functions : p.functions.size = q.functions.toList.length := by
    have lengths := congrArg List.length (map_text_functions named clean)
    simpa using lengths.symm
  have numbered := map_text_variables named clean
  -- the globals have the first numbers
  rw [length_variableNames, ← List.range'_append_1, List.map_append, variableNames, List.map_append,
    functions] at numbered
  have behind := (List.append_inj numbered (by simpa using globals)).2
  rw [texts_of_numbered behind found]
  congr 1
  omega

end Program

end SplBasic
