import SplBasic.Proofs.Relabelling
import SplBasic.Proofs.Renaming

/-!
# Resolving a relabelled program

Resolving only ever compares names with each other, with the words of the language and across their
marks, and these comparisons come out the same behind a relabelling. So resolving a relabelled
program is relabelling the resolved one (`resolve_relabel`): scopes, unique names, renamed program
and problems correspond one for one.
-/

namespace SplBasic

/-! ## Walks that correspond -/

section Walks

variable {α β σ τ : Type} {h : σ → τ} {r : α → β} {step : σ → α → σ} {step' : τ → β → τ}

/-- Folding commutes with relabelling if every single step does. -/
theorem foldl_commutes (xs : List α) (commutes : ∀ x ∈ xs, ∀ s, step' (h s) (r x) = h (step s x))
    (s : σ) : (xs.map r).foldl step' (h s) = h (xs.foldl step s) := by
  induction xs generalizing s with
  | nil => rfl
  | cons x xs ih =>
    rw [List.map_cons, List.foldl_cons, List.foldl_cons, commutes x List.mem_cons_self]
    exact ih (fun y member => commutes y (List.mem_cons_of_mem x member)) _

/-- Both walks come through corresponding states. -/
theorem along_commutes (xs : List α) (commutes : ∀ x ∈ xs, ∀ s, step' (h s) (r x) = h (step s x))
    (s : σ) : along step' (h s) (xs.map r) = (along step s xs).map (Prod.map h r) := by
  induction xs generalizing s with
  | nil => rfl
  | cons x xs ih =>
    calc along step' (h s) ((x :: xs).map r)
        = (h s, r x) :: along step' (step' (h s) (r x)) (xs.map r) := rfl
      _ = (h s, r x) :: along step' (h (step s x)) (xs.map r) := by
          rw [commutes x List.mem_cons_self]
      _ = (h s, r x) :: (along step (step s x) xs).map (Prod.map h r) := by
          rw [ih fun y member => commutes y (List.mem_cons_of_mem x member)]
      _ = (along step s (x :: xs)).map (Prod.map h r) := rfl

/-- A walk over a forest commutes with relabelling if every single step does. -/
theorem Forest.walk_commutes (f : Forest α)
    (commutes : ∀ x ∈ f.toList, ∀ s, step' (h s) (r x) = h (step s x)) (s : σ) :
    (f.map r).walk step' (h s) =
      (h (f.walk step s).1, (f.walk step s).2.map (Prod.map h r)) := by
  induction f generalizing s with
  | nil => rfl
  | cons root children rest ihChildren ihRest =>
    simp only [Forest.toList, List.mem_cons, List.mem_append] at commutes
    simp only [Forest.map, Forest.walk, commutes root (.inl rfl),
      ihChildren fun x member => commutes x (.inr (.inl member)),
      ihRest fun x member => commutes x (.inr (.inr member)), Prod.map]

theorem Forest.along_commutes (f : Forest α)
    (commutes : ∀ x ∈ f.toList, ∀ s, step' (h s) (r x) = h (step s x)) (s : σ) :
    (f.map r).along step' (h s) = (f.along step s).map (Prod.map h r) := by
  rw [Forest.along, f.walk_commutes commutes s]
  rfl

/-- What is made of each of three things and the state it is reached in. -/
theorem Triple.along_commutes {γ δ : Type} {out : σ × α → γ} {out' : τ × β → δ} {q : γ → δ}
    (t : Triple α) (commutes : ∀ x ∈ t.toList, ∀ s, step' (h s) (r x) = h (step s x))
    (outs : ∀ x ∈ t.toList, ∀ s, out' (h s, r x) = q (out (s, x))) (s : σ) :
    ((t.map r).along step' (h s)).map out' = ((t.along step s).map out).map q := by
  simp only [Triple.toList, List.mem_cons, List.not_mem_nil, or_false, forall_eq_or_imp,
    forall_eq] at commutes outs
  simp only [Triple.map, Triple.along, commutes, outs]

end Walks

/-! ## Scope trees -/

section

variable (ρ : Relabelling)

def Symbol.relabel (s : Symbol) : Symbol :=
  { s with name := ρ.spell s.name, unique := ρ.spell s.unique, pos := ρ.place s.pos }

def Declaration.relabel (d : Declaration) : Declaration :=
  { d with symbol := d.symbol.relabel ρ }

def Scope.relabel (s : Scope) : Scope :=
  { s with name := ρ.spell s.name }

namespace ScopeTree

def relabel (tree : ScopeTree) : ScopeTree :=
  ⟨tree.scopes.map (Scope.relabel ρ), tree.declarations.map (Declaration.relabel ρ)⟩

variable (tree : ScopeTree)

/-- Scopes keep their numbers. -/
theorem scope?_relabel (scope : Nat) :
    (tree.relabel ρ).scope? scope = (tree.scope? scope).map (Scope.relabel ρ) := by
  rw [scope?, relabel, List.find?_map]
  rfl

theorem level_relabel (scope : Nat) : (tree.relabel ρ).level scope = tree.level scope := by
  rw [level, scope?_relabel, level]
  cases tree.scope? scope with
  | none => rfl
  | some s => rfl

theorem addScope_relabel (parent : Nat) (name : String) :
    ((tree.relabel ρ).addScope parent (ρ.spell name)).2 =
      (tree.addScope parent name).2.relabel ρ := by
  rw [addScope, level_relabel]
  simp [addScope, relabel, Scope.relabel]

/-- Parents keep their numbers, so the chain passes through the same scopes. -/
theorem scopeChain_map (scopes : List Scope) (scope : Nat) :
    scopeChain (scopes.map (Scope.relabel ρ)) scope =
      (scopeChain scopes scope).map (Scope.relabel ρ) := by
  induction scopes generalizing scope with
  | nil => rfl
  | cons newest older ih =>
    simp only [List.map_cons, scopeChain]
    rw [show (newest.relabel ρ).id = newest.id from rfl,
      show (newest.relabel ρ).parent = newest.parent from rfl]
    split
    · cases newest.parent with
      | none => rfl
      | some parent => rw [List.map_cons, ← ih parent]
    · exact ih scope

theorem chain_relabel (scope : Nat) :
    (tree.relabel ρ).chain scope = (tree.chain scope).map (Scope.relabel ρ) :=
  scopeChain_map ρ tree.scopes scope

theorem declare_relabel (scope : Nat) (symbol : Symbol) :
    ((tree.relabel ρ).declare scope (symbol.relabel ρ)).2 =
      (tree.declare scope symbol).2.relabel ρ := by
  simp [declare, relabel, Declaration.relabel]

/-- Unique names are counted by kind, and kinds stay as they are. -/
theorem count_relabel (kind : SymbolKind) : (tree.relabel ρ).count kind = tree.count kind := by
  rw [count, relabel, List.countP_map]
  rfl

/-- Spellings stay apart, so a scope finds a name again under its new spelling. -/
theorem lookupLocal_relabel (scope : Nat) (name : String) :
    (tree.relabel ρ).lookupLocal scope (ρ.spell name) =
      (tree.lookupLocal scope name).map (Declaration.relabel ρ) := by
  rw [lookupLocal, relabel, List.find?_map, lookupLocal]
  congr 2
  funext d
  have sameName : decide (ρ.spell d.symbol.name = ρ.spell name) = decide (d.symbol.name = name) :=
    decide_eq_decide.2 ρ.spell_inj
  exact congrArg (decide (d.scope = scope) && ·) sameName

/-- Looking up climbs the same chain and stops at the same scope. -/
theorem lookup_relabel (scope : Nat) (name : String) :
    (tree.relabel ρ).lookup scope (ρ.spell name) =
      (tree.lookup scope name).map (Declaration.relabel ρ) := by
  -- scope by scope along the chain
  have single : (fun s => (tree.relabel ρ).lookupLocal s.id (ρ.spell name)) ∘ Scope.relabel ρ =
      Option.map (Declaration.relabel ρ) ∘ fun s => tree.lookupLocal s.id name :=
    funext fun s => tree.lookupLocal_relabel ρ s.id name
  calc (tree.relabel ρ).lookup scope (ρ.spell name)
      = (tree.chain scope).findSome?
          ((fun s => (tree.relabel ρ).lookupLocal s.id (ρ.spell name)) ∘ Scope.relabel ρ) := by
        rw [lookup_eq_findSome?, chain_relabel, List.findSome?_map]
    _ = ((tree.chain scope).findSome? fun s => tree.lookupLocal s.id name).map
          (Declaration.relabel ρ) := by
        rw [single, List.map_findSome?]
    _ = (tree.lookup scope name).map (Declaration.relabel ρ) := by rw [lookup_eq_findSome?]

theorem lookupKind_relabel (kind : SymbolKind) (scope : Nat) (name : String) :
    (tree.relabel ρ).lookupKind kind scope (ρ.spell name) =
      (tree.lookupKind kind scope name).map (Declaration.relabel ρ) := by
  rw [lookupKind, lookup_relabel, Option.filter_map, lookupKind]
  rfl

/-- Unique names are found again as they are spelt now. -/
theorem byUnique?_relabel (unique : String) :
    (tree.relabel ρ).byUnique? (ρ.spell unique) =
      (tree.byUnique? unique).map (Declaration.relabel ρ) := by
  rw [byUnique?, relabel, List.find?_map, byUnique?]
  congr 2
  funext d
  simp [Declaration.relabel, Symbol.relabel]

/-- The global scope is not named by a program. -/
theorem initial_relabel : initial.relabel ρ = initial := by
  have unmarked : Unmarked "global" := by
    intro kind bare same
    have chars := congrArg String.toList same
    cases kind with
    | «variable» => simp [SymbolKind.mark] at chars
    | function => simp [SymbolKind.mark] at chars
  simp [relabel, initial, Scope.relabel, ρ.spell_unmarked unmarked]

/-- Unique names have no mark. -/
theorem unmarked_numberedName (kind : SymbolKind) (number : Nat) :
    Unmarked (kind.numberedName number) := by
  intro kind' bare same
  have chars := congrArg String.toList same
  -- the letters of unique names are small, the letters of marks are not
  cases kind with
  | «variable» =>
    cases kind' with
    | «variable» => simp [SymbolKind.numberedName, SymbolKind.letter, SymbolKind.mark] at chars
    | function => simp [SymbolKind.numberedName, SymbolKind.letter, SymbolKind.mark] at chars
  | function =>
    cases kind' with
    | «variable» => simp [SymbolKind.numberedName, SymbolKind.letter, SymbolKind.mark] at chars
    | function => simp [SymbolKind.numberedName, SymbolKind.letter, SymbolKind.mark] at chars

/-- Unique names have no mark, so relabelling leaves them alone. -/
theorem spell_numberedName (kind : SymbolKind) (number : Nat) :
    ρ.spell (kind.numberedName number) = kind.numberedName number :=
  ρ.spell_unmarked (unmarked_numberedName kind number)

end ScopeTree

/-! ## Declaring names -/

/-- The error with other names in it. -/
def ScopeError.mapNames (f : String → String) : ScopeError → ScopeError
  | variableRedeclared name => variableRedeclared (f name)
  | reservedVariableName name => reservedVariableName (f name)
  | variableClashesWithFunction name other => variableClashesWithFunction (f name) (f other)
  | functionRedeclared name => functionRedeclared (f name)
  | reservedFunctionName name => reservedFunctionName (f name)
  | functionClashesWithVariable name other => functionClashesWithVariable (f name) (f other)
  | functionNamedAfterParent name => functionNamedAfterParent (f name)
  | undeclaredVariable name => undeclaredVariable (f name)
  | undeclaredFunction name => undeclaredFunction (f name)
  | recursiveMain => recursiveMain

/-- A located error with its place and the names in it changed. -/
def Located.relabel {α : Type} (mapNames : (String → String) → α → α) (l : Located α) : Located α :=
  ⟨mapNames ρ.spell l.cause, ρ.place l.pos⟩

def Placed.relabel (f : Placed FunctionDecl) : Placed FunctionDecl :=
  ⟨f.own, f.outer, f.value.map ρ.change⟩

/-- A function is recognised by its place. So the declaration that its name is looked up as may get
the place of the function only if it has that place already. -/
def Relabelling.Apart (tree : ScopeTree) (outer : Nat) (name : Name) : Prop :=
  ∀ d, tree.lookupLocal outer name.source = some d →
    ρ.place d.symbol.pos = ρ.place name.pos → d.symbol.pos = name.pos

def relabelEntry (entry : Name × ValueType) : Name × ValueType :=
  (entry.1.relabel ρ, entry.2)

namespace ScopeTree

variable {ρ} (tree : ScopeTree)

theorem nextFunctionName_relabel : (tree.relabel ρ).nextFunctionName = tree.nextFunctionName := by
  rw [nextFunctionName, count_relabel, nextFunctionName]

theorem nextVariableName_relabel : (tree.relabel ρ).nextVariableName = tree.nextVariableName := by
  rw [nextVariableName, count_relabel, nextVariableName]

theorem spell_nextFunctionName : ρ.spell tree.nextFunctionName = tree.nextFunctionName :=
  spell_numberedName ρ .function _

theorem spell_nextVariableName : ρ.spell tree.nextVariableName = tree.nextVariableName :=
  spell_numberedName ρ .variable _

/-- Hoisting a function and relabelling it commute. -/
theorem hoist_relabel (f : Placed FunctionDecl) :
    (tree.relabel ρ).hoist (f.relabel ρ) = (tree.hoist f).relabel ρ := by
  simp only [hoist, Placed.relabel, FunctionDecl.map, Relabelling.change, Name.source_relabel,
    Name.pos_relabel, addScope_relabel, lookupLocal_relabel, Option.isSome_map, level_relabel,
    nextFunctionName_relabel]
  split
  · rfl
  · rw [← declare_relabel]
    simp only [Symbol.relabel, spell_nextFunctionName]

/-- The same speaks against a relabelled variable, told with the new spellings. -/
theorem variableObjection_relabel (scope : Nat) {name : Name} (fits : ρ.Fits name.source) :
    (tree.relabel ρ).variableObjection scope (name.relabel ρ) =
      (tree.variableObjection scope name).map (ScopeError.mapNames ρ.spell) := by
  -- the name is looked up among functions by exchanging its mark
  have counterpart : "F_" ++ (name.relabel ρ).bare = ρ.spell ("F_" ++ name.bare) :=
    (fits .function).symm
  have reserved : isReserved (name.relabel ρ).bare = isReserved name.bare :=
    ρ.isReserved_spell name.source
  simp only [variableObjection, Name.source_relabel, lookupLocal_relabel, Option.isSome_map,
    reserved, counterpart, lookupFunction, lookupKind_relabel, Option.map_map]
  split
  · rfl
  · split
    · rfl
    · rw [Option.map_map]
      rfl

/-- Declaring a variable and relabelling it commute. -/
theorem declareVariable_relabel (scope : Nat) (entry : Name × ValueType)
    (fits : ρ.Fits entry.1.source) :
    (tree.relabel ρ).declareVariable scope (relabelEntry ρ entry) =
      (tree.declareVariable scope entry).relabel ρ := by
  simp only [declareVariable, relabelEntry, tree.variableObjection_relabel scope fits,
    Option.isSome_map, Name.source_relabel, Name.pos_relabel, level_relabel,
    nextVariableName_relabel]
  split
  · rfl
  · rw [← declare_relabel]
    simp only [Symbol.relabel, spell_nextVariableName]

/-- A relabelled variable is settled as the same symbol. -/
theorem settleVariable_relabel (scope : Nat) {name : Name} (fits : ρ.Fits name.source) :
    (tree.relabel ρ).settleVariable scope (name.relabel ρ) =
      (tree.settleVariable scope name).relabel ρ := by
  simp only [settleVariable, tree.variableObjection_relabel scope fits, Option.isSome_map,
    nextVariableName_relabel]
  split
  · rfl
  · simp only [Name.relabel, spell_nextVariableName]

/-- The problems with the variables of one scope correspond one by one. -/
theorem variableProblems_relabel (scope : Nat) {entries : List (Name × ValueType)}
    (fits : ∀ entry ∈ entries, ρ.Fits entry.1.source) :
    (tree.relabel ρ).variableProblems scope (entries.map (relabelEntry ρ)) =
      (tree.variableProblems scope entries).map (Located.relabel ρ ScopeError.mapNames) := by
  rw [variableProblems, along_commutes entries
    (fun entry member tree => tree.declareVariable_relabel scope entry (fits entry member)) tree,
    List.filterMap_map, variableProblems, List.map_filterMap]
  apply List.filterMap_congr
  intro site member
  have objection := site.1.variableObjection_relabel scope (fits site.2 (mem_of_mem_along member))
  simp only [Function.comp, Prod.map, relabelEntry, objection, Name.pos_relabel, Option.map_map]
  rfl

theorem declareVariables_relabel {f : Placed FunctionDecl}
    (fits : ∀ entry ∈ f.value.entries, ρ.Fits entry.1.source) :
    (tree.relabel ρ).declareVariables (f.relabel ρ) = (tree.declareVariables f).relabel ρ := by
  have entries : (f.relabel ρ).value.entries = f.value.entries.map (relabelEntry ρ) := rfl
  rw [declareVariables, entries]
  exact foldl_commutes f.value.entries
    (fun entry member tree => tree.declareVariable_relabel f.own entry (fits entry member)) tree

/-! ## Functions and uses -/

/-- The entry of a function is told by the place of its name, so places must not fall together. -/
theorem functionEntry_relabel {outer : Nat} {name : Name} (apart : ρ.Apart tree outer name) :
    (tree.relabel ρ).functionEntry outer (name.relabel ρ) =
      (tree.functionEntry outer name).map (Declaration.relabel ρ) := by
  rw [functionEntry, Name.source_relabel, lookupLocal_relabel, functionEntry]
  cases found : tree.lookupLocal outer name.source with
  | none => rfl
  | some d =>
    have same : decide ((d.relabel ρ).symbol.pos = (name.relabel ρ).pos) =
        decide (d.symbol.pos = name.pos) := by
      apply decide_eq_decide.2
      rw [Name.pos_relabel]
      exact ⟨apart d found, congrArg ρ.place⟩
    simp only [Option.map_some, Option.filter_some, same]
    split
    · rfl
    · rfl

/-- The same speaks against a relabelled function, told with the new spellings. -/
theorem functionObjection_relabel {outer : Nat} {name : Name} (fits : ρ.Fits name.source)
    (apart : ρ.Apart tree outer name) :
    (tree.relabel ρ).functionObjection outer (name.relabel ρ) =
      (tree.functionObjection outer name).map (ScopeError.mapNames ρ.spell) := by
  -- each of the four questions has the same answer on both sides
  have counterpart : "V_" ++ (name.relabel ρ).bare = ρ.spell ("V_" ++ name.bare) :=
    (fits .variable).symm
  have reserved : isReserved (name.relabel ρ).bare = isReserved name.bare :=
    ρ.isReserved_spell name.source
  have parent : (((tree.relabel ρ).scope? outer).any fun s => s.name = (name.relabel ρ).source) =
      (tree.scope? outer).any fun s => s.name = name.source := by
    rw [scope?_relabel]
    cases tree.scope? outer with
    | none => rfl
    | some s => exact decide_eq_decide.2 ρ.spell_inj
  simp only [functionObjection, tree.functionEntry_relabel apart, Option.isNone_map, reserved,
    counterpart, lookupVariable, lookupKind_relabel, parent]
  split
  · rfl
  · split
    · rfl
    · cases tree.lookupKind .variable outer ("V_" ++ name.bare) with
      | some d => rfl
      | none =>
        simp only [Option.map_none]
        split
        · rfl
        · rfl

theorem bindFunction_relabel {outer : Nat} {name : Name} (apart : ρ.Apart tree outer name) :
    (tree.relabel ρ).bindFunction outer (name.relabel ρ) =
      (tree.bindFunction outer name).relabel ρ := by
  rw [bindFunction, tree.functionEntry_relabel apart, bindFunction]
  cases tree.functionEntry outer name with
  | none => rfl
  | some d => rfl

/-- A relabelled name refers to the relabelled declaration. -/
theorem referent_relabel (scope : Nat) (use : NameUse) :
    (tree.relabel ρ).referent scope (use.relabel ρ) =
      (tree.referent scope use).map (Declaration.relabel ρ) := by
  cases use with
  | «variable» name => exact tree.lookupKind_relabel ρ .variable scope name.source
  | callee name =>
    have main : (name.relabel ρ).bare = "main" ↔ name.bare = "main" := ρ.main_spell name.source
    simp only [NameUse.relabel, NameUse.mapNames, referent, main]
    split
    · rfl
    · exact tree.lookupKind_relabel ρ .function scope name.source

/-- A name that refers to nothing still does so behind relabelling, and for the same reason. -/
theorem useObjection_relabel (scope : Nat) (use : NameUse) :
    (tree.relabel ρ).useObjection scope (use.relabel ρ) =
      (tree.useObjection scope use).map (Located.relabel ρ ScopeError.mapNames) := by
  simp only [useObjection, referent_relabel]
  cases tree.referent scope use with
  | some d => rfl
  | none =>
    cases use with
    | «variable» name =>
      simp only [Option.map_none, NameUse.relabel, NameUse.mapNames, Option.map_some,
        Name.pos_relabel]
      rfl
    | callee name =>
      have main : (name.relabel ρ).bare = "main" ↔ name.bare = "main" := ρ.main_spell name.source
      simp only [Option.map_none, NameUse.relabel, NameUse.mapNames, main, Name.pos_relabel]
      split
      · rfl
      · rfl

theorem bindVariable_relabel (scope : Nat) (name : Name) :
    (tree.relabel ρ).bindVariable scope (name.relabel ρ) =
      (tree.bindVariable scope name).relabel ρ := by
  have found : (tree.relabel ρ).referent scope (.variable (name.relabel ρ)) =
      (tree.referent scope (.variable name)).map (Declaration.relabel ρ) :=
    tree.referent_relabel scope (.variable name)
  rw [bindVariable, found, bindVariable]
  cases tree.referent scope (.variable name) with
  | none => rfl
  | some d => rfl

theorem bindCallee_relabel (scope : Nat) (name : Name) :
    (tree.relabel ρ).bindCallee scope (name.relabel ρ) =
      (tree.bindCallee scope name).relabel ρ := by
  have found : (tree.relabel ρ).referent scope (.callee (name.relabel ρ)) =
      (tree.referent scope (.callee name)).map (Declaration.relabel ρ) :=
    tree.referent_relabel scope (.callee name)
  rw [bindCallee, found, bindCallee]
  cases tree.referent scope (.callee name) with
  | none => rfl
  | some d => rfl

end ScopeTree

end

/-! ## Blocks -/

namespace ScopeTree

variable {ρ : Relabelling} (tree : ScopeTree)

/-- Binding the names of a block and relabelling it commute. -/
theorem bindBlock_relabel (scope : Nat) (block : Block) :
    (tree.relabel ρ).bindBlock scope (block.map ρ.change) =
      (tree.bindBlock scope block).map ρ.change :=
  block.mapNames_map (tree.bindVariable_relabel scope) (tree.bindCallee_relabel scope)

/-- The problems with the names of a block correspond one by one. -/
theorem blockProblems_relabel (scope : Nat) (block : Block) :
    (tree.relabel ρ).blockProblems scope (block.map ρ.change) =
      (tree.blockProblems scope block).map (Located.relabel ρ ScopeError.mapNames) := by
  have uses : (block.map ρ.change).commands.uses = block.commands.uses.map (NameUse.relabel ρ) :=
    block.commands.uses_map ρ.change
  rw [blockProblems, uses, List.filterMap_map, blockProblems, List.map_filterMap]
  apply List.filterMap_congr
  intro use _
  exact tree.useObjection_relabel scope use

/-! ## Declared functions -/

/-- The tree behind the parameters of a function. -/
theorem afterParams_relabel (scope : Nat) {params : Triple Name}
    (fits : ∀ name ∈ params.toList, ρ.Fits name.source) (before : ScopeTree) :
    (params.map (Name.relabel ρ)).toList.foldl
        (fun tree name => tree.declareVariable scope (name, .num)) (before.relabel ρ) =
      (params.toList.foldl (fun tree name => tree.declareVariable scope (name, .num))
        before).relabel ρ :=
  foldl_commutes params.toList
    (fun name isParam tree => tree.declareVariable_relabel scope (name, .num) (fits name isParam))
    before

/-- The parameters of a relabelled function are settled as the same symbols. -/
theorem params_relabel (scope : Nat) {params : Triple Name}
    (fits : ∀ name ∈ params.toList, ρ.Fits name.source) (before : ScopeTree) :
    ((params.map (Name.relabel ρ)).along (fun tree name => tree.declareVariable scope (name, .num))
        (before.relabel ρ)).map (fun site => site.1.settleVariable scope site.2) =
      ((params.along (fun tree name => tree.declareVariable scope (name, .num)) before).map
        fun site => site.1.settleVariable scope site.2).map (Name.relabel ρ) :=
  params.along_commutes
    (fun name isParam tree => tree.declareVariable_relabel scope (name, .num) (fits name isParam))
    (fun name isParam tree => tree.settleVariable_relabel scope (fits name isParam)) before

theorem settle_relabel (scope : Nat) (decl : VarDecl) (fits : ρ.Fits decl.name.source) :
    (decl.map ρ.change).settle scope (tree.relabel ρ) = (decl.settle scope tree).map ρ.change :=
  congrArg (VarDecl.mk (ρ.token decl.typeToken) decl.type) (tree.settleVariable_relabel scope fits)

/-- The local variables of a relabelled function are settled as the same symbols. -/
theorem locals_relabel (scope : Nat) {decls : Triple VarDecl}
    (fits : ∀ decl ∈ decls.toList, ρ.Fits decl.name.source) (before : ScopeTree) :
    ((decls.map (VarDecl.map ρ.change)).along (fun tree decl => tree.declareVariable scope decl.entry)
        (before.relabel ρ)).map (fun site => site.2.settle scope site.1) =
      ((decls.along (fun tree decl => tree.declareVariable scope decl.entry) before).map
        fun site => site.2.settle scope site.1).map (VarDecl.map ρ.change) :=
  decls.along_commutes
    (fun decl isLocal tree => tree.declareVariable_relabel scope decl.entry (fits decl isLocal))
    (fun decl isLocal tree => tree.settle_relabel scope decl (fits decl isLocal)) before

end ScopeTree

/-! ## Programs -/

/-- The declared names of the program can be compared across marks, and its functions can be
recognised by their new places. -/
structure Relabelling.Suits (ρ : Relabelling) (p : Program) : Prop where
  fits : ∀ name ∈ p.declaredNames, ρ.Fits name.source
  apart : ∀ f ∈ p.placed.toList, ρ.Apart p.scopeTree f.outer f.value.name

namespace Program

variable {ρ : Relabelling} {p : Program}

/-- Functions keep their places in the forest, so their scopes keep their numbers. -/
theorem placed_relabel (p : Program) :
    (p.relabel ρ).placed = p.placed.map (Placed.relabel ρ) :=
  Forest.place_map (FunctionDecl.map ρ.change) p.functions 0 1

/-- Hoisting does not look at places or at bare names, so it needs no condition on the program. -/
theorem hoisted_relabel (p : Program) : (p.relabel ρ).hoisted = p.hoisted.relabel ρ := by
  calc (p.relabel ρ).hoisted
      = (p.placed.toList.map (Placed.relabel ρ)).foldl ScopeTree.hoist .initial := by
        rw [hoisted, placed_relabel, Forest.toList_map]
    _ = (p.placed.toList.map (Placed.relabel ρ)).foldl ScopeTree.hoist
          (ScopeTree.initial.relabel ρ) := by
        rw [ScopeTree.initial_relabel]
    _ = p.hoisted.relabel ρ := foldl_commutes _ (fun f _ tree => tree.hoist_relabel f) _

theorem entries_relabel (p : Program) :
    (p.relabel ρ).globals.map VarDecl.entry =
      (p.globals.map VarDecl.entry).map (relabelEntry ρ) := by
  rw [List.map_map]
  exact List.map_map

theorem globals_fit (suits : ρ.Suits p) : ∀ decl ∈ p.globals, ρ.Fits decl.name.source :=
  fun _ isGlobal => suits.fits _ (List.mem_append_left _ (List.mem_map_of_mem isGlobal))

/-- The tree with all global variables. -/
theorem withGlobals_relabel (suits : ρ.Suits p) :
    (p.relabel ρ).withGlobals = p.withGlobals.relabel ρ := by
  rw [withGlobals, entries_relabel, hoisted_relabel, withGlobals]
  refine foldl_commutes _ (fun entry member tree => tree.declareVariable_relabel _ entry ?_) _
  rcases List.mem_map.1 member with ⟨decl, isGlobal, rfl⟩
  exact globals_fit suits decl isGlobal

theorem entries_fit (suits : ρ.Suits p) {f : Placed FunctionDecl} (member : f ∈ p.placed.toList) :
    ∀ entry ∈ f.value.entries, ρ.Fits entry.1.source :=
  fun _ listed => suits.fits _ (mem_declaredNames_of_entry member listed)

/-- The complete tree of a relabelled program is the relabelled tree. -/
theorem scopeTree_relabel (suits : ρ.Suits p) :
    (p.relabel ρ).scopeTree = p.scopeTree.relabel ρ := by
  calc (p.relabel ρ).scopeTree
      = (p.placed.toList.map (Placed.relabel ρ)).foldl ScopeTree.declareVariables
          (p.withGlobals.relabel ρ) := by
        rw [scopeTree, placed_relabel, Forest.toList_map, withGlobals_relabel suits]
    _ = p.scopeTree.relabel ρ := foldl_commutes _
        (fun f member tree => tree.declareVariables_relabel (entries_fit suits member)) _

/-- Each function is reached with the relabelled tree. -/
theorem sites_relabel (suits : ρ.Suits p) :
    (p.relabel ρ).sites = p.sites.map (Prod.map (ScopeTree.relabel ρ) (Placed.relabel ρ)) := by
  rw [sites, placed_relabel, withGlobals_relabel suits, sites]
  exact Forest.along_commutes _
    (fun f member tree => tree.declareVariables_relabel (entries_fit suits member)) _

/-- A function and its body get relabelled names. -/
theorem bindDecl_relabel (suits : ρ.Suits p) (before : ScopeTree) {f : Placed FunctionDecl}
    (member : f ∈ p.placed.toList) :
    (p.scopeTree.relabel ρ).bindDecl (before.relabel ρ) (f.relabel ρ) =
      (p.scopeTree.bindDecl before f).map ρ.change := by
  have fits := entries_fit suits member
  have paramFits : ∀ name ∈ f.value.params.toList, ρ.Fits name.source := by
    intro name isParam
    exact fits (name, .num) (List.mem_append_left _ (List.mem_map_of_mem isParam))
  have localFits : ∀ decl ∈ f.value.locals.toList, ρ.Fits decl.name.source := by
    intro decl isLocal
    exact fits decl.entry (List.mem_append_right _ (List.mem_map_of_mem isLocal))
  have params := ScopeTree.params_relabel f.own paramFits before
  have afterParams := ScopeTree.afterParams_relabel f.own paramFits before
  have locals := ScopeTree.locals_relabel f.own localFits
    (f.value.params.toList.foldl (fun tree name => tree.declareVariable f.own (name, .num)) before)
  rw [← afterParams] at locals
  -- the parts of the function correspond one by one
  exact (FunctionDecl.mk.injEq _ _ _ _ _ _ _ _ _ _ _ _ _ _).mpr
    ⟨rfl, rfl, p.scopeTree.bindFunction_relabel (suits.apart f member), params, locals,
      p.scopeTree.bindBlock_relabel f.own f.value.body, rfl⟩

/-- The problems of one function correspond one by one. -/
theorem declProblems_relabel (suits : ρ.Suits p) (before : ScopeTree) {f : Placed FunctionDecl}
    (member : f ∈ p.placed.toList) :
    (p.scopeTree.relabel ρ).declProblems (before.relabel ρ) (f.relabel ρ) =
      (p.scopeTree.declProblems before f).map (Located.relabel ρ ScopeError.mapNames) := by
  have own := p.scopeTree.functionObjection_relabel
    (suits.fits f.value.name (mem_declaredNames_of_function member)) (suits.apart f member)
  have entries := before.variableProblems_relabel f.own (entries_fit suits member)
  have body : (p.scopeTree.relabel ρ).blockProblems f.own (f.value.body.map ρ.change) = _ :=
    p.scopeTree.blockProblems_relabel f.own f.value.body
  have name : (((p.scopeTree.relabel ρ).functionObjection f.outer (f.value.name.relabel ρ)).map
        fun cause => (⟨cause, (f.value.name.relabel ρ).pos⟩ : Located ScopeError)).toList =
      ((p.scopeTree.functionObjection f.outer f.value.name).map
        (⟨·, f.value.name.pos⟩)).toList.map (Located.relabel ρ ScopeError.mapNames) := by
    rw [own, Name.pos_relabel]
    cases p.scopeTree.functionObjection f.outer f.value.name with
    | none => rfl
    | some cause => rfl
  rw [ScopeTree.declProblems, ScopeTree.declProblems, List.map_append, List.map_append, ← name,
    ← entries, ← body]
  rfl

/-- Resolving gives relabelled names to a relabelled program. -/
theorem bindNames_relabel (suits : ρ.Suits p) :
    (p.relabel ρ).bindNames (p.scopeTree.relabel ρ) = (p.bindNames p.scopeTree).relabel ρ := by
  have functions : (p.relabel ρ).sites.map
        (fun site => (p.scopeTree.relabel ρ).bindDecl site.1 site.2) =
      (p.sites.map fun site => p.scopeTree.bindDecl site.1 site.2).map
        (FunctionDecl.map ρ.change) := by
    -- the walk reaches each function with the relabelled scope tree
    rw [sites_relabel suits, Forest.map_map, Forest.map_map]
    apply Forest.map_congr
    intro site member
    exact bindDecl_relabel suits site.1 (placed_of_site member)
  have globals : (along (fun tree decl => tree.declareVariable ScopeTree.global decl.entry)
        (p.relabel ρ).hoisted (p.relabel ρ).globals).map
          (fun site => site.2.settle ScopeTree.global site.1) =
      ((along (fun tree decl => tree.declareVariable ScopeTree.global decl.entry) p.hoisted
        p.globals).map fun site => site.2.settle ScopeTree.global site.1).map
          (VarDecl.map ρ.change) := by
    rw [hoisted_relabel, show (p.relabel ρ).globals = p.globals.map (VarDecl.map ρ.change) from rfl,
      along_commutes p.globals (fun decl isGlobal tree =>
        tree.declareVariable_relabel ScopeTree.global decl.entry (globals_fit suits decl isGlobal)),
      List.map_map, List.map_map]
    apply List.map_congr_left
    intro site member
    exact site.1.settle_relabel ScopeTree.global site.2
      (globals_fit suits site.2 (mem_of_mem_along member))
  exact (Program.mk.injEq _ _ _ _ _ _ _ _ _ _).mpr
    ⟨rfl, globals, p.scopeTree.bindBlock_relabel ScopeTree.global p.block, functions, rfl⟩

/-- A relabelled program has relabelled problems, in the same order. -/
theorem scopeProblems_relabel (suits : ρ.Suits p) :
    (p.relabel ρ).scopeProblems (p.scopeTree.relabel ρ) =
      (p.scopeProblems p.scopeTree).map (Located.relabel ρ ScopeError.mapNames) := by
  have globals : (p.relabel ρ).hoisted.variableProblems ScopeTree.global
        ((p.relabel ρ).globals.map VarDecl.entry) =
      (p.hoisted.variableProblems ScopeTree.global (p.globals.map VarDecl.entry)).map
        (Located.relabel ρ ScopeError.mapNames) := by
    rw [hoisted_relabel, entries_relabel]
    refine p.hoisted.variableProblems_relabel ScopeTree.global fun entry member => ?_
    rcases List.mem_map.1 member with ⟨decl, isGlobal, rfl⟩
    exact globals_fit suits decl isGlobal
  have main : (p.scopeTree.relabel ρ).blockProblems ScopeTree.global (p.block.map ρ.change) = _ :=
    p.scopeTree.blockProblems_relabel ScopeTree.global p.block
  have functions : (p.relabel ρ).sites.toList.flatMap
        (fun site => (p.scopeTree.relabel ρ).declProblems site.1 site.2) =
      (p.sites.toList.flatMap fun site => p.scopeTree.declProblems site.1 site.2).map
        (Located.relabel ρ ScopeError.mapNames) := by
    rw [sites_relabel suits, Forest.toList_map, List.flatMap_map, List.map_flatMap]
    apply List.flatMap_congr
    intro site member
    exact declProblems_relabel suits site.1 (placed_of_site member)
  rw [scopeProblems, scopeProblems, List.map_append, List.map_append, globals, ← main, ← functions]
  rfl

end Program

section

variable (ρ : Relabelling)

def Resolution.relabel (r : Resolution) : Resolution :=
  ⟨r.program.relabel ρ, r.scopes.relabel ρ,
    r.problems.map (Located.relabel ρ ScopeError.mapNames)⟩

end

/-- Resolving commutes with relabelling: the program, the scope tree and all problems correspond. -/
theorem resolve_relabel {ρ : Relabelling} {p : Program} (suits : ρ.Suits p) :
    resolve (p.relabel ρ) = (resolve p).relabel ρ := by
  rw [resolve, Program.scopeTree_relabel suits, Program.bindNames_relabel suits,
    Program.scopeProblems_relabel suits]
  rfl

end SplBasic
