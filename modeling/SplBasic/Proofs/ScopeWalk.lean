import SplBasic.Proofs.SymbolArena

/-!
# Resolving step by step

Resolving as a walk over the program in source order. The walk keeps the scope tree and the problems
it has found so far, names scopes and symbols by their numbers, and stops as soon as it asks for a
number that nothing has. It re-enters the scopes of nested functions by going through the children
of a scope and the functions of a list side by side, and judges every name by the tree it has at that
moment.

* `Program.walk` : the walk,
* `ScopeTree.Ready` : all that is asked for from a scope is there,
* `Walk.bindDecl_apply`, `Walk.bindAll_apply` : what the walk makes of a function and of a list of
  functions.
-/

namespace SplBasic

/-! ## Questions that may have no answer -/

namespace ScopeTree

variable (tree : ScopeTree)

def symbol? (id : Nat) : Option Symbol :=
  (tree.declaration? id).map Declaration.symbol

/-- The number of what a scope has under a name. The scope has to be there. -/
def localId? (scope : Nat) (name : String) : Option (Option Nat) := do
  let _ ← tree.scope? scope
  return (tree.lookupLocal scope name).map Declaration.id

/-- The number of what the nearest scope that knows a name has under it. All scopes on the way have
to be there, and each parent has to be older than its child. -/
def nearestId? (name : String) (scope : Nat) : Option (Option Nat) := do
  let s ← tree.scope? scope
  match tree.lookupLocal scope name, s.parent with
  | some d, _ => return some d.id
  | none, none => return none
  | none, some parent => if parent < scope then nearestId? name parent else none
termination_by scope

def ofKind? (kind : SymbolKind) : Option Nat → Option (Option Nat)
  | none => return none
  | some id => return if (← tree.symbol? id).kind = kind then some id else none

def kindId? (kind : SymbolKind) (scope : Nat) (name : String) : Option (Option Nat) := do
  tree.ofKind? kind (← tree.nearestId? name scope)

/-- What speaks against declaring a variable. -/
def variableObjection? (scope : Nat) (name : Name) : Option (Option ScopeError) := do
  if (← tree.localId? scope name.source).isSome then return some (.variableRedeclared name.source)
  else if isReserved name.bare then return some (.reservedVariableName name.source)
  else
    match ← tree.kindId? .function scope ("F_" ++ name.bare) with
    | none => return none
    | some id =>
      return some (.variableClashesWithFunction name.source (← tree.symbol? id).name)

/-- The number of the entry of a function. -/
def entryId? (outer : Nat) (name : Name) : Option (Option Nat) := do
  match ← tree.localId? outer name.source with
  | none => return none
  | some id => return if (← tree.symbol? id).pos = name.pos then some id else none

def functionObjection? (outer : Nat) (name : Name) : Option (Option ScopeError) := do
  if (← tree.entryId? outer name).isNone then return some (.functionRedeclared name.source)
  else if isReserved name.bare then return some (.reservedFunctionName name.source)
  else
    match ← tree.kindId? .variable outer ("V_" ++ name.bare) with
    | some id =>
      return some (.functionClashesWithVariable name.source (← tree.symbol? id).name)
    | none =>
      if (← tree.scope? outer).name = name.source then
        return some (.functionNamedAfterParent name.source)
      else return none

/-- The number of what a used name refers to. -/
def referent? (scope : Nat) : NameUse → Option (Option Nat)
  | .variable name => tree.kindId? .variable scope name.source
  | .callee name =>
    if name.bare = "main" then return none else tree.kindId? .function scope name.source

end ScopeTree

/-! ## The walk -/

/-- What a walk has so far. -/
structure Walk.Progress where
  tree : ScopeTree
  problems : List (Located ScopeError)

/-- A part of a walk. It has no result if it asks for something that is not there. -/
abbrev Walk := StateT Walk.Progress Option

namespace Walk

/-- The answer of the scope tree to a question. -/
def ask {α : Type} (question : ScopeTree → Option α) : Walk α := fun progress =>
  (question progress.tree).map fun answer => (answer, progress)

/-- Makes the scope tree grow, and answers with the number of what is new. -/
def grow (change : ScopeTree → Nat × ScopeTree) : Walk Nat := fun progress =>
  let (id, tree) := change progress.tree
  some (id, { progress with tree })

/-- Adds a problem, if there is one. -/
def report (problem : Option (Located ScopeError)) : Walk Unit := fun progress =>
  some ((), { progress with problems := progress.problems ++ problem.toList })

/-- Opens a scope inside `parent`, which has to be there, and returns its number. -/
def addScope (parent : Nat) (name : String) : Walk Nat := do
  let _ ← ask (·.scope? parent)
  grow (·.addScope parent name)

/-- Declares a symbol in a scope, which has to be there, given the depth of the scope. -/
def declare (scope : Nat) (symbol : Nat → Symbol) : Walk Nat := do
  let s ← ask (·.scope? scope)
  grow (·.declare scope (symbol s.level))

/-- Opens the scope of a function and declares the function unless its name is taken. -/
def hoist (outer : Nat) (f : FunctionDecl) : Walk Nat := do
  let own ← addScope outer f.name.source
  if (← ask (·.localId? outer f.name.source)).isNone then
    let unique ← ask fun tree => some tree.nextFunctionName
    let _ ← declare outer fun level =>
      ⟨f.name.source, unique, .function, f.returnType.ty, level, f.name.pos⟩
  return own

/-- Hoists a list of functions and those inside them. -/
def hoistAll (outer : Nat) : Forest FunctionDecl → Walk Unit
  | .nil => return
  | .cons f inner rest => do
    let own ← hoist outer f
    hoistAll own inner
    hoistAll outer rest

/-- Declares a variable unless something speaks against it, and settles its name. -/
def declareVariable (scope : Nat) (name : Name) (type : ValueType) : Walk Name := do
  let objection ← ask (·.variableObjection? scope name)
  report (objection.map (⟨·, name.pos⟩))
  if objection.isSome then return name
  else
    let unique ← ask fun tree => some tree.nextVariableName
    let _ ← declare scope fun level => ⟨name.source, unique, .variable, type.ty, level, name.pos⟩
    return { name with text := unique }

def declareDecl (scope : Nat) (decl : VarDecl) : Walk VarDecl :=
  return { decl with name := ← declareVariable scope decl.name decl.type }

/-- A name with the unique name of the symbol with the given number. -/
def rename (name : Name) : Option Nat → Walk Name
  | some id => return { name with text := (← ask (·.symbol? id)).unique }
  | none => return name

end Walk

/-- The problem of a used name that refers to nothing. -/
def NameUse.unbound : NameUse → Located ScopeError
  | .variable name => ⟨.undeclaredVariable name.source, name.pos⟩
  | .callee name =>
    if name.bare = "main" then ⟨.recursiveMain, name.pos⟩
    else ⟨.undeclaredFunction name.source, name.pos⟩

/-- Resolves a used name. -/
def Walk.bindUse (scope : Nat) (use : Name → NameUse) (name : Name) : Walk Name := do
  let found ← ask (·.referent? scope (use name))
  report (if found.isSome then none else some (use name).unbound)
  rename name found

section MapNames

variable {m : Type → Type} [Monad m]

/-- The three things with the effects of `f` on them, in order. -/
def Triple.mapM {α β : Type} (f : α → m β) (t : Triple α) : m (Triple β) := do
  let first ← f t.first
  let second ← f t.second
  return ⟨first, second, ← f t.third⟩

variable (f g : Name → m Name)

/-- The atom with the effects of `f` on its variable. -/
def Atom.mapNamesM : Atom → m Atom
  | .name n => return .name (← f n)
  | .literal l => return .literal l

def Expr.mapNamesM : Expr → m Expr
  | .atom a => return .atom (← a.mapNamesM f)
  | .unary op token operand tag => return .unary op token (← operand.mapNamesM) tag
  | .binary op token left right tag => do
    let left ← left.mapNamesM
    return .binary op token left (← right.mapNamesM) tag

/-- The call with the effects of `g` on its callee and of `f` on its arguments. -/
def Call.mapNamesM (c : Call) : m Call := do
  let callee ← g c.callee
  return { c with callee, args := ← c.args.mapM (Atom.mapNamesM f) }

def Term.mapNamesM : Term → m Term
  | .expr e => return .expr (← e.mapNamesM f)
  | .call c => return .call (← c.mapNamesM f g)

def SimpleCommand.mapNamesM : SimpleCommand → m SimpleCommand
  | .skip keyword => return .skip keyword
  | .halt keyword => return .halt keyword
  | .print keyword value => return .print keyword (← value.mapNamesM f)
  | .giveBack keyword value => return .giveBack keyword (← value.mapNamesM f)
  | .read target keyword => return .read (← f target) keyword
  | .assign target value => do
    let target ← f target
    return .assign target (← value.mapNamesM f g)
  | .call c => return .call (← c.mapNamesM f g)

def Commands.mapNamesM : Commands → m Commands
  | .nil => return .nil
  | .simple command tag rest => do
    let command ← command.mapNamesM f g
    return .simple command tag (← rest.mapNamesM)
  | .ifThen keyword condition brackets body tag rest => do
    let condition ← condition.mapNamesM f
    let body ← body.mapNamesM
    return .ifThen keyword condition brackets body tag (← rest.mapNamesM)
  | .ifThenElse keyword condition thenBrackets thenBody elseBrackets elseBody tag rest => do
    let condition ← condition.mapNamesM f
    let thenBody ← thenBody.mapNamesM
    let elseBody ← elseBody.mapNamesM
    return .ifThenElse keyword condition thenBrackets thenBody elseBrackets elseBody tag
      (← rest.mapNamesM)

end MapNames

namespace Walk

def bindBlock (scope : Nat) (block : Block) : Walk Block := do
  let commands ← block.commands.mapNamesM (bindUse scope .variable) (bindUse scope .callee)
  return { block with commands }

/-- Resolves a function that stands in the scope `outer` and has the scope `own`. -/
def bindDecl (outer own : Nat) (f : FunctionDecl) : Walk FunctionDecl := do
  let objection ← ask (·.functionObjection? outer f.name)
  report (objection.map (⟨·, f.name.pos⟩))
  let name ← rename f.name (← ask (·.entryId? outer f.name))
  let params ← f.params.mapM (declareVariable own · .num)
  let locals ← f.locals.mapM (declareDecl own)
  let body ← bindBlock own f.body
  return { f with name, params, locals, body }

/-- Resolves a list of functions in the scope `outer` side by side with a list of scopes. -/
def bindAll (outer : Nat) : List Nat → Forest FunctionDecl → Walk (Forest FunctionDecl)
  | own :: scopes, .cons f inner rest => do
    let f ← bindDecl outer own f
    let _ ← ask (·.scope? own)
    let inner ← bindAll own (← ask fun tree => some (tree.children own)) inner
    return .cons f inner (← bindAll outer scopes rest)
  | _, functions => return functions

end Walk

namespace Program

/-- Resolves a program in two passes: first all functions, then everything in source order. -/
def walkAll (p : Program) : Walk Program := do
  Walk.hoistAll ScopeTree.global p.functions
  let globals ← p.globals.mapM (Walk.declareDecl ScopeTree.global)
  let block ← Walk.bindBlock ScopeTree.global p.block
  let scopes ← Walk.ask fun tree => some (tree.children ScopeTree.global)
  let functions ← Walk.bindAll ScopeTree.global scopes p.functions
  return { p with globals, block, functions }

/-- What the walk over a program ends with, if it never asks for something that is not there. -/
def walk (p : Program) : Option Resolution := do
  let (program, progress) ← p.walkAll.run ⟨.initial, []⟩
  return ⟨program, progress.tree, progress.problems⟩

end Program

/-! ## The questions have answers -/

namespace ScopeTree

/-- Every declaration is numbered by how many there were before it. -/
def Indexed (tree : ScopeTree) : Prop :=
  tree.declarations.reverse.map Declaration.id = List.range tree.declarations.length

/-- A scope that is there, together with all scopes around it, each older than the one inside. -/
inductive Rooted (tree : ScopeTree) : Nat → Prop
  | top {s : Scope} : tree.scope? s.id = some s → s.parent = none → tree.chain s.id = [s] →
      Rooted tree s.id
  | inner {s : Scope} {parent : Nat} : tree.scope? s.id = some s → s.parent = some parent →
      parent < s.id → tree.chain s.id = s :: tree.chain parent → Rooted tree parent →
      Rooted tree s.id

namespace Indexed

theorem initial : ScopeTree.initial.Indexed := rfl

/-- A new declaration gets the next free number. -/
theorem declare {tree : ScopeTree} (indexed : tree.Indexed) (scope : Nat) (symbol : Symbol) :
    (tree.declare scope symbol).2.Indexed := by
  have before : tree.declarations.reverse.map Declaration.id =
    List.range tree.declarations.length := indexed
  simp only [Indexed, ScopeTree.declare, List.reverse_cons, List.map_append, before,
    List.length_cons, List.range_succ, List.map_cons, List.map_nil]

theorem hoist {tree : ScopeTree} (indexed : tree.Indexed) (f : Placed FunctionDecl) :
    (tree.hoist f).Indexed := by
  have opened : (tree.addScope f.outer f.value.name.source).2.Indexed := indexed
  unfold ScopeTree.hoist
  dsimp only
  split
  · exact opened
  · exact opened.declare _ _

theorem declareVariable {tree : ScopeTree} (indexed : tree.Indexed) (scope : Nat)
    (entry : Name × ValueType) : (tree.declareVariable scope entry).Indexed := by
  unfold ScopeTree.declareVariable
  dsimp only
  split
  · exact indexed
  · exact indexed.declare _ _

theorem foldl_declareVariable {tree : ScopeTree} (indexed : tree.Indexed) (scope : Nat)
    (entries : List (Name × ValueType)) :
    (entries.foldl (ScopeTree.declareVariable · scope) tree).Indexed := by
  induction entries generalizing tree with
  | nil => exact indexed
  | cons entry entries ih => exact ih (indexed.declareVariable scope entry)

theorem foldl_declareVariables {tree : ScopeTree} (indexed : tree.Indexed)
    (fs : List (Placed FunctionDecl)) : (fs.foldl ScopeTree.declareVariables tree).Indexed := by
  induction fs generalizing tree with
  | nil => exact indexed
  | cons f fs ih => exact ih (indexed.foldl_declareVariable f.own f.value.entries)

theorem foldl_hoist {tree : ScopeTree} (indexed : tree.Indexed) (fs : List (Placed FunctionDecl)) :
    (fs.foldl ScopeTree.hoist tree).Indexed := by
  induction fs generalizing tree with
  | nil => exact indexed
  | cons f fs ih => exact ih (indexed.hoist f)

/-- A declaration is found again under its number. -/
theorem declaration?_eq_some {tree : ScopeTree} (indexed : tree.Indexed) {d : Declaration}
    (member : d ∈ tree.declarations) : tree.declaration? d.id = some d := by
  have distinct : (tree.declarations.map Declaration.id).Nodup := by
    rw [← List.nodup_reverse, ← List.map_reverse, indexed]
    exact List.nodup_range
  exact find?_eq_some_of_nodup distinct member

theorem symbol?_eq_some {tree : ScopeTree} (indexed : tree.Indexed) {d : Declaration}
    (member : d ∈ tree.declarations) : tree.symbol? d.id = some d.symbol := by
  rw [symbol?, indexed.declaration?_eq_some member, Option.map_some]

end Indexed

namespace Rooted

variable {tree : ScopeTree} {scope : Nat}

/-- A rooted scope is open. -/
theorem exists_scope (rooted : tree.Rooted scope) : ∃ s, tree.scope? scope = some s := by
  cases rooted with
  | top found _ _ => exact ⟨_, found⟩
  | inner found _ _ _ _ => exact ⟨_, found⟩

/-- Whether a scope is rooted is a matter of the scopes alone. -/
theorem congr {tree' : ScopeTree} (rooted : tree.Rooted scope)
    (same : tree'.scopes = tree.scopes) : tree'.Rooted scope := by
  have sameScope (s : Nat) : tree'.scope? s = tree.scope? s := by rw [scope?, same, scope?]
  have sameChain (s : Nat) : tree'.chain s = tree.chain s := by rw [chain, same, chain]
  induction rooted with
  | top found isTop chain =>
    exact .top (by rw [sameScope, found]) isTop (by rw [sameChain, chain])
  | inner found isParent older chain _ ih =>
    exact .inner (by rw [sameScope, found]) isParent older (by rw [sameChain, chain, sameChain]) ih

/-- The scopes around a scope are older than it. -/
theorem id_le_of_mem_chain (rooted : tree.Rooted scope) {s : Scope}
    (member : s ∈ tree.chain scope) : s.id ≤ scope := by
  induction rooted with
  | top found isTop chain =>
    rw [chain] at member
    cases List.mem_singleton.1 member
    exact Nat.le_refl _
  | inner found isParent older chain _ ih =>
    rw [chain] at member
    rcases List.mem_cons.1 member with rfl | around
    · exact Nat.le_refl _
    · exact Nat.le_trans (ih around) (Nat.le_of_lt older)

/-- Climbing from parent to parent finds what looking through the chain finds. -/
theorem nearestId?_eq (rooted : tree.Rooted scope) (name : String) :
    tree.nearestId? name scope = some ((tree.lookup scope name).map Declaration.id) := by
  induction rooted with
  | @top s found isTop chain =>
    rw [nearestId?, found, lookup_eq_findSome?, chain]
    cases here : tree.lookupLocal s.id name with
    | none => simp [here, isTop]
    | some d => simp [here]
  | @inner s parent found isParent older chain _ ih =>
    rw [lookup_eq_findSome?] at ih
    rw [nearestId?, found, lookup_eq_findSome?, chain]
    cases here : tree.lookupLocal s.id name with
    | none => simp [here, isParent, older, ih]
    | some d => simp [here]

/-- A lookup by numbers finds in a scope what looking through its declarations finds. -/
theorem localId?_eq (rooted : tree.Rooted scope) (name : String) :
    tree.localId? scope name = some ((tree.lookupLocal scope name).map Declaration.id) := by
  rcases rooted.exists_scope with ⟨s, found⟩
  rw [localId?, found]
  rfl

end Rooted

/-- All that is asked for from a scope is there. -/
structure Ready (tree : ScopeTree) (scope : Nat) : Prop where
  indexed : tree.Indexed
  rooted : tree.Rooted scope

namespace Ready

variable {tree : ScopeTree} {scope : Nat}

/-- A tree stays ready while variables are declared. -/
theorem declareVariable (ready : tree.Ready scope) (s : Nat) (entry : Name × ValueType) :
    (tree.declareVariable s entry).Ready scope :=
  ⟨ready.indexed.declareVariable s entry, ready.rooted.congr (tree.scopes_declareVariable s entry)⟩

theorem foldl_declareVariable (ready : tree.Ready scope) (s : Nat)
    (entries : List (Name × ValueType)) :
    (entries.foldl (ScopeTree.declareVariable · s) tree).Ready scope :=
  ⟨ready.indexed.foldl_declareVariable s entries,
    ready.rooted.congr (tree.scopes_foldl_declareVariable s entries)⟩

/-- A symbol of a kind is looked up by numbers as it is by declarations. -/
theorem kindId?_eq (ready : tree.Ready scope) (kind : SymbolKind) (name : String) :
    tree.kindId? kind scope name =
      some ((tree.lookupKind kind scope name).map Declaration.id) := by
  rw [kindId?, ready.rooted.nearestId?_eq, lookupKind]
  cases found : tree.lookup scope name with
  | none => rfl
  | some d =>
    have symbol := ready.indexed.symbol?_eq_some (mem_of_lookup found)
    by_cases same : d.symbol.kind = kind
    · simp [ofKind?, symbol, same, Option.filter]
    · simp [ofKind?, symbol, same, Option.filter]

/-- The walk objects to a variable as the tree does. -/
theorem variableObjection?_eq (ready : tree.Ready scope) (name : Name) :
    tree.variableObjection? scope name = some (tree.variableObjection scope name) := by
  rw [variableObjection?, ready.rooted.localId?_eq, variableObjection, lookupFunction,
    ready.kindId?_eq]
  by_cases taken : (tree.lookupLocal scope name.source).isSome
  · simp [taken]
  · by_cases reserved : isReserved name.bare
    · simp [taken, reserved]
    · cases found : tree.lookupKind .function scope ("F_" ++ name.bare) with
      | none => simp [taken, reserved]
      | some d =>
        have symbol := ready.indexed.symbol?_eq_some (mem_of_lookupKind found)
        simp [taken, reserved, symbol]

/-- The walk finds the entry of a function that was hoisted. -/
theorem entryId?_eq (ready : tree.Ready scope) (name : Name) :
    tree.entryId? scope name =
      some ((tree.functionEntry scope name).map Declaration.id) := by
  rw [entryId?, ready.rooted.localId?_eq, functionEntry]
  cases found : tree.lookupLocal scope name.source with
  | none => rfl
  | some d =>
    have symbol := ready.indexed.symbol?_eq_some (List.mem_of_find?_eq_some found)
    by_cases same : d.symbol.pos = name.pos
    · simp [symbol, same, Option.filter]
    · simp [symbol, same, Option.filter]

/-- The walk objects to a function as the tree does. -/
theorem functionObjection?_eq (ready : tree.Ready scope) (name : Name) :
    tree.functionObjection? scope name = some (tree.functionObjection scope name) := by
  rcases ready.rooted.exists_scope with ⟨s, around⟩
  rw [functionObjection?, ready.entryId?_eq, functionObjection, lookupVariable,
    ready.kindId?_eq, around]
  cases entry : tree.functionEntry scope name with
  | none => simp
  | some _ =>
    by_cases reserved : isReserved name.bare
    · simp [reserved]
    · cases found : tree.lookupKind .variable scope ("V_" ++ name.bare) with
      | some d =>
        have symbol := ready.indexed.symbol?_eq_some (mem_of_lookupKind found)
        simp [reserved, symbol]
      | none =>
        by_cases same : s.name = name.source
        · simp [reserved, same]
        · simp [reserved, same]

/-- The walk finds the declaration that a used name refers to. -/
theorem referent?_eq (ready : tree.Ready scope) (use : NameUse) :
    tree.referent? scope use = some ((tree.referent scope use).map Declaration.id) := by
  cases use with
  | «variable» name => exact ready.kindId?_eq .variable name.source
  | callee name =>
    by_cases isMain : name.bare = "main"
    · simp [referent?, referent, isMain]
    · rw [referent?, referent, if_neg isMain, if_neg isMain]
      exact ready.kindId?_eq .function name.source

end Ready

end ScopeTree

/-! ## The parts of the walk -/

namespace Walk

variable {α β : Type} {tree : ScopeTree} {problems : List (Located ScopeError)}

@[simp] theorem bind_apply (x : Walk α) (f : α → Walk β) (progress : Progress) :
    (x >>= f) progress = (x progress).bind fun r => f r.1 r.2 := rfl

@[simp] theorem pure_apply (a : α) (progress : Progress) :
    (pure a : Walk α) progress = some (a, progress) := rfl

@[simp] theorem map_apply (f : α → β) (x : Walk α) (progress : Progress) :
    (f <$> x) progress = (x progress).map fun r => (f r.1, r.2) := by
  cases found : x progress with
  | none => simp [Functor.map, StateT.map, found]
  | some r => simp [Functor.map, StateT.map, found]

@[simp] theorem ask_apply (question : ScopeTree → Option α) :
    ask question ⟨tree, problems⟩ =
      (question tree).map fun answer => (answer, ⟨tree, problems⟩) := rfl

theorem grow_apply (change : ScopeTree → Nat × ScopeTree) :
    grow change ⟨tree, problems⟩ = some ((change tree).1, ⟨(change tree).2, problems⟩) := rfl

@[simp] theorem report_apply (problem : Option (Located ScopeError)) :
    report problem ⟨tree, problems⟩ = some ((), ⟨tree, problems ++ problem.toList⟩) := rfl

theorem addScope_apply {parent : Nat} {s : Scope} (found : tree.scope? parent = some s)
    (name : String) :
    addScope parent name ⟨tree, problems⟩ =
      some (tree.scopes.length, ⟨(tree.addScope parent name).2, problems⟩) := by
  simp only [addScope, bind_apply, ask_apply, found, Option.map_some, Option.bind_some, grow_apply]
  rfl

theorem declare_apply {scope : Nat} {s : Scope} (found : tree.scope? scope = some s)
    (symbol : Nat → Symbol) :
    declare scope symbol ⟨tree, problems⟩ =
      some (tree.declarations.length,
        ⟨(tree.declare scope (symbol (tree.level scope))).2, problems⟩) := by
  simp only [declare, bind_apply, ask_apply, found, Option.map_some, Option.bind_some, grow_apply,
    ScopeTree.level, Option.elim_some]
  rfl

/-! ### Functions are hoisted -/

/-- Hoisting one function opens its scope, which gets the next number. -/
theorem hoist_apply {outer : Nat} {s : Scope} (found : tree.scope? outer = some s)
    (isOpen : outer < tree.scopes.length) (f : FunctionDecl) :
    hoist outer f ⟨tree, problems⟩ =
      some (tree.scopes.length, ⟨tree.hoist ⟨tree.scopes.length, outer, f⟩, problems⟩) := by
  have still : (tree.addScope outer f.name.source).2.scope? outer = some s := by
    rw [← found, ScopeTree.scope?, ScopeTree.scope?, ScopeTree.addScope, List.find?_cons_of_neg]
    simp only [decide_eq_true_eq]
    omega
  have answer : (tree.addScope outer f.name.source).2.localId? outer f.name.source =
      some ((tree.lookupLocal outer f.name.source).map Declaration.id) := by
    rw [ScopeTree.localId?, still]
    rfl
  rw [hoist, bind_apply, addScope_apply found]
  cases taken : tree.lookupLocal outer f.name.source with
  | some d => simp [answer, taken, ScopeTree.hoist]
  | none => simp [answer, taken, ScopeTree.hoist, declare_apply still]

/-- Hoisting a forest visits it in preorder, so the numbers are those of its places. -/
theorem hoistAll_apply (forest : Forest FunctionDecl) {outer : Nat} {s : Scope}
    (found : tree.scope? outer = some s) (isOpen : outer < tree.scopes.length) :
    hoistAll outer forest ⟨tree, problems⟩ =
      some ((), ⟨(forest.place outer tree.scopes.length).toList.foldl ScopeTree.hoist tree,
        problems⟩) := by
  induction forest generalizing outer tree s with
  | nil => rfl
  | cons f inner rest ihInner ihRest =>
    let placed : Placed FunctionDecl := ⟨tree.scopes.length, outer, f⟩
    let opened := tree.hoist placed
    have longer : opened.scopes.length = tree.scopes.length + 1 := by
      rw [ScopeTree.scopes_hoist, List.length_cons]
    have own : opened.scope? tree.scopes.length =
        some ⟨tree.scopes.length, f.name.source, tree.level outer + 1, some outer⟩ := by
      rw [ScopeTree.scope?_hoist, if_pos rfl]
    let filled := (inner.place tree.scopes.length (tree.scopes.length + 1)).toList.foldl
      ScopeTree.hoist opened
    have size : filled.scopes.length = tree.scopes.length + 1 + inner.size := by
      rw [ScopeTree.length_foldl_hoist, longer, Forest.length_place]
    -- the scope around the forest is still there when the walk comes back to it
    have around : filled.scope? outer = some s := by
      rw [ScopeTree.scope?_foldl_hoist _ _ (by omega), ScopeTree.scope?_hoist, if_neg (by omega),
        found]
    rw [hoistAll, bind_apply, hoist_apply found isOpen, Option.bind_some, bind_apply]
    rw [ihInner own (by omega), longer, Option.bind_some, ihRest around (by omega), size]
    simp only [Forest.place, Forest.toList, List.foldl_cons, List.foldl_append]
    rfl

/-! ### Variables are declared -/

variable {scope : Nat}

/-- Declaring a variable never fails: it is settled, or the objection is noted. -/
theorem declareVariable_apply (ready : tree.Ready scope) (name : Name) (type : ValueType) :
    declareVariable scope name type ⟨tree, problems⟩ =
      some (tree.settleVariable scope name,
        ⟨tree.declareVariable scope (name, type),
          problems ++ ((tree.variableObjection scope name).map (⟨·, name.pos⟩)).toList⟩) := by
  rcases ready.rooted.exists_scope with ⟨s, found⟩
  rw [declareVariable, bind_apply, ask_apply, ready.variableObjection?_eq]
  cases objection : tree.variableObjection scope name with
  | some e => simp [objection, ScopeTree.settleVariable, ScopeTree.declareVariable]
  | none =>
    simp [objection, ScopeTree.settleVariable, ScopeTree.declareVariable, declare_apply found]

theorem declareDecl_apply (ready : tree.Ready scope) (decl : VarDecl) :
    declareDecl scope decl ⟨tree, problems⟩ =
      some (decl.settle scope tree,
        ⟨tree.declareVariable scope decl.entry,
          problems ++ ((tree.variableObjection scope decl.name).map (⟨·, decl.name.pos⟩)).toList⟩)
      := by
  rw [declareDecl, bind_apply, declareVariable_apply ready]
  rfl

section Runs

-- things that each declare one variable, tried one after the other
variable {f : α → Walk β} {entry : α → Name × ValueType} {result : ScopeTree × α → β}
  (each : ∀ {tree : ScopeTree} {problems : List (Located ScopeError)}, tree.Ready scope → ∀ a,
    f a ⟨tree, problems⟩ =
      some (result (tree, a), ⟨tree.declareVariable scope (entry a), problems
        ++ ((tree.variableObjection scope (entry a).1).map (⟨·, (entry a).1.pos⟩)).toList⟩))

include each

/-- A list of variables is declared from left to right. -/
theorem list_mapM_apply (ready : tree.Ready scope) (as : List α) :
    as.mapM f ⟨tree, problems⟩ =
      some ((along (fun tree a => tree.declareVariable scope (entry a)) tree as).map result,
        ⟨(as.map entry).foldl (ScopeTree.declareVariable · scope) tree,
          problems ++ tree.variableProblems scope (as.map entry)⟩) := by
  induction as generalizing tree problems with
  | nil => simp [along, ScopeTree.variableProblems]
  | cons a as ih =>
    rw [List.mapM_cons, bind_apply, each ready, Option.bind_some, bind_apply,
      ih (ready.declareVariable scope (entry a)), List.map_cons, ScopeTree.variableProblems_cons]
    simp [along]

/-- So are the variables of a triple. -/
theorem triple_mapM_apply (ready : tree.Ready scope) (t : Triple α) :
    t.mapM f ⟨tree, problems⟩ =
      some ((t.along (fun tree a => tree.declareVariable scope (entry a)) tree).map result,
        ⟨(t.toList.map entry).foldl (ScopeTree.declareVariable · scope) tree,
          problems ++ tree.variableProblems scope (t.toList.map entry)⟩) := by
  have second := ready.declareVariable scope (entry t.first)
  have third := second.declareVariable scope (entry t.second)
  rw [Triple.mapM, bind_apply, each ready, Option.bind_some, bind_apply, each second,
    Option.bind_some, bind_apply, each third, Option.bind_some]
  simp [Triple.along, Triple.map, Triple.toList, ScopeTree.variableProblems_cons]
  rfl

end Runs

/-! ### Names are resolved -/

/-- Renaming asks only for declarations that exist, so it does not fail. -/
theorem rename_apply {found : Option Declaration} (indexed : tree.Indexed)
    (member : ∀ d, found = some d → d ∈ tree.declarations) (name : Name) :
    rename name (found.map Declaration.id) ⟨tree, problems⟩ =
      some (ScopeTree.rename name found, ⟨tree, problems⟩) := by
  cases found with
  | none => rfl
  | some d => simp [rename, ScopeTree.rename, indexed.symbol?_eq_some (member d rfl)]

/-- A used name is renamed, or noted as unbound. -/
theorem bindUse_apply (ready : tree.Ready scope) (use : Name → NameUse) (name : Name)
    (problems : List (Located ScopeError)) :
    bindUse scope use name ⟨tree, problems⟩ =
      some (ScopeTree.rename name (tree.referent scope (use name)),
        ⟨tree, problems ++ [use name].filterMap (tree.useObjection scope)⟩) := by
  -- the walk reports a problem exactly if it finds nothing to refer to
  have objection : tree.useObjection scope (use name) =
      if (tree.referent scope (use name)).isSome then none else some (use name).unbound := by
    unfold ScopeTree.useObjection
    cases tree.referent scope (use name) with
    | some _ => rfl
    | none =>
      cases use name with
      | «variable» _ => rfl
      | callee _ =>
        simp only [NameUse.unbound]
        split
        · rfl
        · rfl
  rw [bindUse, bind_apply, ask_apply, ready.referent?_eq, Option.map_some, Option.bind_some,
    bind_apply, report_apply, Option.bind_some,
    rename_apply ready.indexed fun d found => ScopeTree.mem_of_referent found,
    Option.isSome_map, ← objection]
  cases found : tree.useObjection scope (use name) with
  | none => simp [found]
  | some l => simp [found]

end Walk

section MapNames

variable {tree : ScopeTree} {problem : NameUse → Option (Located ScopeError)}
  {f g : Name → Walk Name} {f' g' : Name → Name}
  (bindVariable : ∀ name problems, f name ⟨tree, problems⟩ =
    some (f' name, ⟨tree, problems ++ [.variable name].filterMap problem⟩))
  (bindCallee : ∀ name problems, g name ⟨tree, problems⟩ =
    some (g' name, ⟨tree, problems ++ [.callee name].filterMap problem⟩))
  (problems : List (Located ScopeError))

include bindVariable

/-- An atom is renamed, and the problems with its name are noted. -/
theorem Atom.mapNamesM_apply (a : Atom) :
    a.mapNamesM f ⟨tree, problems⟩ =
      some (a.mapNames f', ⟨tree, problems ++ a.uses.filterMap problem⟩) := by
  cases a with
  | name n => simp [mapNamesM, mapNames, uses, bindVariable]
  | literal l => simp [mapNamesM, mapNames, uses]

/-- An expression is renamed from left to right. -/
theorem Expr.mapNamesM_apply (e : Expr) :
    e.mapNamesM f ⟨tree, problems⟩ =
      some (e.mapNames f', ⟨tree, problems ++ e.uses.filterMap problem⟩) := by
  induction e generalizing problems with
  | atom a => simp [mapNamesM, mapNames, uses, Atom.mapNamesM_apply bindVariable]
  | unary op token operand tag ih => simp [mapNamesM, mapNames, uses, ih]
  | binary op token left right tag ihLeft ihRight =>
    simp [mapNamesM, mapNames, uses, ihLeft, ihRight]

include bindCallee

theorem Call.mapNamesM_apply (c : Call) :
    c.mapNamesM f g ⟨tree, problems⟩ =
      some (c.mapNames f' g', ⟨tree, problems ++ c.uses.filterMap problem⟩) := by
  have inOrder : c.uses = [.callee c.callee] ++ c.args.first.uses ++ c.args.second.uses
      ++ c.args.third.uses := by
    simp [uses, Triple.toList]
  simp only [mapNamesM, Triple.mapM, mapNames, inOrder, Walk.bind_apply, bindCallee,
    Option.bind_some, Atom.mapNamesM_apply bindVariable, List.filterMap_append, List.append_assoc]
  rfl

theorem Term.mapNamesM_apply (t : Term) :
    t.mapNamesM f g ⟨tree, problems⟩ =
      some (t.mapNames f' g', ⟨tree, problems ++ t.uses.filterMap problem⟩) := by
  cases t with
  | expr e => simp [mapNamesM, mapNames, uses, Expr.mapNamesM_apply bindVariable]
  | call c => simp [mapNamesM, mapNames, uses, Call.mapNamesM_apply bindVariable bindCallee]

/-- A command is renamed, the target before the value. -/
theorem SimpleCommand.mapNamesM_apply (c : SimpleCommand) :
    c.mapNamesM f g ⟨tree, problems⟩ =
      some (c.mapNames f' g', ⟨tree, problems ++ c.uses.filterMap problem⟩) := by
  cases c with
  | assign target value =>
    have inOrder : (assign target value).uses = [.variable target] ++ value.uses := rfl
    simp only [mapNamesM, mapNames, inOrder, Walk.bind_apply, bindVariable, Option.bind_some,
      Term.mapNamesM_apply bindVariable bindCallee, List.filterMap_append, List.append_assoc]
    rfl
  | _ =>
    simp [mapNamesM, mapNames, uses, bindVariable, Atom.mapNamesM_apply bindVariable,
      Call.mapNamesM_apply bindVariable bindCallee, Walk.pure_apply]

/-- Commands are renamed in order; conditions come before the blocks they guard. -/
theorem Commands.mapNamesM_apply (cs : Commands) :
    cs.mapNamesM f g ⟨tree, problems⟩ =
      some (cs.mapNames f' g', ⟨tree, problems ++ cs.uses.filterMap problem⟩) := by
  induction cs generalizing problems with
  | nil => simp [mapNamesM, mapNames, uses, Walk.pure_apply]
  | simple command tag rest ih =>
    simp [mapNamesM, mapNames, uses, SimpleCommand.mapNamesM_apply bindVariable bindCallee, ih]
  | ifThen keyword condition brackets body tag rest ihBody ihRest =>
    simp [mapNamesM, mapNames, uses, Expr.mapNamesM_apply bindVariable, ihBody, ihRest]
  | ifThenElse keyword condition thenBrackets thenBody elseBrackets elseBody tag rest ihThen ihElse
      ihRest =>
    simp [mapNamesM, mapNames, uses, Expr.mapNamesM_apply bindVariable, ihThen, ihElse, ihRest]

end MapNames

namespace Walk

variable {tree : ScopeTree} {problems : List (Located ScopeError)} {scope : Nat}

/-- A block is renamed in its scope, and the problems with its names are noted in order. -/
theorem bindBlock_apply (ready : tree.Ready scope) (block : Block) :
    bindBlock scope block ⟨tree, problems⟩ =
      some (tree.bindBlock scope block,
        ⟨tree, problems ++ tree.blockProblems scope block⟩) := by
  rw [bindBlock, bind_apply, Commands.mapNamesM_apply (bindUse_apply ready .variable)
    (bindUse_apply ready .callee)]
  rfl

/-! ### Functions are resolved -/

/-- A function as the walk resolves it, its name by the tree `before` its variables are declared and
its body by the tree behind them. -/
def boundDecl (before : ScopeTree) (f : Placed FunctionDecl) : FunctionDecl :=
  { (before.declareVariables f).bindDecl before f with
    name := before.bindFunction f.outer f.value.name }

/-- What the walk finds wrong with a function. -/
def declProblems (before : ScopeTree) (f : Placed FunctionDecl) : List (Located ScopeError) :=
  ((before.functionObjection f.outer f.value.name).map (⟨·, f.value.name.pos⟩)).toList
    ++ before.variableProblems f.own f.value.entries
    ++ (before.declareVariables f).blockProblems f.own f.value.body

/-- A function is bound once its scope is open: first its name, then parameters and local variables,
and last its body. -/
theorem bindDecl_apply {f : Placed FunctionDecl} (around : tree.Ready f.outer)
    (inside : tree.Ready f.own) :
    bindDecl f.outer f.own f.value ⟨tree, problems⟩ =
      some (boundDecl tree f, ⟨tree.declareVariables f, problems ++ declProblems tree f⟩) := by
  let params := f.value.params.toList.map (·, ValueType.num)
  let behindParams := params.foldl (ScopeTree.declareVariable · f.own) tree
  have declared : (f.value.locals.toList.map VarDecl.entry).foldl
      (ScopeTree.declareVariable · f.own) behindParams = tree.declareVariables f :=
    List.foldl_append.symm
  have member (d : Declaration) (entry : tree.functionEntry f.outer f.value.name = some d) :
      d ∈ tree.declarations :=
    List.mem_of_find?_eq_some (Option.filter_eq_some_iff.1 entry).1
  have named : tree.bindFunction f.outer f.value.name =
      ScopeTree.rename f.value.name (tree.functionEntry f.outer f.value.name) := by
    unfold ScopeTree.bindFunction
    cases tree.functionEntry f.outer f.value.name with
    | none => rfl
    | some d => rfl
  have paramsDeclared (problems : List (Located ScopeError)) :
      f.value.params.mapM (declareVariable f.own · .num) ⟨tree, problems⟩ =
        some ((f.value.params.along
            (fun tree name => tree.declareVariable f.own (name, ValueType.num)) tree).map
            fun site => site.1.settleVariable f.own site.2,
          ⟨behindParams, problems ++ tree.variableProblems f.own params⟩) :=
    triple_mapM_apply (fun ready name => declareVariable_apply ready name .num) inside _
  have localsDeclared (problems : List (Located ScopeError)) :
      f.value.locals.mapM (declareDecl f.own) ⟨behindParams, problems⟩ =
        some ((f.value.locals.along
            (fun tree decl => tree.declareVariable f.own decl.entry) behindParams).map
            fun site => site.2.settle f.own site.1,
          ⟨tree.declareVariables f, problems
            ++ behindParams.variableProblems f.own (f.value.locals.toList.map VarDecl.entry)⟩) :=
    declared ▸ triple_mapM_apply declareDecl_apply (inside.foldl_declareVariable f.own params) _
  -- the body is resolved when all variables of the function are there
  have bodyReady : (tree.declareVariables f).Ready f.own :=
    inside.foldl_declareVariable f.own f.value.entries
  rw [declProblems, FunctionDecl.entries, ScopeTree.variableProblems_append, boundDecl, named]
  simp only [bindDecl, bind_apply, ask_apply, report_apply, around.functionObjection?_eq,
    around.entryId?_eq, Option.map_some, Option.bind_some, rename_apply around.indexed member,
    paramsDeclared, localsDeclared, bindBlock_apply bodyReady, List.append_assoc]
  rfl

/-- The walk through the functions of a list re-enters the scopes that mirror them. -/
theorem bindAll_apply {base : ScopeTree} {outer level next : Nat} {own : List Nat}
    {forest : Forest FunctionDecl} (mirrors : base.Mirrors outer level next own forest)
    (around : base.Rooted outer)
    (inside : ∀ f ∈ (forest.place outer next).toList, base.Rooted f.own)
    (same : tree.scopes = base.scopes) (indexed : tree.Indexed) :
    bindAll outer own forest ⟨tree, problems⟩ =
      some (((forest.place outer next).along ScopeTree.declareVariables tree).map
          fun site => boundDecl site.1 site.2,
        ⟨(forest.place outer next).toList.foldl ScopeTree.declareVariables tree,
          problems ++ ((forest.place outer next).along ScopeTree.declareVariables
            tree).toList.flatMap fun site => declProblems site.1 site.2⟩) := by
  induction mirrors generalizing tree problems with
  | nil =>
    simp [bindAll, Forest.place, Forest.along, Forest.walk, Forest.map, Forest.toList, pure_apply]
  | @cons outer level next own f inner rest opened _ _ ihInner ihRest =>
    let placed : Placed FunctionDecl := ⟨next, outer, f⟩
    simp only [Forest.place, Forest.toList, List.mem_cons, List.mem_append] at inside
    have here : base.Rooted next := inside placed (.inl rfl)
    let behind := tree.declareVariables placed
    have sameBehind : behind.scopes = base.scopes :=
      (tree.scopes_foldl_declareVariable next f.entries).trans same
    have indexedBehind : behind.Indexed := indexed.foldl_declareVariable next f.entries
    have bound (problems : List (Located ScopeError)) : bindDecl outer next f ⟨tree, problems⟩ =
        some (boundDecl tree placed, ⟨behind, problems ++ declProblems tree placed⟩) :=
      bindDecl_apply (f := placed) ⟨indexed, around.congr same⟩ ⟨indexed, here.congr same⟩
    -- variables open no scopes, so the scopes inside this one are still those that were hoisted
    have again : behind.scope? next = some ⟨next, f.name.source, level, some outer⟩ := by
      rw [ScopeTree.scope?, sameBehind]
      exact opened
    have children : behind.children next = base.children next := by
      rw [ScopeTree.children, sameBehind, ScopeTree.children]
    have innerBound (problems : List (Located ScopeError)) :
        bindAll next (base.children next) inner ⟨behind, problems⟩ = _ :=
      ihInner here (fun g member => inside g (.inr (.inl member))) sameBehind indexedBehind
    have restBound (problems : List (Located ScopeError)) :
        bindAll outer own rest
          ⟨(inner.place next (next + 1)).toList.foldl ScopeTree.declareVariables behind, problems⟩ =
          _ :=
      ihRest around (fun g member => inside g (.inr (.inr member)))
        ((behind.scopes_foldl_declareVariables _).trans sameBehind)
        (indexedBehind.foldl_declareVariables _)
    simp only [bindAll, bind_apply, bound, Option.bind_some, ask_apply, again, Option.map_some,
      children, innerBound, restBound]
    simp only [Forest.place, Forest.along, Forest.walk, Forest.map, Forest.toList, Forest.walk_fst,
      List.foldl_cons, List.foldl_append, List.flatMap_cons, List.flatMap_append, List.append_assoc]
    rfl

end Walk

end SplBasic
