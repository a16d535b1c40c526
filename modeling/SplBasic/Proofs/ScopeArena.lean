import Mathlib.Data.List.AList
import SplBasic.Proofs.ScopeHistory

/-!
# Scope trees in arenas

A second way to keep scopes. All scopes stand in one array and all symbols in another, numbered by
where they stand. A scope has a map from its names to the numbers of symbols and the list of the
scopes directly inside it; one more map leads from unique names to symbols. Growing changes these
tables in place, and whatever asks for a scope or a symbol that is not there has no result.

* `ScopeArena.addScope`, `ScopeArena.declare`, `ScopeArena.run` : how an arena grows,
* `ScopeArena.lookup`, `ScopeArena.lookupKind`, `ScopeArena.byUnique?` : what it is asked,
* `ScopeArena.Represents` : the tables of an arena hold what a scope tree says,
* `ScopeArena.Represents.apply`, `ScopeArena.Represents.run` : a change, and a run of changes, made
  to both gives the same numbers and keeps it so,
* `ScopeArena.run_represents` : so the arena answers every question as the scope tree does,
* `Program.exists_arena` : in particular for the scope tree of any program.
-/

namespace SplBasic

/-! ## Arenas -/

/-- A map from names to numbers of symbols. -/
abbrev SymbolMap := AList fun _ : String => Nat

/-- A scope of an arena, with what it declares and the scopes directly inside it. -/
structure ArenaScope where
  parent : Option Nat
  name : String
  level : Nat
  symbols : SymbolMap
  children : Array Nat

/-- Scopes and symbols by number, and symbols by unique name. -/
structure ScopeArena where
  scopes : Array ArenaScope
  symbols : Array Symbol
  unique : SymbolMap

/-- The number that a change was answered with. -/
def ScopeEvent.number : ScopeEvent → Nat
  | .opened scope _ _ => scope
  | .declared d => d.id

namespace ScopeArena

def initial : ScopeArena :=
  ⟨#[⟨none, "global", 0, ∅, #[]⟩], #[], ∅⟩

/-- Opens a scope inside `parent`, which has to be there, and enters it among the children. -/
def addScope (arena : ScopeArena) (parent : Nat) (name : String) : Option (Nat × ScopeArena) := do
  let own := arena.scopes.size
  let around ← arena.scopes[parent]?
  let scopes := arena.scopes.push ⟨some parent, name, around.level + 1, ∅, #[]⟩
  return (own, { arena with
    scopes := scopes.modify parent fun s => { s with children := s.children.push own } })

/-- Declares a symbol in a scope, which has to be there, under its name and its unique name. -/
def declare (arena : ScopeArena) (scope : Nat) (symbol : Symbol) : Option (Nat × ScopeArena) := do
  let id := arena.symbols.size
  let _ ← arena.scopes[scope]?
  return (id, {
    scopes := arena.scopes.modify scope fun s =>
      { s with symbols := s.symbols.insert symbol.name id }
    symbols := arena.symbols.push symbol
    unique := arena.unique.insert symbol.unique id })

/-- Makes a change, and answers with the number of what is new. -/
def apply (arena : ScopeArena) : ScopeChange → Option (Nat × ScopeArena)
  | .addScope parent name => arena.addScope parent name
  | .declare scope symbol => arena.declare scope symbol

/-- Makes changes one after the other, and collects the numbers they are answered with. -/
def run (arena : ScopeArena) : List ScopeChange → Option (List Nat × ScopeArena)
  | [] => some ([], arena)
  | c :: changes => do
    let (id, grown) ← arena.apply c
    let (ids, final) ← grown.run changes
    return (id :: ids, final)

/-- The number of what a scope has under a name. -/
def lookupLocal (arena : ScopeArena) (scope : Nat) (name : String) : Option (Option Nat) := do
  return (← arena.scopes[scope]?).symbols.lookup name

/-- The number of what the nearest scope that knows a name has under it, climbing from parent to
parent. -/
def lookup (arena : ScopeArena) (name : String) (scope : Nat) : Option (Option Nat) := do
  let s ← arena.scopes[scope]?
  match s.symbols.lookup name, s.parent with
  | some id, _ => return some id
  | none, none => return none
  | none, some parent => if parent < scope then arena.lookup name parent else none
termination_by scope

/-- The number that was found, if its symbol is of the given kind. -/
def ofKind (arena : ScopeArena) (kind : SymbolKind) : Option Nat → Option (Option Nat)
  | none => return none
  | some id => return if (← arena.symbols[id]?).kind = kind then some id else none

def lookupKind (arena : ScopeArena) (kind : SymbolKind) (scope : Nat) (name : String) :
    Option (Option Nat) := do
  arena.ofKind kind (← arena.lookup name scope)

def byUnique? (arena : ScopeArena) (unique : String) : Option (Option Symbol) :=
  match arena.unique.lookup unique with
  | none => return none
  | some id => return some (← arena.symbols[id]?)

end ScopeArena

/-! ## Representation -/

/-- What stands at a number of an arena is what a scope tree knows of the scope with this number. -/
structure ArenaScope.Represents (s : ArenaScope) (tree : ScopeTree) (id : Nat) : Prop where
  scope : tree.scope? id = some ⟨id, s.name, s.level, s.parent⟩
  children : s.children.toList = tree.children id
  symbols : ∀ name, s.symbols.lookup name = (tree.lookupLocal id name).map Declaration.id

namespace ScopeArena

/-- The tables of an arena hold what a scope tree says. Nothing in the tree refers to a scope that
is still to come. -/
structure Represents (arena : ScopeArena) (tree : ScopeTree) : Prop where
  size : arena.scopes.size = tree.scopes.length
  scope : ∀ {id : Nat} {s : ArenaScope}, arena.scopes[id]? = some s → s.Represents tree id
  symbols : arena.symbols.toList = tree.declarations.reverse.map Declaration.symbol
  unique : ∀ unique, arena.unique.lookup unique = (tree.byUnique? unique).map Declaration.id
  parents : ∀ s ∈ tree.scopes, ∀ parent, s.parent = some parent → parent < tree.scopes.length
  owners : ∀ d ∈ tree.declarations, d.scope < tree.scopes.length

/-- Both start with the global scope. -/
theorem represents_initial : initial.Represents .initial where
  size := rfl
  scope := by
    intro id s found
    cases id with
    | zero =>
      cases found
      exact ⟨rfl, rfl, fun _ => rfl⟩
    | succ id => cases found
  symbols := rfl
  unique := fun _ => rfl
  parents := by
    intro s member parent isParent
    cases List.mem_singleton.1 member
    cases isParent
  owners := by
    intro d member
    cases member

namespace Represents

variable {arena : ScopeArena} {tree : ScopeTree}

/-- Each scope of the tree stands at its number. -/
theorem exists_scope (represents : arena.Represents tree) {id : Nat}
    (there : id < tree.scopes.length) :
    ∃ s, arena.scopes[id]? = some s ∧ s.Represents tree id := by
  have inside : id < arena.scopes.size := represents.size ▸ there
  exact ⟨arena.scopes[id], Array.getElem?_eq_getElem inside,
    represents.scope (Array.getElem?_eq_getElem inside)⟩

theorem size_symbols (represents : arena.Represents tree) :
    arena.symbols.size = tree.declarations.length := by
  rw [← Array.length_toList, represents.symbols, List.length_map, List.length_reverse]

end Represents

end ScopeArena

/-! ## One change -/

namespace ScopeTree

variable (tree : ScopeTree)

/-- A new scope is the youngest child of its parent. -/
theorem children_addScope (parent : Nat) (name : String) (s : Nat) :
    (tree.addScope parent name).2.children s =
      tree.children s ++ if s = parent then [tree.scopes.length] else [] := by
  simp only [children, addScope, List.reverse_cons, List.filter_append, List.map_append]
  by_cases isParent : s = parent
  · rw [if_pos isParent, List.filter_cons_of_pos (by simp [isParent])]
    rfl
  · rw [if_neg isParent, List.filter_cons_of_neg (by simpa [eq_comm] using isParent)]
    rfl

/-- What is declared last is found under its unique name. -/
theorem byUnique?_declare (scope : Nat) (symbol : Symbol) (unique : String) :
    (tree.declare scope symbol).2.byUnique? unique =
      if symbol.unique = unique then some ⟨tree.declarations.length, scope, symbol⟩
      else tree.byUnique? unique := by
  simp only [byUnique?, declare, List.find?_cons]
  by_cases isUnique : symbol.unique = unique
  · simp [isUnique]
  · simp [isUnique]

end ScopeTree

namespace ScopeArena.Represents

variable {arena : ScopeArena} {tree : ScopeTree}

/-- Nothing is inside a scope that is still to come, and nothing is declared in it. -/
theorem fresh (represents : arena.Represents tree) :
    tree.children tree.scopes.length = [] ∧
      ∀ name, tree.lookupLocal tree.scopes.length name = none := by
  constructor
  · rw [ScopeTree.children, List.map_eq_nil_iff, List.filter_eq_nil_iff]
    intro s member isParent
    have older := represents.parents s (List.mem_reverse.1 member) _ (of_decide_eq_true isParent)
    exact Nat.lt_irrefl _ older
  · intro name
    rw [ScopeTree.lookupLocal, List.find?_eq_none]
    intro d member binds
    have older := represents.owners d member
    simp only [Bool.and_eq_true, decide_eq_true_eq] at binds
    omega

/-- A new scope is pushed, and listed with its parent. -/
theorem addScope (represents : arena.Represents tree) {parent : Nat}
    (there : parent < tree.scopes.length) (name : String) :
    ∃ grown, arena.addScope parent name = some ((tree.addScope parent name).1, grown) ∧
      grown.Represents (tree.addScope parent name).2 := by
  rcases represents.exists_scope there with ⟨around, found, isAround⟩
  have level : tree.level parent = around.level := by
    rw [ScopeTree.level, isAround.scope]
    rfl
  have own : (tree.addScope parent name).1 = arena.scopes.size := represents.size.symm
  refine ⟨_, by rw [ScopeArena.addScope, found, own]; rfl, ?_⟩
  constructor
  case size =>
    rw [Array.size_modify, Array.size_push, represents.size]
    rfl
  case scope =>
    intro id s isThere
    rw [Array.getElem?_modify, Array.getElem?_push, represents.size] at isThere
    by_cases isNew : id = tree.scopes.length
    · -- the new scope, which is not its own parent
      rw [if_neg (by omega), if_pos isNew] at isThere
      cases isThere
      rcases represents.fresh with ⟨noChild, nothing⟩
      refine ⟨?_, ?_, fun n => ?_⟩
      · rw [ScopeTree.scope?_addScope, if_pos isNew, ScopeTree.nextScope, level, isNew]
      · rw [ScopeTree.children_addScope, if_neg (by omega), isNew, noChild]
        rfl
      · rw [ScopeTree.lookupLocal_addScope, isNew, nothing]
        rfl
    · have scope? : (tree.addScope parent name).2.scope? id = tree.scope? id := by
        rw [ScopeTree.scope?_addScope, if_neg isNew]
      rw [if_neg isNew] at isThere
      by_cases isParent : parent = id
      · -- the parent, which has one child more
        subst isParent
        rw [if_pos rfl, found] at isThere
        cases isThere
        refine ⟨scope?.trans isAround.scope, ?_, isAround.symbols⟩
        rw [ScopeTree.children_addScope, if_pos rfl, Array.toList_push, isAround.children]
      · -- any other scope is as it was
        rw [if_neg isParent] at isThere
        have isOld := represents.scope isThere
        refine ⟨scope?.trans isOld.scope, ?_, isOld.symbols⟩
        rw [ScopeTree.children_addScope, if_neg (Ne.symm isParent), List.append_nil]
        exact isOld.children
  case symbols => exact represents.symbols
  case unique => exact represents.unique
  case parents =>
    intro s member outer isParent
    have length : (tree.addScope parent name).2.scopes.length = tree.scopes.length + 1 := rfl
    rcases List.mem_cons.1 member with rfl | older
    · cases isParent
      omega
    · have := represents.parents s older outer isParent
      omega
  case owners =>
    intro d member
    exact Nat.lt_succ_of_lt (represents.owners d member)

/-- A new symbol is pushed, and entered into the table of its scope. -/
theorem declare (represents : arena.Represents tree) {scope : Nat}
    (there : scope < tree.scopes.length) (symbol : Symbol) :
    ∃ grown, arena.declare scope symbol = some ((tree.declare scope symbol).1, grown) ∧
      grown.Represents (tree.declare scope symbol).2 := by
  rcases represents.exists_scope there with ⟨around, found, isAround⟩
  have number : (tree.declare scope symbol).1 = arena.symbols.size := represents.size_symbols.symm
  refine ⟨_, by rw [ScopeArena.declare, found, number]; rfl, ?_⟩
  constructor
  case size =>
    rw [Array.size_modify, represents.size]
    rfl
  case scope =>
    intro id s isThere
    rw [Array.getElem?_modify] at isThere
    by_cases isScope : scope = id
    · -- the scope that the name is entered in
      subst isScope
      rw [if_pos rfl, found] at isThere
      cases isThere
      refine ⟨isAround.scope, isAround.children, fun name => ?_⟩
      rw [ScopeTree.lookupLocal_declare, ← represents.size_symbols]
      by_cases isName : symbol.name = name
      · subst isName
        rw [if_pos ⟨rfl, rfl⟩, AList.lookup_insert]
        rfl
      · -- entering one name leaves the others
        rw [if_neg (fun both => isName both.2), AList.lookup_insert_ne (Ne.symm isName)]
        exact isAround.symbols name
    · rw [if_neg isScope] at isThere
      have isOld := represents.scope isThere
      refine ⟨isOld.scope, isOld.children, fun name => ?_⟩
      rw [ScopeTree.lookupLocal_declare, if_neg (fun both => isScope both.1)]
      exact isOld.symbols name
  case symbols =>
    rw [Array.toList_push, represents.symbols]
    simp [ScopeTree.declare]
  case unique =>
    intro unique
    rw [ScopeTree.byUnique?_declare, ← represents.size_symbols]
    by_cases isUnique : symbol.unique = unique
    · subst isUnique
      rw [if_pos rfl, AList.lookup_insert]
      rfl
    · rw [if_neg isUnique, AList.lookup_insert_ne (Ne.symm isUnique)]
      exact represents.unique unique
  case parents => exact represents.parents
  case owners =>
    intro d member
    rcases List.mem_cons.1 member with rfl | older
    · exact there
    · exact represents.owners d older

/-- One change in a scope that is there is answered alike. -/
theorem apply (represents : arena.Represents tree) {c : ScopeChange}
    (there : c.scope < tree.scopes.length) :
    ∃ grown, arena.apply c = some ((tree.event c).number, grown) ∧
      grown.Represents (tree.apply c) := by
  cases c with
  | addScope parent name => exact represents.addScope there name
  | declare scope symbol => exact represents.declare there symbol

/-- So is a run of changes. -/
theorem run (represents : arena.Represents tree) {changes : List ScopeChange}
    (inRange : tree.InRange changes) :
    ∃ final, arena.run changes = some ((tree.history changes).map ScopeEvent.number, final) ∧
      final.Represents (tree.run changes) := by
  induction changes generalizing arena tree with
  | nil => exact ⟨arena, rfl, represents⟩
  | cons c changes ih =>
    have first : c.scope < tree.scopes.length := inRange (tree, c) (by simp [along])
    have rest : (tree.apply c).InRange changes := fun site member =>
      inRange site (List.mem_cons_of_mem _ member)
    rcases represents.apply first with ⟨grown, changed, isGrown⟩
    rcases ih isGrown rest with ⟨final, ran, isFinal⟩
    refine ⟨final, ?_, isFinal⟩
    rw [ScopeArena.run, changed]
    simp only [Option.bind_eq_bind, Option.bind_some, ran]
    rfl

/-! ## Questions -/

/-- The table of a scope holds the first declaration of each name. -/
theorem lookupLocal_eq (represents : arena.Represents tree) {scope : Nat}
    (there : scope < tree.scopes.length) (name : String) :
    arena.lookupLocal scope name = some ((tree.lookupLocal scope name).map Declaration.id) := by
  rcases represents.exists_scope there with ⟨s, found, isScope⟩
  rw [lookupLocal, found, ← isScope.symbols]
  rfl

/-- Climbing through an arena is climbing through the tree. -/
theorem lookup_eq_nearestId? (represents : arena.Represents tree) (name : String) {scope : Nat}
    (there : scope < tree.scopes.length) :
    arena.lookup name scope = tree.nearestId? name scope := by
  induction scope using Nat.strongRecOn with
  | _ scope ih =>
    rcases represents.exists_scope there with ⟨s, found, isScope⟩
    rw [lookup, found, ScopeTree.nearestId?, isScope.scope]
    simp only [Option.bind_eq_bind, Option.bind_some, isScope.symbols]
    cases here : tree.lookupLocal scope name with
    | some d => rfl
    | none =>
      cases isParent : s.parent with
      | none => rfl
      | some parent =>
        -- both go on to the parent only if it is older, which is what ends the search
        by_cases older : parent < scope
        · simp only [Option.map_none, if_pos older]
          exact ih parent older (by omega)
        · simp only [Option.map_none, if_neg older]

/-- The symbol at a number is the one that was declared with this number. -/
theorem symbols_eq (represents : arena.Represents tree) (indexed : tree.Indexed) (id : Nat) :
    arena.symbols[id]? = tree.symbol? id := by
  have ids : tree.declarations.reverse.map Declaration.id = List.range tree.declarations.length :=
    indexed
  rw [← Array.getElem?_toList, represents.symbols, List.getElem?_map]
  cases there : tree.declarations.reverse[id]? with
  | some d =>
    have inside : id < tree.declarations.length := by
      simpa using (List.getElem?_eq_some_iff.1 there).1
    -- numbers count up from the oldest declaration, so they are indices into the reversed list
    have isId : d.id = id := by
      have number := congrArg (·[id]?) ids
      simp only [List.getElem?_map, there, Option.map_some, List.getElem?_range inside] at number
      exact Option.some.inj number
    rw [← isId]
    exact (indexed.symbol?_eq_some (List.mem_reverse.1 (List.mem_of_getElem? there))).symm
  | none =>
    have behind : tree.declarations.length ≤ id := by
      simpa using List.getElem?_eq_none_iff.1 there
    have missing : tree.declaration? id = none := by
      rw [ScopeTree.declaration?, List.find?_eq_none]
      intro d member isId
      have listed : d.id ∈ tree.declarations.reverse.map Declaration.id :=
        List.mem_map_of_mem (List.mem_reverse.2 member)
      rw [ids, List.mem_range, of_decide_eq_true isId] at listed
      omega
    rw [ScopeTree.symbol?, missing]

/-- Searching for a kind walks up the same chain. -/
theorem lookupKind_eq_kindId? (represents : arena.Represents tree) (indexed : tree.Indexed)
    (kind : SymbolKind) {scope : Nat} (there : scope < tree.scopes.length) (name : String) :
    arena.lookupKind kind scope name = tree.kindId? kind scope name := by
  have same (found : Option Nat) : arena.ofKind kind found = tree.ofKind? kind found := by
    cases found with
    | none => rfl
    | some id => rw [ofKind, ScopeTree.ofKind?, represents.symbols_eq indexed]
  rw [lookupKind, ScopeTree.kindId?, represents.lookup_eq_nearestId? name there]
  simp only [same]

/-- A unique name is found in the list of symbols. -/
theorem byUnique?_eq (represents : arena.Represents tree) (indexed : tree.Indexed)
    (unique : String) :
    arena.byUnique? unique = some ((tree.byUnique? unique).map Declaration.symbol) := by
  rw [byUnique?, represents.unique]
  cases found : tree.byUnique? unique with
  | none => rfl
  | some d =>
    have symbol := represents.symbols_eq indexed d.id
    rw [indexed.symbol?_eq_some (List.mem_of_find?_eq_some found)] at symbol
    simp only [Option.map_some, symbol]
    rfl

end ScopeArena.Represents

/-- The arena is asked for nothing that is missing, and gives the answers of the scope tree. -/
structure ScopeArena.AnswersAs (arena : ScopeArena) (tree : ScopeTree) : Prop where
  lookupLocal : ∀ scope < tree.scopes.length, ∀ name,
    arena.lookupLocal scope name = some ((tree.lookupLocal scope name).map Declaration.id)
  lookup : ∀ scope < tree.scopes.length, ∀ name,
    arena.lookup name scope = some ((tree.lookup scope name).map Declaration.id)
  lookupKind : ∀ kind, ∀ scope < tree.scopes.length, ∀ name,
    arena.lookupKind kind scope name = some ((tree.lookupKind kind scope name).map Declaration.id)
  byUnique? : ∀ unique,
    arena.byUnique? unique = some ((tree.byUnique? unique).map Declaration.symbol)

/-- After any changes in scopes that are there, the arena has numbered scopes and symbols as the
scope tree has, its tables hold what the tree says, and it answers every question as the tree
does. -/
theorem ScopeArena.run_represents {changes : List ScopeChange}
    (inRange : ScopeTree.initial.InRange changes) :
    ∃ arena, ScopeArena.initial.run changes =
        some ((ScopeTree.initial.history changes).map ScopeEvent.number, arena) ∧
      arena.Represents (ScopeTree.initial.run changes) ∧
      arena.AnswersAs (ScopeTree.initial.run changes) := by
  rcases represents_initial.run inRange with ⟨arena, ran, represents⟩
  have follows := ScopeTree.follows_history inRange
  -- lookups climb to the global scope, so every scope on the way has to be there
  have rooted {scope : Nat} (there : scope < (ScopeTree.initial.run changes).scopes.length) :
      (ScopeTree.initial.run changes).Rooted scope := by
    rcases follows.exists_ancestry there with ⟨path, around⟩
    exact follows.rooted around
  refine ⟨arena, ran, represents, ?_⟩
  constructor
  case lookupLocal => exact fun scope there name => represents.lookupLocal_eq there name
  case lookup =>
    intro scope there name
    rw [represents.lookup_eq_nearestId? name there]
    exact (rooted there).nearestId?_eq name
  case lookupKind =>
    intro kind scope there name
    rw [represents.lookupKind_eq_kindId? follows.indexed kind there]
    exact ScopeTree.Ready.kindId?_eq ⟨follows.indexed, rooted there⟩ kind name
  case byUnique? => exact represents.byUnique?_eq follows.indexed

/-! ## The scope tree of a program -/

namespace ScopeTree

/-- The tree is grown from the global scope by changes in scopes that are there. -/
def Grown (tree : ScopeTree) : Prop :=
  ∃ changes, initial.InRange changes ∧ initial.run changes = tree

namespace Grown

variable {tree : ScopeTree}

/-- A change of an open scope keeps the tree grown. -/
theorem apply (grown : tree.Grown) {c : ScopeChange} (there : c.scope < tree.scopes.length) :
    (tree.apply c).Grown := by
  rcases grown with ⟨changes, inRange, rfl⟩
  refine ⟨changes ++ [c], ?_, ?_⟩
  · intro site member
    rw [along_append, List.mem_append] at member
    rcases member with before | last
    · exact inRange site before
    · cases List.mem_singleton.1 last
      exact there
  · rw [ScopeTree.run, List.foldl_append]
    rfl

/-- Hoisting is opening a scope and declaring in another. -/
theorem hoist (grown : tree.Grown) {f : Placed FunctionDecl}
    (there : f.outer < tree.scopes.length) : (tree.hoist f).Grown := by
  have opened := grown.apply (c := .addScope f.outer f.value.name.source) there
  have still : f.outer < (tree.addScope f.outer f.value.name.source).2.scopes.length :=
    Nat.lt_succ_of_lt there
  unfold ScopeTree.hoist
  dsimp only
  split
  · exact opened
  · exact opened.apply (c := .declare f.outer _) still

/-- Declaring a variable is a change or none. -/
theorem declareVariable (grown : tree.Grown) {scope : Nat} (there : scope < tree.scopes.length)
    (entry : Name × ValueType) : (tree.declareVariable scope entry).Grown := by
  unfold ScopeTree.declareVariable
  dsimp only
  split
  · exact grown
  · exact grown.apply (c := .declare scope _) there

theorem foldl_declareVariable (grown : tree.Grown) {scope : Nat}
    (there : scope < tree.scopes.length) (entries : List (Name × ValueType)) :
    (entries.foldl (ScopeTree.declareVariable · scope) tree).Grown := by
  induction entries generalizing tree with
  | nil => exact grown
  | cons entry entries ih =>
    exact ih (grown.declareVariable there entry) (by rwa [scopes_declareVariable])

/-- Each function is hoisted into a scope that is there, its own number being the next one. -/
theorem foldl_hoist (grown : tree.Grown) {fs : List (Placed FunctionDecl)}
    (numbered : fs.map Placed.own = List.range' tree.scopes.length fs.length)
    (below : ∀ f ∈ fs, f.outer < f.own) : (fs.foldl ScopeTree.hoist tree).Grown := by
  induction fs generalizing tree with
  | nil => exact grown
  | cons f fs ih =>
    rw [List.map_cons, List.length_cons, List.range'_succ, List.cons.injEq] at numbered
    rcases numbered with ⟨own, numbered⟩
    have opened : (tree.hoist f).scopes.length = tree.scopes.length + 1 := by
      rw [scopes_hoist, List.length_cons]
    refine ih (grown.hoist (own ▸ below f List.mem_cons_self)) ?_ ?_
    · rwa [opened]
    · exact fun g member => below g (List.mem_cons_of_mem f member)

/-- The scopes of all functions are open before variables are declared. -/
theorem foldl_declareVariables (grown : tree.Grown) {fs : List (Placed FunctionDecl)}
    (there : ∀ f ∈ fs, f.own < tree.scopes.length) :
    (fs.foldl ScopeTree.declareVariables tree).Grown := by
  induction fs generalizing tree with
  | nil => exact grown
  | cons f fs ih =>
    refine ih (grown.foldl_declareVariable (there f List.mem_cons_self) f.value.entries) ?_
    intro g member
    rw [ScopeTree.declareVariables, scopes_foldl_declareVariable]
    exact there g (List.mem_cons_of_mem f member)

end Grown

end ScopeTree

namespace Program

/-- The scope tree is built by such changes. -/
theorem grown_scopeTree (p : Program) : p.scopeTree.Grown := by
  -- scopes are opened in the order of their numbers, so the scope around a function is there before
  -- it
  have numbered : p.placed.toList.map Placed.own =
      List.range' ScopeTree.initial.scopes.length p.placed.toList.length := by
    rw [p.map_own_placed, p.length_placed]
    rfl
  have below : ∀ f ∈ p.placed.toList, f.outer < f.own := fun f member =>
    (p.functions.outer_place Nat.zero_lt_one f member).2.1
  have hoisted : p.hoisted.Grown :=
    ScopeTree.Grown.foldl_hoist ⟨[], by simp [ScopeTree.InRange, along], rfl⟩ numbered below
  have length : p.hoisted.scopes.length = 1 + p.functions.size := by
    rw [Program.hoisted, ScopeTree.length_foldl_hoist, p.length_placed]
    rfl
  have withGlobals : p.withGlobals.Grown :=
    hoisted.foldl_declareVariable (by simp only [ScopeTree.global]; omega) _
  apply withGlobals.foldl_declareVariables
  intro f member
  rw [Program.withGlobals, ScopeTree.scopes_foldl_declareVariable, length]
  have isOwn : f.own ∈ p.placed.toList.map Placed.own := List.mem_map_of_mem member
  rw [p.map_own_placed, List.mem_range'_1] at isOwn
  omega

/-- Resolving a program could keep its scopes in an arena: the same changes lead to tables that hold
what the scope tree of the program says. -/
theorem exists_arena (p : Program) : ∃ changes arena,
    ScopeArena.initial.run changes =
        some ((ScopeTree.initial.history changes).map ScopeEvent.number, arena) ∧
      ScopeTree.initial.run changes = p.scopeTree ∧
      arena.Represents p.scopeTree ∧ arena.AnswersAs p.scopeTree := by
  rcases p.grown_scopeTree with ⟨changes, inRange, grows⟩
  rcases ScopeArena.run_represents inRange with ⟨arena, ran, represents, answers⟩
  rw [grows] at represents answers
  exact ⟨changes, arena, ran, grows, represents, answers⟩

end Program

end SplBasic
