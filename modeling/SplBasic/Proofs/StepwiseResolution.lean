import SplBasic.Proofs.ScopeWalk

/-!
# Resolving step by step and all at once

The walk over a program judges every name by the scope tree it has at that moment, and `resolve`
judges it by the complete tree. Both agree, because what is declared later stands in scopes that are
not around the name (`ScopeTree.SameFrom`).

* `Program.walk_eq_resolve` : the walk never stops early, and it ends with what `resolve` returns,
* `resolve_mirrors_program` : the scope tree of a program.
-/

namespace SplBasic

/-! ## Scopes are there -/

namespace ScopeTree

/-- The scopes of placed functions are in the tree. -/
theorem Mirrors.scope?_of_mem {tree : ScopeTree} {outer level next : Nat} {own : List Nat}
    {forest : Forest FunctionDecl} (mirrors : tree.Mirrors outer level next own forest)
    {f : Placed FunctionDecl} (member : f ∈ (forest.place outer next).toList) :
    ∃ level, tree.scope? f.own = some ⟨f.own, f.value.name.source, level, some f.outer⟩ := by
  induction mirrors with
  | nil => cases member
  | cons opened _ _ ihInner ihRest =>
    rcases List.mem_cons.1 member with rfl | below
    · exact ⟨_, opened⟩
    · exact (List.mem_append.1 below).elim ihInner ihRest

/-- What is mirrored depends on the scopes only. -/
theorem Mirrors.congr {tree tree' : ScopeTree} {outer level next : Nat} {own : List Nat}
    {forest : Forest FunctionDecl} (mirrors : tree.Mirrors outer level next own forest)
    (same : tree'.scopes = tree.scopes) : tree'.Mirrors outer level next own forest := by
  induction mirrors with
  | nil => exact .nil
  | @cons outer level next own f inner rest opened _ _ ihInner ihRest =>
    have children : tree'.children next = tree.children next := by
      rw [ScopeTree.children, same, ScopeTree.children]
    refine .cons ?_ (children ▸ ihInner) ihRest
    rw [scope?, same]
    exact opened

end ScopeTree

namespace Program

variable (p : Program)

theorem rooted_global : p.hoisted.Rooted ScopeTree.global := by
  rcases p.scopes_hoisted.1 with ⟨chain, found⟩
  exact .top (s := ⟨0, "global", 0, none⟩) found rfl chain

/-- Each placed function leads up to the global scope. -/
theorem rooted_of_mem {f : Placed FunctionDecl} (member : f ∈ p.placed.toList) :
    p.hoisted.Rooted f.outer ∧ p.hoisted.Rooted f.own := by
  -- strong induction on the number of the function: the function around it has a smaller one
  induction number : f.own using Nat.strongRecOn generalizing f with
  | _ n ih =>
    subst number
    have older : f.outer < f.own := (p.functions.outer_place Nat.zero_lt_one f member).2.1
    have around : p.hoisted.Rooted f.outer := by
      by_cases top : f.outer = ScopeTree.global
      · rw [top]
        exact p.rooted_global
      · rcases p.functions.exists_own_eq_outer Nat.zero_lt_one member top with ⟨g, isPlaced, own⟩
        exact (ih f.outer older isPlaced own).2
    rcases p.mirrors_hoisted.scope?_of_mem member with ⟨level, found⟩
    rcases p.scopes_hoisted.2 f member with ⟨scope, _, _, again, chain⟩
    cases found.symm.trans again
    exact ⟨around, .inner (s := ⟨f.own, f.value.name.source, level, some f.outer⟩) found rfl older
      chain around⟩

theorem indexed_hoisted : p.hoisted.Indexed :=
  ScopeTree.Indexed.initial.foldl_hoist _

end Program

/-! ## Judging at once and judging in the end -/

namespace ScopeTree

/-- Two trees that answer all questions from a scope in the same way. -/
structure SameFrom (tree tree' : ScopeTree) (scope : Nat) : Prop where
  scopes : tree'.scopes = tree.scopes
  lookupLocal : ∀ s ∈ tree.chain scope, ∀ name,
    tree'.lookupLocal s.id name = tree.lookupLocal s.id name

namespace SameFrom

variable {tree tree' : ScopeTree} {scope : Nat}

/-- Declaring the variables of younger scopes changes nothing for a scope. -/
theorem foldl_declareVariables (rooted : tree.Rooted scope) {fs : List (Placed FunctionDecl)}
    (younger : ∀ f ∈ fs, scope < f.own) :
    tree.SameFrom (fs.foldl declareVariables tree) scope := by
  refine ⟨tree.scopes_foldl_declareVariables fs, fun s member name => ?_⟩
  have older := rooted.id_le_of_mem_chain member
  refine lookupLocal_foldl_declareVariables_of_ne tree (fun f listed => ?_) name
  have := younger f listed
  omega

/-- What is found from a scope depends on the chain above it only. -/
theorem lookupKind (same : tree.SameFrom tree' scope) (kind : SymbolKind) (name : String) :
    tree'.lookupKind kind scope name = tree.lookupKind kind scope name := by
  have chain : tree'.chain scope = tree.chain scope := by
    rw [ScopeTree.chain, same.scopes, ScopeTree.chain]
  have answers : (tree.chain scope).filterMap (fun s => tree'.lookupLocal s.id name) =
      (tree.chain scope).filterMap fun s => tree.lookupLocal s.id name :=
    List.filterMap_congr fun s member => same.lookupLocal s member name
  have found : tree'.lookup scope name = tree.lookup scope name := by
    calc tree'.lookup scope name
        = ((tree.chain scope).filterMap fun s => tree'.lookupLocal s.id name).head? := by
          rw [lookup_eq_findSome?, chain, List.head?_filterMap]
      _ = ((tree.chain scope).filterMap fun s => tree.lookupLocal s.id name).head? := by
          rw [answers]
      _ = tree.lookup scope name := by rw [lookup_eq_findSome?, List.head?_filterMap]
  rw [ScopeTree.lookupKind, found, ScopeTree.lookupKind]

/-- So does what a name refers to. -/
theorem referent (same : tree.SameFrom tree' scope) (use : NameUse) :
    tree'.referent scope use = tree.referent scope use := by
  cases use with
  | «variable» name => exact same.lookupKind .variable name.source
  | callee name =>
    simp only [ScopeTree.referent, lookupFunction, same.lookupKind]

/-- So does a bound block. -/
theorem bindBlock (same : tree.SameFrom tree' scope) (block : Block) :
    tree'.bindBlock scope block = tree.bindBlock scope block := by
  have ofVariable : tree'.bindVariable scope = tree.bindVariable scope := by
    funext name
    rw [bindVariable, same.referent, bindVariable]
  have ofCallee : tree'.bindCallee scope = tree.bindCallee scope := by
    funext name
    rw [bindCallee, same.referent, bindCallee]
  rw [ScopeTree.bindBlock, ofVariable, ofCallee, ScopeTree.bindBlock]

/-- So do the problems of a block. -/
theorem blockProblems (same : tree.SameFrom tree' scope) (block : Block) :
    tree'.blockProblems scope block = tree.blockProblems scope block := by
  have objection : tree'.useObjection scope = tree.useObjection scope := by
    funext use
    unfold useObjection
    rw [same.referent]
  rw [ScopeTree.blockProblems, objection, ScopeTree.blockProblems]

/-- So does the entry of a function. -/
theorem functionEntry (same : tree.SameFrom tree' scope) (rooted : tree.Rooted scope)
    (name : Name) : tree'.functionEntry scope name = tree.functionEntry scope name := by
  rw [ScopeTree.functionEntry, ScopeTree.functionEntry]
  congr 1
  cases rooted with
  | top _ _ chain => exact same.lookupLocal _ (by simp [chain]) name.source
  | inner _ _ _ chain _ => exact same.lookupLocal _ (by simp [chain]) name.source

theorem bindFunction (same : tree.SameFrom tree' scope) (rooted : tree.Rooted scope)
    (name : Name) : tree'.bindFunction scope name = tree.bindFunction scope name := by
  rw [ScopeTree.bindFunction, same.functionEntry rooted, ScopeTree.bindFunction]

/-- So does the objection to a function. -/
theorem functionObjection (same : tree.SameFrom tree' scope) (rooted : tree.Rooted scope)
    (name : Name) : tree'.functionObjection scope name = tree.functionObjection scope name := by
  have clash : tree'.lookupVariable scope ("V_" ++ name.bare) =
      tree.lookupVariable scope ("V_" ++ name.bare) := same.lookupKind .variable _
  have around : tree'.scope? scope = tree.scope? scope := by rw [scope?, same.scopes, scope?]
  unfold ScopeTree.functionObjection
  rw [same.functionEntry rooted, clash, around]

end SameFrom

end ScopeTree

namespace Program

variable {p : Program}

/-- The functions of a program come in the order of their numbers. -/
theorem own_lt_of_split {f : Placed FunctionDecl} {earlier later : List (Placed FunctionDecl)}
    (split : p.placed.toList = earlier ++ f :: later) : ∀ g ∈ later, f.own < g.own := by
  have ascending : (p.placed.toList.map Placed.own).Pairwise (· < ·) := by
    rw [p.map_own_placed]
    exact List.pairwise_lt_range'
  rw [split, List.map_append, List.map_cons, List.pairwise_append] at ascending
  intro g member
  exact (List.pairwise_cons.1 ascending.2.1).1 g.own (List.mem_map_of_mem member)

/-- What the walk makes of a function when it comes to it is what the complete tree makes of it. -/
theorem bound_of_site {before : ScopeTree} {f : Placed FunctionDecl}
    (site : (before, f) ∈ p.sites.toList) :
    Walk.boundDecl before f = p.scopeTree.bindDecl before f ∧
      Walk.declProblems before f = p.scopeTree.declProblems before f := by
  rcases mem_sites.1 site with ⟨earlier, later, split, rfl⟩
  have member : f ∈ p.placed.toList := placed_of_site site
  have scopes : (earlier.foldl ScopeTree.declareVariables p.withGlobals).scopes =
      p.hoisted.scopes := by
    rw [ScopeTree.scopes_foldl_declareVariables, withGlobals,
      ScopeTree.scopes_foldl_declareVariable]
  have older : f.outer < f.own := (p.functions.outer_place Nat.zero_lt_one f member).2.1
  have later_lt := own_lt_of_split split
  rcases p.rooted_of_mem member with ⟨around, inside⟩
  generalize behind_eq : earlier.foldl ScopeTree.declareVariables p.withGlobals = before at scopes
  have complete : p.scopeTree = (f :: later).foldl ScopeTree.declareVariables before := by
    rw [scopeTree, split, List.foldl_append, behind_eq]
  -- the variables of this function and of the later ones are in scopes that are not around it
  have sameOuter : before.SameFrom p.scopeTree f.outer := by
    rw [complete]
    refine .foldl_declareVariables (around.congr scopes) fun g listed => ?_
    rcases List.mem_cons.1 listed with rfl | isLater
    · exact older
    · exact Nat.lt_trans older (later_lt g isLater)
  have sameOwn : (before.declareVariables f).SameFrom p.scopeTree f.own := by
    rw [complete, List.foldl_cons]
    refine .foldl_declareVariables (inside.congr ?_) later_lt
    rw [ScopeTree.declareVariables, ScopeTree.scopes_foldl_declareVariable, scopes]
  constructor
  · rw [Walk.boundDecl, ScopeTree.bindDecl, ScopeTree.bindDecl,
      sameOuter.bindFunction (around.congr scopes), sameOwn.bindBlock]
  · rw [Walk.declProblems, ScopeTree.declProblems,
      sameOuter.functionObjection (around.congr scopes), sameOwn.blockProblems]

/-- The walk over a program asks only for scopes and symbols that are there, and it ends with what
resolving the program returns. -/
theorem walk_eq_resolve (p : Program) : p.walk = some (resolve p) := by
  have indexed : p.withGlobals.Indexed := p.indexed_hoisted.foldl_declareVariable _ _
  have scopes : p.withGlobals.scopes = p.hoisted.scopes :=
    p.hoisted.scopes_foldl_declareVariable _ _
  have hoisting : Walk.hoistAll ScopeTree.global p.functions ⟨.initial, []⟩ =
      some ((), ⟨p.hoisted, []⟩) :=
    Walk.hoistAll_apply p.functions (s := ⟨0, "global", 0, none⟩) rfl Nat.zero_lt_one
  have globals : p.globals.mapM (Walk.declareDecl ScopeTree.global) ⟨p.hoisted, []⟩ =
      some ((resolve p).program.globals,
        ⟨p.withGlobals,
          p.hoisted.variableProblems ScopeTree.global (p.globals.map VarDecl.entry)⟩) :=
    Walk.list_mapM_apply Walk.declareDecl_apply ⟨p.indexed_hoisted, p.rooted_global⟩ p.globals
  -- the walk resolves the main block before any function has its variables, `resolve` behind all of
  -- them; from the global scope both see the same symbols
  have sameMain : p.withGlobals.SameFrom p.scopeTree ScopeTree.global :=
    .foldl_declareVariables (p.rooted_global.congr scopes) fun f member =>
      (p.functions.outer_place Nat.zero_lt_one f member).2.2.1
  have block (problems : List (Located ScopeError)) :
      Walk.bindBlock ScopeTree.global p.block ⟨p.withGlobals, problems⟩ =
        some ((resolve p).program.block, ⟨p.withGlobals, problems
          ++ p.scopeTree.blockProblems ScopeTree.global p.block⟩) := by
    rw [Walk.bindBlock_apply ⟨indexed, p.rooted_global.congr scopes⟩, ← sameMain.bindBlock,
      ← sameMain.blockProblems]
    rfl
  have children : p.withGlobals.children ScopeTree.global = p.hoisted.children 0 := by
    rw [ScopeTree.children, scopes, ScopeTree.children, ScopeTree.global]
  have functions (problems : List (Located ScopeError)) :
      Walk.bindAll ScopeTree.global (p.hoisted.children 0) p.functions ⟨p.withGlobals, problems⟩ =
        some ((resolve p).program.functions, ⟨p.scopeTree, problems
          ++ p.sites.toList.flatMap fun site => p.scopeTree.declProblems site.1 site.2⟩) := by
    have bound : p.sites.map (fun site => Walk.boundDecl site.1 site.2) =
        (resolve p).program.functions :=
      p.sites.map_congr fun site member => (bound_of_site member).1
    have found : p.sites.toList.flatMap (fun site => Walk.declProblems site.1 site.2) =
        p.sites.toList.flatMap fun site => p.scopeTree.declProblems site.1 site.2 :=
      List.flatMap_congr fun site member => (bound_of_site member).2
    rw [← bound, ← found]
    exact Walk.bindAll_apply p.mirrors_hoisted p.rooted_global
      (fun f member => (p.rooted_of_mem member).2) scopes indexed
  simp only [walk, walkAll, StateT.run, Walk.bind_apply, hoisting, Option.bind_some, globals, block,
    Walk.ask_apply, Option.map_some, children, functions]
  rfl

end Program

/-- Resolving a program, with or without problems, asks only for scopes and symbols that are there,
and its scope tree mirrors the program:

* scope 0 is the global one, and the others are those of the functions in preorder, with their
  names, depths, parents and children,
* the symbols are the functions that are the first of their name in their list, in preorder, and
  behind them the variables that meet no objection, the globals before those of each function in
  preorder,
* each symbol is what exactly one scope has under exactly one name, has the depth of that scope, and
  is found by its unique name. -/
theorem resolve_mirrors_program (p : Program) :
    p.walk = some (resolve p) ∧
    let tree := (resolve p).scopes
    (tree.scope? 0 = some ⟨0, "global", 0, none⟩ ∧
      tree.Mirrors 0 1 1 (tree.children 0) p.functions ∧
      tree.scopes.length = p.functions.size + 1) ∧
    (∃ verdicts : List (Option ScopeError), verdicts.length = p.variableSlots.length ∧
      problemsAbout .variableDecl (resolve p).problems =
        Slot.rejections p.variableSlots verdicts ∧
      tree.declarations.reverse = Slot.declarations 0 1 p.functionSlots
        ++ Slot.declarations p.functionSlots.length 1 (Slot.accepted p.variableSlots verdicts)) ∧
    ∀ d ∈ tree.declarations,
      (∀ s name, tree.lookupLocal s name = some d ↔ s = d.scope ∧ name = d.symbol.name) ∧
      (tree.scope? d.scope).map Scope.level = some d.symbol.level ∧
      tree.byUnique? d.symbol.unique = some d := by
  -- declaring variables opens no scopes, so the nesting is the one after hoisting
  have mirrors := p.mirrors_hoisted.congr p.scopes_scopeTree
  have children : p.scopeTree.children 0 = p.hoisted.children 0 := by
    rw [ScopeTree.children, p.scopes_scopeTree, ScopeTree.children]
  have size : p.scopeTree.scopes.length = p.functions.size + 1 := by
    calc p.scopeTree.scopes.length
        = p.hoisted.scopes.reverse.length := by rw [p.scopes_scopeTree, List.length_reverse]
      _ = (p.functions.scopesFrom 0 1 1).length + 1 := by
          rw [p.scopes_hoisted_eq, List.length_cons]
      _ = p.functions.size + 1 := by rw [Forest.length_scopesFrom]
  refine ⟨p.walk_eq_resolve, ⟨?_, children ▸ mirrors, size⟩,
    ⟨_, p.length_verdicts, (p.rejections_variableSlots p.scopeTree).symm,
      p.declarations_scopeTree⟩, ?_⟩
  · exact (p.scope?_scopeTree 0).trans p.scopes_hoisted.1.2
  · intro d member
    exact ⟨p.registered_scopeTree.lookupLocal_eq_some_iff member, p.level_of_declaration member,
      p.numbered_scopeTree.byUnique?_eq_some member⟩

end SplBasic
