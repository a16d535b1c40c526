import SplBasic.Proofs.RelabelledScopes
import SplBasic.Proofs.SourceTexts
import SplBasic.Proofs.Untagged

/-!
# Passes run again

Resolving sets the texts of names and reads their tokens only; checking types sets tags and reads
texts only. So neither disturbs the other, and neither disturbs itself: whatever passes were run on
a program before, another one does what it did the first time.

* `Program.Redeclares` : one program has the declared and used tokens of another,
* `resolve_untag`, `resolve_resolve` : resolving looks at no tag, and not at its own result,
* `Session` : a program and a scope tree that passes are run on,
* `Session.behind_run` : what all sessions look like, up to tags,
* `passes_repeatable` : the passes in any order.
-/

namespace SplBasic

/-! ## Walks over what a walk left behind -/

section Walks

variable {α σ : Type} {step : σ → α → σ} {g : σ × α → α}

/-- A second walk over what a first one made comes through the same states. -/
theorem along_map_along (keeps : ∀ s x, step s (g x) = step s x.2) (s : σ) (xs : List α) :
    along step s ((along step s xs).map g) = (along step s xs).map fun x => (x.1, g x) := by
  induction xs generalizing s with
  | nil => rfl
  | cons x xs ih => rw [along, List.map_cons, along, keeps, ih, List.map_cons]

theorem Forest.along_map_along (keeps : ∀ s x, step s (g x) = step s x.2) (s : σ) (f : Forest α) :
    ((f.along step s).map g).along step s = (f.along step s).map fun x => (x.1, g x) := by
  -- the second walk also has to end where the first one did
  have walks : ((f.walk step s).2.map g).walk step s =
      ((f.walk step s).1, (f.walk step s).2.map fun x => (x.1, g x)) := by
    induction f generalizing s with
    | nil => rfl
    | cons root children rest ihChildren ihRest => simp only [walk, map, keeps, ihChildren, ihRest]
  rw [along, along, walks]

/-- What settles once is settled by the same walk again. -/
theorem Triple.map_along_again (keeps : ∀ s x, step s (g x) = step s x.2)
    (settled : ∀ s x, g (s, g (s, x)) = g (s, x)) (s : σ) (t : Triple α) :
    (((t.along step s).map g).along step s).map g = (t.along step s).map g := by
  simp only [Triple.map, Triple.along, keeps, settled]

end Walks

/-! ## Programs with the same tokens -/

/-- The name that its token reads as. -/
def Name.fresh (name : Name) : Name :=
  .ofToken name.token

def NameUse.fresh : NameUse → NameUse :=
  NameUse.mapNames Name.fresh Name.fresh

def entryToken (entry : Name × ValueType) : Token × ValueType :=
  (entry.1.token, entry.2)

/-- Two functions declare and use the same tokens. -/
structure FunctionDecl.Alike (f g : FunctionDecl) : Prop where
  name : f.name.token = g.name.token
  returnType : f.returnType = g.returnType
  entries : f.entries.map entryToken = g.entries.map entryToken
  uses : f.body.commands.uses.map NameUse.fresh = g.body.commands.uses.map NameUse.fresh

namespace ScopeTree

variable (tree : ScopeTree) (scope : Nat)

/-- Hoisting looks at the place of a function, its name and its return type only. -/
theorem hoist_congr {f g : Placed FunctionDecl} (outer : f.outer = g.outer)
    (alike : f.value.Alike g.value) : tree.hoist f = tree.hoist g := by
  rcases f with ⟨_, _, ⟨_, _, ⟨_, _, _⟩, _, _, _, _⟩⟩
  rcases g with ⟨_, _, ⟨_, _, ⟨_, _, _⟩, _, _, _, _⟩⟩
  rcases alike with ⟨⟨⟩, ⟨⟩, -, -⟩
  cases outer
  rfl

/-- What speaks against a function depends on its token alone. -/
theorem functionObjection_congr {name name' : Name} (same : name.token = name'.token) :
    tree.functionObjection scope name = tree.functionObjection scope name' := by
  rcases name with ⟨_, _, _⟩
  rcases name' with ⟨_, _, _⟩
  cases same
  rfl

/-- Declaring variables looks at tokens and types only. -/
theorem foldl_declareVariable_congr {entries entries' : List (Name × ValueType)}
    (same : entries.map entryToken = entries'.map entryToken) :
    entries.foldl (declareVariable · scope) tree =
      entries'.foldl (declareVariable · scope) tree := by
  have byToken (entries : List (Name × ValueType)) :
      entries.foldl (declareVariable · scope) tree =
        (entries.map entryToken).foldl
          (fun tree entry => tree.declareVariable scope (.ofToken entry.1, entry.2)) tree := by
    rw [List.foldl_map]
    rfl
  rw [byToken, byToken, same]

/-- So do the problems with them. -/
theorem variableProblems_congr {entries entries' : List (Name × ValueType)}
    (same : entries.map entryToken = entries'.map entryToken) :
    tree.variableProblems scope entries = tree.variableProblems scope entries' := by
  have byToken (entries : List (Name × ValueType)) :
      tree.variableProblems scope entries =
        (along (fun tree entry => tree.declareVariable scope (.ofToken entry.1, entry.2)) tree
          (entries.map entryToken)).filterMap fun (tree, token, _) =>
            (tree.variableObjection scope (.ofToken token)).map (⟨·, token.pos⟩) := by
    rw [along_map, List.filterMap_map]
    rfl
  rw [byToken, byToken, same]

/-- A used name is judged by its token, whatever text and tag it has. -/
theorem useObjection_fresh (use : NameUse) :
    tree.useObjection scope use.fresh = tree.useObjection scope use := by
  have same : tree.referent scope use.fresh = tree.referent scope use := by
    cases use with
    | «variable» n => rfl
    | callee n => rfl
  unfold useObjection
  rw [same]
  cases tree.referent scope use with
  | some d => rfl
  | none =>
    cases use with
    | «variable» n => rfl
    | callee n => rfl

/-- The problems of a block depend on the tokens of the names it uses. -/
theorem blockProblems_congr {block block' : Block}
    (same : block.commands.uses.map NameUse.fresh = block'.commands.uses.map NameUse.fresh) :
    tree.blockProblems scope block = tree.blockProblems scope block' := by
  have byToken (block : Block) : tree.blockProblems scope block =
      (block.commands.uses.map NameUse.fresh).filterMap (tree.useObjection scope) := by
    rw [List.filterMap_map]
    exact congrArg (block.commands.uses.filterMap ·)
      (funext fun use => (tree.useObjection_fresh scope use).symm)
  rw [byToken, byToken, same]

end ScopeTree

namespace Program

/-- The program `q` has the tokens of `p`, and its functions are made by `h` of those of `p`. -/
structure Redeclares (q p : Program) (h : ScopeTree × Placed FunctionDecl → FunctionDecl) :
    Prop where
  globals : (q.globals.map VarDecl.entry).map entryToken =
    (p.globals.map VarDecl.entry).map entryToken
  uses : q.block.commands.uses.map NameUse.fresh = p.block.commands.uses.map NameUse.fresh
  functions : q.functions = p.sites.map h
  alike : ∀ site, (h site).Alike site.2.value

namespace Redeclares

variable {p q : Program} {h : ScopeTree × Placed FunctionDecl → FunctionDecl}

/-- The functions have the same places. -/
theorem placed (same : q.Redeclares p h) :
    q.placed = p.sites.map fun site => ⟨site.2.own, site.2.outer, h site⟩ := by
  rw [Program.placed, same.functions, place_map_sites]

/-- All functions are hoisted to the same tree. -/
theorem hoisted (same : q.Redeclares p h) : q.hoisted = p.hoisted := by
  calc q.hoisted
      = p.sites.toList.foldl (fun tree site => tree.hoist ⟨site.2.own, site.2.outer, h site⟩)
          .initial := by
        rw [Program.hoisted, same.placed, Forest.toList_map, List.foldl_map]
    _ = p.sites.toList.foldl (fun tree site => tree.hoist site.2) .initial :=
        List.foldl_ext _ _ _ fun tree site _ => tree.hoist_congr rfl (same.alike site)
    _ = p.hoisted := by
        rw [Program.hoisted, p.placed_eq_sites, Forest.toList_map, List.foldl_map]

/-- The same global variables are declared. -/
theorem withGlobals (same : q.Redeclares p h) : q.withGlobals = p.withGlobals := by
  rw [Program.withGlobals, Program.withGlobals, same.hoisted,
    ScopeTree.foldl_declareVariable_congr _ _ same.globals]

theorem declareVariables (same : q.Redeclares p h) (tree : ScopeTree)
    (site : ScopeTree × Placed FunctionDecl) :
    tree.declareVariables ⟨site.2.own, site.2.outer, h site⟩ = tree.declareVariables site.2 :=
  tree.foldl_declareVariable_congr _ (same.alike site).entries

/-- Each function is reached with the same tree. -/
theorem sites (same : q.Redeclares p h) :
    q.sites = p.sites.map fun site => (site.1, ⟨site.2.own, site.2.outer, h site⟩) := by
  rw [Program.sites, same.placed, same.withGlobals]
  exact Forest.along_map_along same.declareVariables p.withGlobals p.placed

/-- The complete trees are the same. -/
theorem scopeTree (same : q.Redeclares p h) : q.scopeTree = p.scopeTree := by
  calc q.scopeTree
      = p.sites.toList.foldl
          (fun tree site => tree.declareVariables ⟨site.2.own, site.2.outer, h site⟩)
          p.withGlobals := by
        rw [Program.scopeTree, same.placed, same.withGlobals, Forest.toList_map, List.foldl_map]
    _ = p.sites.toList.foldl (fun tree site => tree.declareVariables site.2) p.withGlobals :=
        List.foldl_ext _ _ _ fun tree site _ => same.declareVariables tree site
    _ = p.scopeTree := by
        rw [Program.scopeTree, p.placed_eq_sites, Forest.toList_map, List.foldl_map]

/-- So are all problems. -/
theorem scopeProblems (same : q.Redeclares p h) (tree : ScopeTree) :
    q.scopeProblems tree = p.scopeProblems tree := by
  have decl (site : ScopeTree × Placed FunctionDecl) :
      tree.declProblems site.1 ⟨site.2.own, site.2.outer, h site⟩ =
        tree.declProblems site.1 site.2 := by
    have alike := same.alike site
    simp only [ScopeTree.declProblems, Name.pos, alike.name,
      tree.functionObjection_congr _ alike.name, ScopeTree.variableProblems_congr _ _ alike.entries,
      ScopeTree.blockProblems_congr _ _ alike.uses]
  rw [Program.scopeProblems, Program.scopeProblems, same.hoisted, same.sites, Forest.toList_map,
    List.flatMap_map, ScopeTree.variableProblems_congr _ _ same.globals,
    ScopeTree.blockProblems_congr _ _ same.uses]
  simp only [decl]

end Redeclares

end Program

/-! ## Resolving looks at no tag -/

namespace ScopeTree

variable (tree : ScopeTree) (scope : Nat)

/-- A variable is settled whatever its tag. -/
theorem settleVariable_withTag (name : Name) (ty : Ty) :
    tree.settleVariable scope (name.withTag ty) = (tree.settleVariable scope name).withTag ty := by
  have same : tree.variableObjection scope (name.withTag ty) = tree.variableObjection scope name :=
    rfl
  rw [settleVariable, settleVariable, same]
  split
  · rfl
  · rfl

theorem bindFunction_withTag (name : Name) (ty : Ty) :
    tree.bindFunction scope (name.withTag ty) = (tree.bindFunction scope name).withTag ty := by
  have same : tree.functionEntry scope (name.withTag ty) = tree.functionEntry scope name := rfl
  rw [bindFunction, bindFunction, same]
  cases tree.functionEntry scope name with
  | none => rfl
  | some d => rfl

theorem rename_withTag (name : Name) (ty : Ty) (found : Option Declaration) :
    rename (name.withTag ty) found = (rename name found).withTag ty := by
  cases found with
  | none => rfl
  | some d => rfl

theorem bindBlock_untag (block : Block) :
    tree.bindBlock scope (block.map .untag) = (tree.bindBlock scope block).map .untag :=
  block.mapNames_map (fun name => rename_withTag name _ _) (fun name => rename_withTag name _ _)

theorem settle_untag (decl : VarDecl) :
    (decl.map .untag).settle scope tree = (decl.settle scope tree).map .untag :=
  congrArg (VarDecl.mk decl.typeToken decl.type) (tree.settleVariable_withTag scope decl.name _)

/-- Binding a function and taking its tags away commute. -/
theorem bindDecl_untag (before : ScopeTree) (f : Placed FunctionDecl) :
    tree.bindDecl before ⟨f.own, f.outer, f.value.map .untag⟩ =
      (tree.bindDecl before f).map .untag := by
  let addParam := fun (tree : ScopeTree) name => tree.declareVariable f.own (name, .num)
  let addLocal := fun (tree : ScopeTree) (decl : VarDecl) => tree.declareVariable f.own decl.entry
  have params (before : ScopeTree) :
      ((f.value.params.map (Name.withTag · .unknown)).along addParam before).map
          (fun site => site.1.settleVariable f.own site.2) =
        ((f.value.params.along addParam before).map
          fun site => site.1.settleVariable f.own site.2).map (Name.withTag · .unknown) :=
    f.value.params.along_commutes (h := id) (r := (Name.withTag · .unknown)) (fun _ _ _ => rfl)
      (fun name _ tree => tree.settleVariable_withTag f.own name .unknown) before
  have locals (before : ScopeTree) :
      ((f.value.locals.map (VarDecl.map .untag)).along addLocal before).map
          (fun site => site.2.settle f.own site.1) =
        ((f.value.locals.along addLocal before).map
          fun site => site.2.settle f.own site.1).map (VarDecl.map .untag) :=
    f.value.locals.along_commutes (h := id) (r := VarDecl.map .untag) (fun _ _ _ => rfl)
      (fun decl _ tree => tree.settle_untag f.own decl) before
  exact (FunctionDecl.mk.injEq _ _ _ _ _ _ _ _ _ _ _ _ _ _).mpr
    ⟨rfl, rfl, tree.bindFunction_withTag f.outer f.value.name _, params before, locals _,
      tree.bindBlock_untag f.own f.value.body, rfl⟩

end ScopeTree

theorem NameUse.fresh_untag (use : NameUse) : use.untag.fresh = use.fresh := by
  cases use with
  | «variable» n => rfl
  | callee n => rfl

theorem Commands.fresh_untag (cs : Commands) :
    (cs.map .untag).uses.map NameUse.fresh = cs.uses.map NameUse.fresh := by
  rw [uses_untag, List.map_map]
  exact congrArg (cs.uses.map ·) (funext NameUse.fresh_untag)

namespace Program

theorem functions_eq_map_sites (p : Program) :
    p.functions = p.sites.map fun site => site.2.value := by
  rw [← p.functions.map_value_placed 0 1, show p.functions.place 0 1 = _ from p.placed_eq_sites,
    Forest.map_map]
  rfl

/-- A program without tags has the same tokens. -/
theorem redeclares_untag (p : Program) :
    p.untag.Redeclares p fun site => site.2.value.map .untag where
  globals := by
    rw [untag, map, List.map_map, List.map_map, List.map_map]
    rfl
  uses := p.block.commands.fresh_untag
  functions := by
    calc
      p.functions.map (FunctionDecl.map .untag)
          = (p.sites.map fun site => site.2.value).map (FunctionDecl.map .untag) := by
        rw [← p.functions_eq_map_sites]
      _ = p.sites.map fun site => site.2.value.map .untag := Forest.map_map _ _ _
  alike site := {
    name := rfl
    returnType := rfl
    entries := rfl
    uses := site.2.value.body.commands.fresh_untag }

/-- Binding names and taking tags away commute. -/
theorem bindNames_untag (p : Program) (tree : ScopeTree) :
    p.untag.bindNames tree = (p.bindNames tree).untag := by
  have globals : (p.untag.bindNames tree).globals =
      (p.bindNames tree).globals.map (VarDecl.map .untag) := by
    let step := fun (tree : ScopeTree) (decl : VarDecl) =>
      tree.declareVariable ScopeTree.global decl.entry
    calc
      (p.untag.bindNames tree).globals
          = (along step p.untag.hoisted (p.globals.map (VarDecl.map .untag))).map fun site =>
            site.2.settle ScopeTree.global site.1 := rfl
      _ = (along step p.hoisted p.globals).map fun site =>
            (site.2.map .untag).settle ScopeTree.global site.1 := by
        -- tags play no role in declaring, so the walk passes the same trees
        rw [p.redeclares_untag.hoisted, along_map, List.map_map]
        rfl
      _ = (p.bindNames tree).globals.map (VarDecl.map .untag) := by
        simp only [ScopeTree.settle_untag, bindNames, List.map_map]
        rfl
  have functions : (p.untag.bindNames tree).functions =
      (p.bindNames tree).functions.map (FunctionDecl.map .untag) := by
    rw [bindNames, p.redeclares_untag.sites, bindNames, Forest.map_map, Forest.map_map]
    exact congrArg (p.sites.map ·) (funext fun site => tree.bindDecl_untag site.1 site.2)
  exact (Program.mk.injEq _ _ _ _ _ _ _ _ _ _).mpr
    ⟨rfl, globals, tree.bindBlock_untag _ p.block, functions, rfl⟩

end Program

/-- Resolving does not look at tags. -/
theorem resolve_untag (p : Program) :
    resolve p.untag = ⟨(resolve p).program.untag, (resolve p).scopes, (resolve p).problems⟩ := by
  simp only [resolve, p.redeclares_untag.scopeTree, p.redeclares_untag.scopeProblems,
    p.bindNames_untag]

/-- Tags do not show in diagnostics. -/
theorem diagnostics_resolve_untag (p : Program) :
    (resolve p.untag).diagnostics = (resolve p).diagnostics := by
  rw [resolve_untag]
  rfl

/-! ## Resolving again -/

namespace ScopeTree

variable (tree : ScopeTree) (scope : Nat)

/-- What was settled stays settled. -/
theorem settleVariable_settleVariable (name : Name) :
    tree.settleVariable scope (tree.settleVariable scope name) = tree.settleVariable scope name := by
  have same : tree.variableObjection scope (tree.settleVariable scope name) =
      tree.variableObjection scope name := by
    unfold settleVariable
    split
    · rfl
    · rfl
  rw [settleVariable, same]
  unfold settleVariable
  split
  · rfl
  · rfl

theorem settle_settle (decl : VarDecl) :
    (decl.settle scope tree).settle scope tree = decl.settle scope tree :=
  congrArg (VarDecl.mk decl.typeToken decl.type)
    (tree.settleVariable_settleVariable scope decl.name)

/-- A settled variable is declared like the one that was read. -/
theorem declareVariable_settled (before : ScopeTree) (name : Name) (type : ValueType) :
    tree.declareVariable scope (before.settleVariable scope name, type) =
      tree.declareVariable scope (name, type) := by
  unfold settleVariable
  split
  · rfl
  · rfl

/-- A bound function stays bound. -/
theorem bindFunction_bindFunction (name : Name) :
    tree.bindFunction scope (tree.bindFunction scope name) = tree.bindFunction scope name := by
  have same : tree.functionEntry scope (tree.bindFunction scope name) =
      tree.functionEntry scope name := by
    unfold bindFunction
    split
    · rfl
    · rfl
  rw [bindFunction, same]
  unfold bindFunction
  cases tree.functionEntry scope name with
  | none => rfl
  | some d => rfl

theorem rename_rename (name : Name) (found : Option Declaration) :
    rename (rename name found) found = rename name found := by
  cases found with
  | none => rfl
  | some d => rfl

theorem bindVariable_bindVariable (name : Name) :
    tree.bindVariable scope (tree.bindVariable scope name) = tree.bindVariable scope name := by
  have same (found : Option Declaration) : tree.referent scope (.variable (rename name found)) =
      tree.referent scope (.variable name) := by
    cases found with
    | none => rfl
    | some d => rfl
  rw [bindVariable, bindVariable, same, rename_rename]

theorem bindCallee_bindCallee (name : Name) :
    tree.bindCallee scope (tree.bindCallee scope name) = tree.bindCallee scope name := by
  have same (found : Option Declaration) : tree.referent scope (.callee (rename name found)) =
      tree.referent scope (.callee name) := by
    cases found with
    | none => rfl
    | some d => rfl
  rw [bindCallee, bindCallee, same, rename_rename]

/-- Binding a block a second time changes nothing. -/
theorem bindBlock_bindBlock (block : Block) :
    tree.bindBlock scope (tree.bindBlock scope block) = tree.bindBlock scope block := by
  have ofVariable : tree.bindVariable scope ∘ tree.bindVariable scope = tree.bindVariable scope :=
    funext (tree.bindVariable_bindVariable scope)
  have ofCallee : tree.bindCallee scope ∘ tree.bindCallee scope = tree.bindCallee scope :=
    funext (tree.bindCallee_bindCallee scope)
  rw [bindBlock, bindBlock, Block.mapNames_mapNames, ofVariable, ofCallee]

/-- Binding a function a second time changes nothing. -/
theorem bindDecl_bindDecl (before : ScopeTree) (f : Placed FunctionDecl) :
    tree.bindDecl before ⟨f.own, f.outer, tree.bindDecl before f⟩ = tree.bindDecl before f := by
  let addParam := fun (tree : ScopeTree) name => tree.declareVariable f.own (name, .num)
  let addLocal := fun (tree : ScopeTree) (decl : VarDecl) => tree.declareVariable f.own decl.entry
  let settled := (tree.bindDecl before f).params
  -- names are looked up by how they were read, so each entry is declared as it was before
  have params : (settled.along addParam before).map
      (fun site => site.1.settleVariable f.own site.2) = settled :=
    f.value.params.map_along_again
      (fun tree site => tree.declareVariable_settled f.own site.1 site.2 .num)
      (fun tree name => tree.settleVariable_settleVariable f.own name) before
  have afterParams : settled.toList.foldl addParam before =
      f.value.params.toList.foldl addParam before := by
    simp only [settled, bindDecl, addParam, Triple.toList, Triple.map, Triple.along,
      List.foldl_cons, List.foldl_nil, declareVariable_settled]
  have locals : ((tree.bindDecl before f).locals.along addLocal
      (settled.toList.foldl addParam before)).map (fun site => site.2.settle f.own site.1) =
        (tree.bindDecl before f).locals := by
    rw [afterParams]
    exact f.value.locals.map_along_again
      (fun tree site => tree.declareVariable_settled f.own site.1 site.2.name site.2.type)
      (fun tree decl => tree.settle_settle f.own decl) _
  exact (FunctionDecl.mk.injEq _ _ _ _ _ _ _ _ _ _ _ _ _ _).mpr
    ⟨rfl, rfl, tree.bindFunction_bindFunction f.outer f.value.name, params, locals,
      tree.bindBlock_bindBlock f.own f.value.body, rfl⟩

/-- Binding keeps the tokens of the names that a block uses. -/
theorem fresh_bindBlock (block : Block) :
    (tree.bindBlock scope block).commands.uses.map NameUse.fresh =
      block.commands.uses.map NameUse.fresh := by
  rw [uses_bindBlock, List.map_map]
  refine congrArg (block.commands.uses.map ·) (funext fun use => ?_)
  cases use with
  | «variable» name => exact congrArg (NameUse.variable ∘ Name.ofToken) (token_rename name _)
  | callee name => exact congrArg (NameUse.callee ∘ Name.ofToken) (token_rename name _)

end ScopeTree

namespace Program

/-- A bound program has the same tokens. -/
theorem redeclares_bindNames (p : Program) (tree : ScopeTree) :
    (p.bindNames tree).Redeclares p fun site => tree.bindDecl site.1 site.2 where
  globals := by
    have frames := congrArg Frame.variableDecls (globalFrame_bindNames tree p)
    rw [List.map_map, List.map_map]
    exact frames
  uses := tree.fresh_bindBlock _ p.block
  functions := rfl
  alike site := {
    name := tree.token_bindFunction _ _
    returnType := rfl
    entries := tree.tokens_entries_bindDecl _ _
    uses := tree.fresh_bindBlock _ site.2.value.body }

/-- Binding the names of a program a second time changes nothing. -/
theorem bindNames_bindNames (p : Program) (tree : ScopeTree) :
    (p.bindNames tree).bindNames tree = p.bindNames tree := by
  have globals : ((p.bindNames tree).bindNames tree).globals = (p.bindNames tree).globals := by
    let step := fun (tree : ScopeTree) (decl : VarDecl) =>
      tree.declareVariable ScopeTree.global decl.entry
    let settle := fun (site : ScopeTree × VarDecl) => site.2.settle ScopeTree.global site.1
    calc
      ((p.bindNames tree).bindNames tree).globals
          = (along step (p.bindNames tree).hoisted
              ((along step p.hoisted p.globals).map settle)).map settle := rfl
      _ = (along step p.hoisted p.globals).map fun site => settle (site.1, settle site) := by
        -- settled declarations declare what the original ones did
        rw [(p.redeclares_bindNames tree).hoisted, along_map_along, List.map_map]
        · rfl
        · intro tree site
          exact tree.declareVariable_settled _ site.1 site.2.name site.2.type
      _ = (p.bindNames tree).globals := by
        simp only [settle, ScopeTree.settle_settle]
        rfl
  have functions :
      ((p.bindNames tree).bindNames tree).functions = (p.bindNames tree).functions := by
    rw [bindNames, (p.redeclares_bindNames tree).sites, bindNames, Forest.map_map]
    exact congrArg (p.sites.map ·) (funext fun site => tree.bindDecl_bindDecl site.1 site.2)
  exact (Program.mk.injEq _ _ _ _ _ _ _ _ _ _).mpr
    ⟨rfl, globals, tree.bindBlock_bindBlock _ p.block, functions, rfl⟩

end Program

/-- Resolving a resolved program changes nothing. -/
theorem resolve_resolve (p : Program) : resolve (resolve p).program = resolve p := by
  have same := p.redeclares_bindNames p.scopeTree
  simp only [resolve, same.scopeTree, same.scopeProblems, p.bindNames_bindNames]

/-! ## Sessions -/

/-- One of the two analyses. -/
inductive Pass
  | resolve | typecheck
  deriving DecidableEq, Repr

/-- A program that passes are run on, and the scope tree that its types are checked against. -/
structure Session where
  program : Program
  scopes : ScopeTree
  deriving DecidableEq, Repr

namespace Session

/-- A program before any pass. Nothing is declared yet. -/
def start (p : Program) : Session :=
  ⟨p, .initial⟩

/-- The session behind a pass. Resolving replaces the scope tree. Problems stop nothing. -/
def step (s : Session) : Pass → Session
  | .resolve => ⟨(resolve s.program).program, (resolve s.program).scopes⟩
  | .typecheck => { s with program := (typecheck s.scopes s.program).program }

/-- The session behind some passes. -/
def run (s : Session) (passes : List Pass) : Session :=
  passes.foldl step s

/-- A session on `p` behind some passes, up to tags: resolving does what it does to `p`, and once
there was a resolving pass, its results stay. -/
structure Behind (p : Program) (passes : List Pass) (s : Session) : Prop where
  resolves : resolve s.program.untag = resolve p.untag
  resolved : .resolve ∈ passes →
    s.scopes = (resolve p).scopes ∧ s.program.untag = (resolve p).program.untag

/-- A session that has just resolved its names. -/
theorem Behind.of_resolved {p : Program} {s : Session} (passes : List Pass)
    (scopes : s.scopes = (resolve p).scopes)
    (program : s.program.untag = (resolve p).program.untag) : Behind p passes s where
  resolves := by rw [program, resolve_untag, resolve_resolve, ← resolve_untag]
  resolved _ := ⟨scopes, program⟩

/-- Each pass keeps what is known behind the passes before it. -/
theorem Behind.step {p : Program} {passes : List Pass} {s : Session} (behind : Behind p passes s)
    (pass : Pass) : Behind p (passes ++ [pass]) (s.step pass) := by
  cases pass with
  | resolve =>
    -- tags do not matter to resolving, so the invariant can be read with tags
    have same := behind.resolves
    rw [resolve_untag, resolve_untag, Resolution.mk.injEq] at same
    exact .of_resolved _ same.2.1 same.1
  | typecheck =>
    have untag : (s.step .typecheck).program.untag = s.program.untag := Program.untag_annotate _ _
    refine ⟨by rw [untag, behind.resolves], fun member => ?_⟩
    rw [untag]
    refine behind.resolved ?_
    simpa using member

/-- So it is known behind any run of passes. -/
theorem Behind.run {p : Program} {passes : List Pass} {s : Session} (behind : Behind p passes s)
    (more : List Pass) : Behind p (passes ++ more) (s.run more) := by
  induction more generalizing passes s with
  | nil => rwa [List.append_nil]
  | cons pass more ih =>
    rw [List.append_cons]
    exact ih (behind.step pass)

theorem behind_start (p : Program) : Behind p [] (start p) :=
  ⟨rfl, fun member => absurd member List.not_mem_nil⟩

/-- Whatever passes were run on a program, what is known behind them holds. -/
theorem behind_run (p : Program) (passes : List Pass) : Behind p passes ((start p).run passes) :=
  (behind_start p).run passes

end Session

/-- Passes can be repeated in any order. Whatever `passes` were run on a program before, resolving
returns the scope tree and the diagnostics that it returned the first time. Once names have been
resolved, checking types returns the flag and the diagnostics and leaves the program that it did
right behind the first resolving, and lowering gives the same text. Resolving changes nothing but
texts, and checking types changes nothing but tags. -/
theorem passes_repeatable (p : Program) (passes : List Pass) :
    let s := (Session.start p).run passes
    let first := resolve p
    let firstTyping := typecheck first.scopes first.program
    ((resolve s.program).scopes = first.scopes ∧
      (resolve s.program).diagnostics = first.diagnostics) ∧
    (.resolve ∈ passes →
      ((typecheck s.scopes s.program).ok = firstTyping.ok ∧
        (typecheck s.scopes s.program).diagnostics = firstTyping.diagnostics ∧
        (typecheck s.scopes s.program).program = firstTyping.program) ∧
      s.program.basic = first.program.basic) ∧
    (s.step .resolve).program.asRead = s.program.asRead ∧
    (s.step .typecheck).program.untag = s.program.untag := by
  intro s first firstTyping
  have behind : s.Behind p passes := Session.behind_run p passes
  have scopes : (resolve s.program).scopes = first.scopes := by
    have same := behind.resolves
    rw [resolve_untag, resolve_untag, Resolution.mk.injEq] at same
    exact same.2.1
  have diagnostics : (resolve s.program).diagnostics = first.diagnostics := by
    rw [← diagnostics_resolve_untag, behind.resolves, diagnostics_resolve_untag]
  refine ⟨⟨scopes, diagnostics⟩, ?_, Program.asRead_bindNames _ _, Program.untag_annotate _ _⟩
  intro member
  rcases behind.resolved member with ⟨scopes, program⟩
  -- the session has the names of the first resolving, and old tags are not read
  have typing : typecheck s.scopes s.program = firstTyping := by
    rw [scopes, ← typecheck_untag, program, typecheck_untag]
  refine ⟨by rw [typing]; exact ⟨rfl, rfl, rfl⟩, ?_⟩
  rw [← Program.basic_untag, program, Program.basic_untag]

/-- A program with a variable declared twice, a variable that is not declared, and a number that is
given a text. -/
def faultySource : String :=
  "main num V_x,num V_x begin V_x=V_y;V_x=\"a\" end "

/-- Three problems, found again behind a type check without declarations and a repeated
resolving. -/
theorem passes_repeatable_faultySource :
    ∃ tokens p, tokenize faultySource "t.spl" = .ok tokens ∧ parse tokens = .ok p ∧
      let s := (Session.start p).run [.typecheck, .resolve, .typecheck, .resolve]
      (resolve s.program).diagnostics.map Diagnostic.pos = [⟨1, 18⟩, ⟨1, 32⟩] ∧
      (typecheck s.scopes s.program).diagnostics.map Diagnostic.pos = [⟨1, 32⟩, ⟨1, 36⟩] := by
  have reported : (readProgram? faultySource "t.spl").any (fun p =>
      let first := resolve p
      first.diagnostics.map Diagnostic.pos = [⟨1, 18⟩, ⟨1, 32⟩] &&
        (typecheck first.scopes first.program).diagnostics.map Diagnostic.pos =
          [⟨1, 32⟩, ⟨1, 36⟩]) = true := by
    decide +kernel
  rcases exists_of_readProgram? reported with ⟨tokens, p, read, parsed, places⟩
  simp only [Bool.and_eq_true, decide_eq_true_eq] at places
  have repeated := passes_repeatable p [.typecheck, .resolve, .typecheck, .resolve]
  refine ⟨tokens, p, read, parsed, ?_, ?_⟩
  · rw [repeated.1.2, places.1]
  · rw [(repeated.2.1 (by simp)).1.2.1, places.2]

end SplBasic
