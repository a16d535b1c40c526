import SplBasic.Proofs.StepwiseResolution

/-!
# Used names and the finished scope tree

The walk over a program looks names up while it still fills the scope tree. What comes out is as if
every used name had been looked up in the tree that the walk ends with (`walk_resolves_uses`), in
programs with problems too: a name that is found takes the unique name of what it means and causes
no problem, a name that is not found stays as it is and causes one.

* `ScopeTree.Resolves` : what a finished tree makes of one used name,
* `ScopeTree.ResolvesAll` : what it makes of a list of them.
-/

namespace SplBasic

/-! ## Used names with their scopes -/

/-- A used name with the number of the scope of the block that it stands in. -/
structure PlacedUse where
  scope : Nat
  use : NameUse
  deriving DecidableEq, Repr

/-- The names that a block uses, as the block of the given scope. -/
def Block.placedUses (scope : Nat) (block : Block) : List PlacedUse :=
  block.commands.uses.map (PlacedUse.mk scope)

/-- The names that a program uses, in source order: those of the main block in the global scope,
those of a function in the scope of the function. -/
def Program.placedUses (p : Program) : List PlacedUse :=
  p.block.placedUses ScopeTree.global
    ++ p.placed.toList.flatMap fun f => f.value.body.placedUses f.own

namespace ScopeTree

/-! ## What a tree makes of used names -/

/-- What becomes of a used name that is looked up in a scope, and the problems that it causes. -/
inductive Resolves (tree : ScopeTree) (scope : Nat) :
    NameUse → NameUse → List (Located ScopeError) → Prop
  | knownVariable {name : Name} {d : Declaration} :
      tree.lookupVariable scope name.source = some d →
        Resolves tree scope (.variable name) (.variable { name with text := d.symbol.unique }) []
  | unknownVariable {name : Name} :
      tree.lookupVariable scope name.source = none →
        Resolves tree scope (.variable name) (.variable name)
          [⟨.undeclaredVariable name.source, name.pos⟩]
  | knownFunction {name : Name} {d : Declaration} :
      name.bare ≠ "main" → tree.lookupFunction scope name.source = some d →
        Resolves tree scope (.callee name) (.callee { name with text := d.symbol.unique }) []
  | unknownFunction {name : Name} :
      name.bare ≠ "main" → tree.lookupFunction scope name.source = none →
        Resolves tree scope (.callee name) (.callee name)
          [⟨.undeclaredFunction name.source, name.pos⟩]
  | main {name : Name} :
      name.bare = "main" →
        Resolves tree scope (.callee name) (.callee name) [⟨.recursiveMain, name.pos⟩]

/-- What becomes of used names, each in its scope, and the problems that they cause in turn. -/
inductive ResolvesAll (tree : ScopeTree) :
    List PlacedUse → List PlacedUse → List (Located ScopeError) → Prop
  | nil : ResolvesAll tree [] [] []
  | cons {scope : Nat} {use use' : NameUse} {uses uses' : List PlacedUse}
      {caused problems : List (Located ScopeError)} :
      tree.Resolves scope use use' caused → ResolvesAll tree uses uses' problems →
        ResolvesAll tree (⟨scope, use⟩ :: uses) (⟨scope, use'⟩ :: uses') (caused ++ problems)

variable (tree : ScopeTree)

/-- A used name that takes the unique name of what it means. -/
def bindUse (u : PlacedUse) : PlacedUse :=
  ⟨u.scope, u.use.mapNames (tree.bindVariable u.scope) (tree.bindCallee u.scope)⟩

/-- A use is bound to what it refers to, or objected to. -/
theorem resolves_bindUse (u : PlacedUse) :
    tree.Resolves u.scope u.use (tree.bindUse u).use (tree.useObjection u.scope u.use).toList := by
  rcases u with ⟨scope, name | name⟩
  · simp only [bindUse, NameUse.mapNames, bindVariable, useObjection, referent]
    cases found : tree.lookupVariable scope name.source with
    | none => exact .unknownVariable found
    | some d => exact .knownVariable found
  · simp only [bindUse, NameUse.mapNames, bindCallee, useObjection, referent]
    by_cases isMain : name.bare = "main"
    · simp only [if_pos isMain]
      exact .main isMain
    · simp only [if_neg isMain]
      cases found : tree.lookupFunction scope name.source with
      | none =>
        simp only [if_neg isMain]
        exact .unknownFunction isMain found
      | some d => exact .knownFunction isMain found

/-- So are all uses, one by one. -/
theorem resolvesAll_map_bindUse (uses : List PlacedUse) :
    tree.ResolvesAll uses (uses.map tree.bindUse)
      (uses.filterMap fun u => tree.useObjection u.scope u.use) := by
  induction uses with
  | nil => exact .nil
  | cons u uses ih =>
    have problems : (u :: uses).filterMap (fun u => tree.useObjection u.scope u.use) =
        (tree.useObjection u.scope u.use).toList
          ++ uses.filterMap fun u => tree.useObjection u.scope u.use := by
      rw [List.filterMap_cons]
      cases tree.useObjection u.scope u.use with
      | none => rfl
      | some l => rfl
    rw [List.map_cons, problems]
    exact .cons (tree.resolves_bindUse u) ih

/-! ## Blocks and programs -/

/-- The uses of a bound block are the bound uses. -/
theorem placedUses_bindBlock (scope : Nat) (block : Block) :
    (tree.bindBlock scope block).placedUses scope =
      (block.placedUses scope).map tree.bindUse := by
  simp [Block.placedUses, uses_bindBlock, bindUse, Function.comp_def]

/-- The problems of a block are the objections to its uses. -/
theorem blockProblems_eq_filterMap (scope : Nat) (block : Block) :
    tree.blockProblems scope block =
      (block.placedUses scope).filterMap fun u => tree.useObjection u.scope u.use := by
  rw [Block.placedUses, List.filterMap_map]
  rfl

end ScopeTree

namespace Program

variable (p : Program) (tree : ScopeTree)

/-- The uses of a bound program are the bound uses. -/
theorem placedUses_bindNames :
    (p.bindNames tree).placedUses = p.placedUses.map tree.bindUse := by
  have functions : ((p.bindNames tree).placed.toList.flatMap fun f =>
        f.value.body.placedUses f.own) =
      (p.placed.toList.flatMap fun f => f.value.body.placedUses f.own).map tree.bindUse := by
    calc ((p.bindNames tree).placed.toList.flatMap fun f => f.value.body.placedUses f.own)
        = p.sites.toList.flatMap fun site =>
            (tree.bindBlock site.2.own site.2.value.body).placedUses site.2.own := by
          rw [placed_bindNames, Forest.toList_map, List.flatMap_map]
          rfl
      _ = p.sites.toList.flatMap fun site =>
            (site.2.value.body.placedUses site.2.own).map tree.bindUse := by
          simp only [tree.placedUses_bindBlock]
      _ = (p.placed.toList.flatMap fun f => f.value.body.placedUses f.own).map tree.bindUse := by
          rw [p.placed_eq_sites, Forest.toList_map, List.flatMap_map, List.map_flatMap]
  rw [placedUses, placedUses, functions, List.map_append, ← tree.placedUses_bindBlock]
  rfl

/-- The problems about uses are the objections to them, in order. -/
theorem problemsAbout_use_eq_filterMap :
    problemsAbout .use (p.scopeProblems tree) =
      p.placedUses.filterMap fun u => tree.useObjection u.scope u.use := by
  rw [problemsAbout_use, placedUses, List.filterMap_append, List.filterMap_flatMap]
  simp only [tree.blockProblems_eq_filterMap]

end Program

/-- The walk over a program comes to its end, and with the scope tree that it ends with, where each
function has a scope of its own inside that of the function around it:

* used names are as that tree resolves them,
* the problems about used names are those that they cause there, in source order. -/
theorem walk_resolves_uses (p : Program) :
    ∃ r, p.walk = some r ∧ resolve p = r ∧
      r.scopes.scope? ScopeTree.global = some ⟨ScopeTree.global, "global", 0, none⟩ ∧
      (∀ f ∈ p.placed.toList, ∃ level,
        r.scopes.scope? f.own = some ⟨f.own, f.value.name.source, level, some f.outer⟩) ∧
      r.scopes.ResolvesAll p.placedUses r.program.placedUses (problemsAbout .use r.problems) := by
  refine ⟨resolve p, p.walk_eq_resolve, rfl, ?_, ?_, ?_⟩
  · exact (p.scope?_scopeTree 0).trans p.scopes_hoisted.1.2
  · intro f member
    exact (p.mirrors_hoisted.congr p.scopes_scopeTree).scope?_of_mem member
  · have uses : (resolve p).program.placedUses = p.placedUses.map p.scopeTree.bindUse :=
      p.placedUses_bindNames p.scopeTree
    have problems : problemsAbout .use (resolve p).problems =
        p.placedUses.filterMap fun u => p.scopeTree.useObjection u.scope u.use :=
      p.problemsAbout_use_eq_filterMap p.scopeTree
    rw [uses, problems]
    exact p.scopeTree.resolvesAll_map_bindUse p.placedUses

end SplBasic
