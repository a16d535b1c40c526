import SplBasic.Proofs.UniqueNames
import SplBasic.Proofs.WellScoped

/-!
# Renaming

Resolving a well-scoped program gives two names the same text if and only if static scoping binds
them to the same declaration (`resolve_text_eq_iff`). Renaming keeps tokens, so the resolved program
has the frames of the source program (`Program.regions_bindNames`); and each of its names stands for
one declaration of the complete scope tree, whose unique name it has and whose place is that of its
binder (`Program.Settles`).
-/

namespace SplBasic

/-! ## The frames of the resolved program -/

theorem map_snd_along {α σ : Type} (step : σ → α → σ) (s : σ) (xs : List α) :
    (along step s xs).map Prod.snd = xs := by
  induction xs generalizing s with
  | nil => rfl
  | cons x xs ih => rw [along, List.map_cons, ih]

theorem along_map {α β σ : Type} (step : σ → β → σ) (h : α → β) (s : σ) (xs : List α) :
    along step s (xs.map h) =
      (along (fun t x => step t (h x)) s xs).map fun site => (site.1, h site.2) := by
  induction xs generalizing s with
  | nil => rfl
  | cons x xs ih => rw [List.map_cons, along, along, List.map_cons, ih]

namespace ScopeTree

@[simp] theorem token_settleVariable (tree : ScopeTree) (scope : Nat) (name : Name) :
    (tree.settleVariable scope name).token = name.token := by
  unfold settleVariable
  split
  · rfl
  · rfl

@[simp] theorem token_bindFunction (tree : ScopeTree) (outer : Nat) (name : Name) :
    (tree.bindFunction outer name).token = name.token := by
  unfold bindFunction
  split
  · rfl
  · rfl

@[simp] theorem token_rename (name : Name) (found : Option Declaration) :
    (rename name found).token = name.token := by
  cases found with
  | none => rfl
  | some d => rfl

theorem uses_bindBlock (tree : ScopeTree) (scope : Nat) (block : Block) :
    (tree.bindBlock scope block).commands.uses = block.commands.uses.map
      (NameUse.mapNames (tree.bindVariable scope) (tree.bindCallee scope)) :=
  block.commands.uses_mapNames _ _

/-- The variables of a renamed function, settled one after the other. -/
theorem entries_bindDecl (tree before : ScopeTree) (f : Placed FunctionDecl) :
    (tree.bindDecl before f).entries =
      (along (declareVariable · f.own) before f.value.entries).map
        fun site => (site.1.settleVariable f.own site.2.1, site.2.2) := by
  rfl

/-- Binding a function keeps the tokens and the types of its variables. -/
theorem tokens_entries_bindDecl (tree before : ScopeTree) (f : Placed FunctionDecl) :
    ((tree.bindDecl before f).entries.map fun entry => (entry.1.token, entry.2)) =
      f.value.entries.map fun entry => (entry.1.token, entry.2) := by
  conv_rhs => rw [← map_snd_along (declareVariable · f.own) before f.value.entries]
  simp [entries_bindDecl, Function.comp_def]

theorem tokens_variables_bindDecl (tree before : ScopeTree) (f : Placed FunctionDecl) :
    ((tree.bindDecl before f).entries.map Prod.fst).map Name.token =
      (f.value.entries.map Prod.fst).map Name.token := by
  have kept := congrArg (List.map Prod.fst) (tree.tokens_entries_bindDecl before f)
  simpa [Function.comp_def] using kept

end ScopeTree

namespace Program

variable {p : Program}

theorem placed_eq_sites (p : Program) : p.placed = p.sites.map Prod.snd :=
  (Forest.map_snd_along _ _ _).symm

/-- Functions made of the sites keep the places of the sites. -/
theorem place_map_sites (h : ScopeTree × Placed FunctionDecl → FunctionDecl) (p : Program) :
    (p.sites.map h).place 0 1 = p.sites.map fun site => ⟨site.2.own, site.2.outer, h site⟩ := by
  have numbered : p.sites.place 0 1 = p.sites.map fun site => ⟨site.2.own, site.2.outer, site⟩ :=
    Forest.place_along_place ScopeTree.declareVariables p.withGlobals p.functions 0 1
  rw [Forest.place_map, numbered, Forest.map_map]
  rfl

/-- Binding keeps the places of functions. -/
theorem placed_bindNames (tree : ScopeTree) (p : Program) :
    (p.bindNames tree).placed =
      p.sites.map fun site => ⟨site.2.own, site.2.outer, tree.bindDecl site.1 site.2⟩ :=
  p.place_map_sites fun site => tree.bindDecl site.1 site.2

/-- Binding keeps the frame of the main part, as frames consist of source names. -/
theorem globalFrame_bindNames (tree : ScopeTree) (p : Program) :
    (p.bindNames tree).globalFrame = p.globalFrame := by
  have variableDecls : ((p.bindNames tree).globals.map fun decl => (decl.name.token, decl.type)) =
      p.globals.map fun decl => (decl.name.token, decl.type) := by
    conv_rhs => rw [← map_snd_along
      (fun tree (decl : VarDecl) => tree.declareVariable ScopeTree.global decl.entry) p.hoisted
      p.globals]
    simp [bindNames, VarDecl.settle, Function.comp_def]
  have functionDecls : ((p.bindNames tree).placed.roots.map fun g => g.value.header) =
      p.placed.roots.map fun g => g.value.header := by
    rw [placed_bindNames, p.placed_eq_sites, Forest.roots_map, Forest.roots_map, List.map_map,
      List.map_map]
    simp [Function.comp_def, FunctionDecl.header, ScopeTree.bindDecl]
  simp only [globalFrame, variableDecls, functionDecls]

/-- The resolved program has the regions of the source program with their names bound. -/
theorem regions_bindNames (tree : ScopeTree) (p : Program) :
    (p.bindNames tree).regions =
      p.regions.map fun r => { r with block := tree.bindBlock r.frame.number r.block } := by
  have main : (p.bindNames tree).mainRegion =
      { p.mainRegion with block := tree.bindBlock p.mainRegion.frame.number p.mainRegion.block } := by
    simp only [mainRegion, globalFrame_bindNames]
    rfl
  -- source and resolved functions are two labellings of the sites, with equal tokens
  have inner : regionsOf [p.globalFrame] (p.bindNames tree).placed =
      (regionsOf [p.globalFrame] p.placed).map
        fun r => { r with block := tree.bindBlock r.frame.number r.block } := by
    let bound (site : ScopeTree × Placed FunctionDecl) : Placed FunctionDecl :=
      ⟨site.2.own, site.2.outer, tree.bindDecl site.1 site.2⟩
    have own (site) : (bound site).own = site.2.own := rfl
    have header (site) : (bound site).value.header = site.2.value.header := by
      simp [bound, FunctionDecl.header, ScopeTree.bindDecl]
    have entries (site) : ((bound site).value.entries.map fun entry => (entry.1.token, entry.2)) =
        site.2.value.entries.map fun entry => (entry.1.token, entry.2) :=
      tree.tokens_entries_bindDecl site.1 site.2
    let change (frame : Frame) (block : Block) := tree.bindBlock frame.number block
    have body (site inner) :
        (bound site).value.body = change (site.2.frame inner) site.2.value.body := rfl
    rw [placed_bindNames, p.placed_eq_sites]
    exact regionsOf_map own header entries body _ _
  rw [regions, globalFrame_bindNames, main, inner]
  rfl

end Program

/-! ## Declarations behind names -/

namespace ScopeTree

/-- A settled variable has the unique name of its declaration. -/
theorem exists_declaration_of_settled {tree : ScopeTree} {scope : Nat}
    {entries : List (Name × ValueType)} (fit : tree.variableProblems scope entries = [])
    {before : ScopeTree} {entry : Name × ValueType}
    (site : (before, entry) ∈ along (declareVariable · scope) tree entries) :
    ∃ d ∈ (entries.foldl (declareVariable · scope) tree).declarations,
      (before.settleVariable scope entry.1).text = d.symbol.unique ∧
        d.symbol.pos = entry.1.pos := by
  have fits : before.variableObjection scope entry.1 = none := by
    simpa using List.filterMap_eq_nil_iff.1 fit (before, entry) site
  refine ⟨before.newVariable scope entry, ?_, by simp [settleVariable, fits, newVariable], rfl⟩
  rcases mem_along.1 site with ⟨earlier, later, rfl, rfl⟩
  rw [List.foldl_append, List.foldl_cons]
  refine (Grows.foldl_declareVariable _ scope later).subset ?_
  rw [declarations_declareVariable fits]
  exact List.mem_cons_self

end ScopeTree

namespace Program

variable {p : Program}

/-- Global variables stay declared. -/
theorem withGlobals_subset_scopeTree (p : Program) :
    p.withGlobals.declarations ⊆ p.scopeTree.declarations :=
  (ScopeTree.Grows.foldl_declareVariables p.withGlobals p.placed.toList).subset

/-- The variables of a function stay declared. -/
theorem site_subset_scopeTree {before : ScopeTree} {f : Placed FunctionDecl}
    (site : (before, f) ∈ p.sites.toList) :
    (before.declareVariables f).declarations ⊆ p.scopeTree.declarations := by
  rcases mem_sites.1 site with ⟨earlier, later, split, rfl⟩
  rw [scopeTree, split, List.foldl_append, List.foldl_cons]
  exact (ScopeTree.Grows.foldl_declareVariables _ later).subset

/-- The name has the text of a declaration and a binder at the place of that declaration. -/
def Settles (p : Program) (o : Occurrence) : Prop :=
  ∃ d ∈ p.scopeTree.declarations, o.name.text = d.symbol.unique ∧
    ∃ name ∈ p.declaredNames, o.binder = some name.token ∧ name.pos = d.symbol.pos

/-- Parameters and local variables are declared names. -/
theorem mem_declaredNames_of_entry {f : Placed FunctionDecl} (isPlaced : f ∈ p.placed.toList)
    {entry : Name × ValueType} (listed : entry ∈ f.value.entries) : entry.1 ∈ p.declaredNames := by
  refine List.mem_append_right _ (List.mem_flatMap.2 ⟨f.value, value_mem_functions isPlaced, ?_⟩)
  exact List.mem_cons_of_mem _ (List.mem_map_of_mem listed)

/-- Function names are declared names. -/
theorem mem_declaredNames_of_function {f : Placed FunctionDecl} (isPlaced : f ∈ p.placed.toList) :
    f.value.name ∈ p.declaredNames :=
  List.mem_append_right _ (List.mem_flatMap.2
    ⟨f.value, value_mem_functions isPlaced, List.mem_cons_self⟩)

/-- In a program with fitting declarations each declared name stands for its declaration. -/
theorem settles_declared (fit : p.VariablesFit)
    (functions : ∀ f ∈ p.placed.toList,
      p.scopeTree.functionObjection f.outer f.value.name = none)
    {name : Name} (member : name ∈ (p.bindNames p.scopeTree).declaredNames) :
    p.Settles ⟨name, some name.token⟩ := by
  rcases List.mem_append.1 member with isGlobal | inFunction
  · -- a global variable
    rcases List.mem_map.1 isGlobal with ⟨_, settled, rfl⟩
    rcases List.mem_map.1 settled with ⟨⟨before, decl⟩, site, rfl⟩
    have entrySite : (before, decl.entry) ∈ along (ScopeTree.declareVariable · ScopeTree.global)
        p.hoisted (p.globals.map VarDecl.entry) := by
      rw [along_map]
      exact List.mem_map.2 ⟨(before, decl), site, rfl⟩
    rcases ScopeTree.exists_declaration_of_settled fit.globals entrySite with
      ⟨d, declared, text, place⟩
    refine ⟨d, p.withGlobals_subset_scopeTree declared, text, decl.name,
      List.mem_append_left _ (List.mem_map_of_mem (mem_of_mem_along site)), ?_, place.symm⟩
    simp [VarDecl.settle]
  · rcases List.mem_flatMap.1 inFunction with ⟨_, bound, listed⟩
    rw [show (p.bindNames p.scopeTree).functions.toList = _ from Forest.toList_map _ _] at bound
    rcases List.mem_map.1 bound with ⟨⟨before, f⟩, site, rfl⟩
    have isPlaced := placed_of_site site
    rcases List.mem_cons.1 listed with rfl | isEntry
    · -- the name of the function itself
      have isSome := (ScopeTree.functionObjection_eq_none_iff.1 (functions f isPlaced)).1
      rcases Option.isSome_iff_exists.1 isSome with ⟨d, entry⟩
      rcases Option.filter_eq_some_iff.1 entry with ⟨found, place⟩
      refine ⟨d, List.mem_of_find?_eq_some found, ?_, f.value.name,
        mem_declaredNames_of_function isPlaced, ?_, (of_decide_eq_true place).symm⟩
      · simp [ScopeTree.bindDecl, ScopeTree.bindFunction, entry]
      · simp [ScopeTree.bindDecl]
    · -- a parameter or a local of the function
      rcases List.mem_map.1 isEntry with ⟨_, settled, rfl⟩
      rw [ScopeTree.entries_bindDecl] at settled
      rcases List.mem_map.1 settled with ⟨⟨tree, entry⟩, entrySite, rfl⟩
      rcases ScopeTree.exists_declaration_of_settled (fit.functions before f site) entrySite with
        ⟨d, declared, text, place⟩
      refine ⟨d, site_subset_scopeTree site declared, text, entry.1,
        mem_declaredNames_of_entry isPlaced (mem_of_mem_along entrySite), ?_, place.symm⟩
      simp

/-! ## Used names -/

/-- The frames around a region are frames of regions. -/
theorem exists_region_of_frame {r : Region} (member : r ∈ p.regions) {frame : Frame}
    (around : frame ∈ r.frames) : ∃ r' ∈ p.regions, r'.frame = frame := by
  rcases List.append_of_mem around with ⟨front, outer, split⟩
  rcases exists_region member ⟨front, split.symm⟩ with ⟨r', isRegion, frames⟩
  exact ⟨r', isRegion, (List.cons.inj frames).1⟩

/-- Static scoping binds variables to declared names. -/
theorem exists_declaredName_of_findVariable? {r : Region} (member : r ∈ p.regions) {name : String}
    {entry : Token × ValueType} (found : r.findVariable? name = some entry) :
    ∃ declared ∈ p.declaredNames, declared.token = entry.1 := by
  rcases List.exists_of_findSome?_eq_some found with ⟨frame, around, inFrame⟩
  have listed := List.mem_of_find?_eq_some inFrame
  rcases exists_region_of_frame member around with ⟨r', isRegion, rfl⟩
  rcases region_cases isRegion with rfl | ⟨f, isPlaced, inner, frame, _⟩
  · rcases List.mem_map.1 listed with ⟨decl, isGlobal, rfl⟩
    exact ⟨decl.name, List.mem_append_left _ (List.mem_map_of_mem isGlobal), rfl⟩
  · rw [frame] at listed
    rcases List.mem_map.1 listed with ⟨e, isEntry, rfl⟩
    exact ⟨e.1, mem_declaredNames_of_entry isPlaced isEntry, rfl⟩

/-- Static scoping binds callees to declared names. -/
theorem exists_declaredName_of_findFunction? {r : Region} (member : r ∈ p.regions) {name : String}
    {entry : Token × ReturnType} (found : r.findFunction? name = some entry) :
    ∃ declared ∈ p.declaredNames, declared.token = entry.1 := by
  rcases List.exists_of_findSome?_eq_some found with ⟨frame, around, inFrame⟩
  have listed := List.mem_of_find?_eq_some inFrame
  rcases exists_region_of_frame member around with ⟨r', isRegion, rfl⟩
  rcases (mem_functionDecls_iff isRegion).1 listed with ⟨f, isPlaced, _, rfl⟩
  exact ⟨f.value.name, mem_declaredNames_of_function isPlaced, rfl⟩

end Program

namespace ScopeTree

/-- What is found has been declared. -/
theorem mem_of_lookup {tree : ScopeTree} {scope : Nat} {name : String} {d : Declaration}
    (found : tree.lookup scope name = some d) : d ∈ tree.declarations := by
  rw [lookup_eq_findSome?] at found
  rcases List.exists_of_findSome?_eq_some found with ⟨s, _, inScope⟩
  exact List.mem_of_find?_eq_some inScope

theorem mem_of_lookupKind {tree : ScopeTree} {kind : SymbolKind} {scope : Nat} {name : String}
    {d : Declaration} (found : tree.lookupKind kind scope name = some d) :
    d ∈ tree.declarations :=
  mem_of_lookup (Option.filter_eq_some_iff.1 found).1

/-- What a name refers to has been declared. -/
theorem mem_of_referent {tree : ScopeTree} {scope : Nat} {use : NameUse} {d : Declaration}
    (found : tree.referent scope use = some d) : d ∈ tree.declarations := by
  cases use with
  | «variable» name => exact mem_of_lookupKind found
  | callee name =>
    by_cases isMain : name.bare = "main"
    · simp [referent, isMain] at found
    · simp only [referent, isMain, if_false] at found
      exact mem_of_lookupKind found

end ScopeTree

namespace Program

variable {p : Program}

/-- A used variable with a referent gets the unique name of the declaration that static scoping
binds it to. -/
theorem bindVariable_of_referent (named : p.WellNamed) (fit : p.VariablesFit) {r : Region}
    (member : r ∈ p.regions) {name : Name} (listed : .variable name ∈ r.block.commands.uses)
    (found : (p.scopeTree.referent r.frame.number (.variable name)).isSome) :
    ∃ d ∈ p.scopeTree.declarations, ∃ entry, r.findVariable? name.source = some entry ∧
      variableView entry = d.view ∧
      p.scopeTree.bindVariable r.frame.number name = { name with text := d.symbol.unique } := by
  rcases Option.isSome_iff_exists.1 found with ⟨d, referent⟩
  have looked := lookupVariable_scopeTree named fit member name.bare
  rw [← (named.used_isVariable member listed).source_eq,
    show p.scopeTree.lookupVariable _ _ = _ from referent] at looked
  rcases Option.map_eq_some_iff.1 looked.symm with ⟨entry, bound, view⟩
  refine ⟨d, ScopeTree.mem_of_lookupKind referent, entry, bound, view, ?_⟩
  rw [ScopeTree.bindVariable, referent]
  rfl

/-- A callee with a referent gets the unique name of the declaration that static scoping binds it
to. -/
theorem bindCallee_of_referent (named : p.WellNamed) {r : Region} (member : r ∈ p.regions)
    {name : Name} (listed : .callee name ∈ r.block.commands.uses)
    (found : (p.scopeTree.referent r.frame.number (.callee name)).isSome) :
    ∃ d ∈ p.scopeTree.declarations, ∃ entry, r.findFunction? name.source = some entry ∧
      functionView entry = d.view ∧
      p.scopeTree.bindCallee r.frame.number name = { name with text := d.symbol.unique } := by
  rcases Option.isSome_iff_exists.1 found with ⟨d, referent⟩
  have notMain : ¬ name.bare = "main" := by
    intro isMain
    simp [ScopeTree.referent, isMain] at referent
  have called : p.scopeTree.lookupFunction r.frame.number name.source = some d := by
    simpa [ScopeTree.referent, notMain] using referent
  -- the scope tree and static scoping find the same function
  have looked := (hoisted_scopeTree named).lookupFunction member name.bare
  rw [← (named.callee_isFunction member listed).source_eq, called] at looked
  rcases Option.map_eq_some_iff.1 looked.symm with ⟨entry, bound, view⟩
  refine ⟨d, ScopeTree.mem_of_lookupKind called, entry, bound, view, ?_⟩
  rw [ScopeTree.bindCallee, referent]
  rfl

/-- An occurrence is settled if its text is the unique name of the declaration at its binder. -/
theorem settles_of_binder {o : Occurrence} {d : Declaration}
    (isDeclaration : d ∈ p.scopeTree.declarations) (text : o.name.text = d.symbol.unique)
    {token : Token} (binder : o.binder = some token) (place : token.pos = d.symbol.pos)
    (declared : ∃ name ∈ p.declaredNames, name.token = token) : p.Settles o := by
  rcases declared with ⟨name, isDeclared, rfl⟩
  exact ⟨d, isDeclaration, text, name, isDeclared, binder, place⟩

/-- Renaming a used name with a referent makes it stand for a declaration. -/
theorem settles_used (named : p.WellNamed) (fit : p.VariablesFit) {r : Region}
    (member : r ∈ p.regions) {use : NameUse} (listed : use ∈ r.block.commands.uses)
    (found : (p.scopeTree.referent r.frame.number use).isSome) :
    p.Settles (r.occurrence (use.mapNames (p.scopeTree.bindVariable r.frame.number)
      (p.scopeTree.bindCallee r.frame.number))) := by
  cases use with
  | «variable» name =>
    rcases bindVariable_of_referent named fit member listed found with
      ⟨d, isDeclaration, entry, bound, view, renamed⟩
    have place : entry.1.pos = d.symbol.pos := congrArg (fun v => v.2.2) view
    refine settles_of_binder isDeclaration (congrArg Name.text renamed) ?_ place
      (exists_declaredName_of_findVariable? member bound)
    rw [NameUse.mapNames, renamed]
    exact congrArg (Option.map Prod.fst) bound
  | callee name =>
    rcases bindCallee_of_referent named member listed found with
      ⟨d, isDeclaration, entry, bound, view, renamed⟩
    have place : entry.1.pos = d.symbol.pos := congrArg (fun v => v.2.2) view
    refine settles_of_binder isDeclaration (congrArg Name.text renamed) ?_ place
      (exists_declaredName_of_findFunction? member bound)
    rw [NameUse.mapNames, renamed]
    exact congrArg (Option.map Prod.fst) bound

/-- Texts and binders of settled names determine each other. -/
theorem Settles.text_eq_iff (named : p.WellNamed) {o o' : Occurrence} (settles : p.Settles o)
    (settles' : p.Settles o') : o.name.text = o'.name.text ↔ o.binder = o'.binder := by
  rcases settles with ⟨d, declared, text, name, isName, binder, place⟩
  rcases settles' with ⟨d', declared', text', name', isName', binder', place'⟩
  rw [text, text', binder, binder', Option.some.injEq]
  -- unique names determine declarations, and places determine both declarations and names
  constructor
  · intro same
    have sameDeclaration := p.numbered_scopeTree.eq_of_unique declared declared' same
    have samePlace : name.pos = name'.pos := by rw [place, place', sameDeclaration]
    exact congrArg Name.token
      (List.inj_on_of_nodup_map named.declared_apart isName isName' samePlace)
  · intro same
    have samePlace : name.pos = name'.pos := congrArg Token.pos same
    rw [declaration_eq_of_pos named declared declared' (by rw [← place, ← place', samePlace])]

/-- In a well-scoped program all names of the resolved program stand for declarations. -/
theorem settles_of_scopeProblems (named : p.WellNamed)
    (clean : p.scopeProblems p.scopeTree = []) {o : Occurrence}
    (member : o ∈ (p.bindNames p.scopeTree).occurrences) : p.Settles o := by
  rcases scopeProblems_eq_nil_iff.1 clean with ⟨fit, functions, blocks⟩
  rcases List.mem_append.1 member with isDeclared | isUsed
  · rcases List.mem_map.1 isDeclared with ⟨name, listed, rfl⟩
    exact settles_declared fit functions listed
  · -- a used name of the resolved program comes from a use in the region of the same frame
    rw [regions_bindNames] at isUsed
    rcases List.mem_flatMap.1 isUsed with ⟨_, bound, listed⟩
    rcases List.mem_map.1 bound with ⟨r, isRegion, rfl⟩
    rcases List.mem_map.1 listed with ⟨_, renamed, rfl⟩
    rw [ScopeTree.uses_bindBlock] at renamed
    rcases List.mem_map.1 renamed with ⟨use, isUse, rfl⟩
    exact settles_used named fit isRegion isUse
      (ScopeTree.isSome_referent_of_blockProblems (blocks r isRegion) isUse)

theorem functions_eq_sites (p : Program) :
    p.functions.toList = p.sites.toList.map fun site => site.2.value := by
  rw [← p.functions.map_value_place 0 1, show p.functions.place 0 1 = _ from p.placed_eq_sites,
    Forest.toList_map, List.map_map]
  rfl

/-- Binding keeps the tokens of global variables. -/
theorem tokens_globals_bindNames (tree : ScopeTree) (p : Program) :
    ((p.bindNames tree).globals.map VarDecl.name).map Name.token =
      (p.globals.map VarDecl.name).map Name.token := by
  have frames := congrArg (fun frame => frame.variableDecls.map Prod.fst)
    (globalFrame_bindNames tree p)
  simpa [globalFrame, Function.comp_def] using frames

/-- Whatever names are taken from the functions: if each function keeps their tokens, all do. -/
theorem tokens_functions_bindNames (tree : ScopeTree) (p : Program)
    (names : FunctionDecl → List Name)
    (kept : ∀ before f, (names (tree.bindDecl before f)).map Name.token =
      (names f.value).map Name.token) :
    ((p.bindNames tree).functions.toList.flatMap names).map Name.token =
      (p.functions.toList.flatMap names).map Name.token := by
  have functions : (p.bindNames tree).functions.toList =
      p.sites.toList.map fun site => tree.bindDecl site.1 site.2 := Forest.toList_map _ _
  rw [functions, p.functions_eq_sites, List.map_flatMap, List.map_flatMap, List.flatMap_map,
    List.flatMap_map]
  congr 1
  funext site
  exact kept site.1 site.2

/-- Binding keeps the tokens of all declared names. -/
theorem tokens_declaredNames_bindNames (tree : ScopeTree) (p : Program) :
    (p.bindNames tree).declaredNames.map Name.token = p.declaredNames.map Name.token := by
  rw [declaredNames, declaredNames, List.map_append, List.map_append, tokens_globals_bindNames,
    tokens_functions_bindNames]
  intro before f
  rw [List.map_cons, List.map_cons, ScopeTree.tokens_variables_bindDecl]
  simp [ScopeTree.bindDecl]

/-- Renaming changes texts only: the names of the resolved program are those of the source program,
with the same binders. -/
theorem occurrences_bindNames (tree : ScopeTree) (p : Program) :
    ((p.bindNames tree).occurrences.map fun o => (o.name.token, o.binder)) =
      p.occurrences.map fun o => (o.name.token, o.binder) := by
  -- declared names and used names are compared apart, the used ones region by region
  let tell (o : Occurrence) := (o.name.token, o.binder)
  have declared : ((p.bindNames tree).declaredNames.map
      fun name => (⟨name, some name.token⟩ : Occurrence)).map tell =
        (p.declaredNames.map fun name => (⟨name, some name.token⟩ : Occurrence)).map tell := by
    have tokens := congrArg (List.map fun token => (token, some token))
      (tokens_declaredNames_bindNames tree p)
    simpa [tell, Function.comp_def] using tokens
  have used (r : Region) :
      (Region.occurrences { r with block := tree.bindBlock r.frame.number r.block }).map tell =
        r.occurrences.map tell := by
    rw [Region.occurrences, ScopeTree.uses_bindBlock, Region.occurrences, List.map_map,
      List.map_map, List.map_map]
    refine List.map_congr_left fun use _ => ?_
    cases use with
    | «variable» name =>
      simp [tell, NameUse.mapNames, Region.occurrence, ScopeTree.bindVariable, Name.source,
        Region.findVariable?, Region.frames]
    | callee name =>
      simp [tell, NameUse.mapNames, Region.occurrence, ScopeTree.bindCallee, Name.source,
        Region.findFunction?, Region.frames]
  have uses : ((p.bindNames tree).regions.flatMap Region.occurrences).map tell =
      (p.regions.flatMap Region.occurrences).map tell := by
    rw [regions_bindNames, List.flatMap_map, List.map_flatMap, List.map_flatMap]
    exact congrArg (fun tellRegion => p.regions.flatMap tellRegion) (funext used)
  rw [occurrences, occurrences, List.map_append, List.map_append, declared, uses]

end Program

/-- In a program that is read from a text and resolved without diagnostics, two names have the same
text if and only if static scoping binds them to the same declaration, and every name is bound. -/
theorem resolve_text_eq_iff {text file : String} {tokens : List Token} {p : Program}
    (read : tokenize text file = .ok tokens) (parsed : parse tokens = .ok p)
    (clean : (resolve p).diagnostics = []) :
    (((resolve p).program.occurrences.map fun o => (o.name.token, o.binder)) =
      p.occurrences.map fun o => (o.name.token, o.binder)) ∧
    (∀ o ∈ (resolve p).program.occurrences, o.binder.isSome) ∧
    ∀ o ∈ (resolve p).program.occurrences, ∀ o' ∈ (resolve p).program.occurrences,
      o.name.text = o'.name.text ↔ o.binder = o'.binder := by
  have named := wellNamed_of_parse read parsed
  have noProblems : p.scopeProblems p.scopeTree = [] := List.map_eq_nil_iff.1 clean
  have settles {o : Occurrence} (member : o ∈ (resolve p).program.occurrences) : p.Settles o :=
    Program.settles_of_scopeProblems named noProblems member
  refine ⟨p.occurrences_bindNames p.scopeTree, fun o member => ?_, fun o member o' member' => ?_⟩
  · rcases settles member with ⟨_, _, _, name, _, binder, _⟩
    rw [binder]
    rfl
  · exact (settles member).text_eq_iff named (settles member')

/-- Names of a program in which names are shadowed at every depth. -/
theorem resolve_text_eq_iff_nested :
    ∃ tokens p, tokenize nestedSource "nested.spl" = .ok tokens ∧ parse tokens = .ok p ∧
      (resolve p).diagnostics = [] ∧
      ∀ o ∈ (resolve p).program.occurrences, ∀ o' ∈ (resolve p).program.occurrences,
        o.name.text = o'.name.text ↔ o.binder = o'.binder := by
  rcases exists_program_nestedSource with ⟨tokens, p, read, parsed, clean, _, _⟩
  exact ⟨tokens, p, read, parsed, clean, (resolve_text_eq_iff read parsed clean).2.2⟩

end SplBasic
