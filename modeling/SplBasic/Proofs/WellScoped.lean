import SplBasic.Compile
import SplBasic.Proofs.ScopeModel

/-!
# Well-scoped programs

`Program.WellScoped` says in terms of static scoping what a program has to fulfil, and
`resolve_diagnostics_eq_nil_iff` that resolving finds nothing to complain about exactly then.

The problems that resolving looks for are asymmetric: a variable is compared with the functions it
sees, a function with the variables it sees, each from the scope of its own declaration. That this
misses no clash rests on `Program.exists_region`: of two frames around a region one lies around the
other, and the inner one is the frame of a region that sees both declarations.
-/

namespace SplBasic

/-- The word has a fixed meaning in the language. -/
def IsReservedWord (word : String) : Prop :=
  word ∈ TokenKind.reservedWords.map Prod.fst

/-- Names are refused for spelling a word that the lexer gives a fixed meaning, and for no other. -/
theorem reservedNames_perm : reservedNames.Perm (TokenKind.reservedWords.map Prod.fst) := by
  decide +kernel

theorem isReserved_eq_false_iff (bare : String) :
    isReserved bare = false ↔ ¬ IsReservedWord bare := by
  calc isReserved bare = false
      ↔ bare ∉ reservedNames := by
        rw [isReserved, List.contains_eq_mem, decide_eq_false_iff_not]
    _ ↔ ¬ IsReservedWord bare := not_congr reservedNames_perm.mem_iff

/-- What a program has to fulfil to have all its names resolved. -/
structure Program.WellScoped (p : Program) : Prop where
  /-- No scope declares a variable twice. -/
  variablesDistinct : ∀ r ∈ p.regions, (r.frame.variableDecls.map fun entry => entry.1.lexeme).Nodup
  /-- No scope declares a function twice. -/
  functionsDistinct : ∀ r ∈ p.regions, (r.frame.functionDecls.map fun entry => entry.1.lexeme).Nodup
  /-- No variable is a reserved word with a mark. -/
  variablesNotReserved : ∀ r ∈ p.regions, ∀ entry ∈ r.frame.variableDecls, ∀ bare,
    entry.1.lexeme = "V_" ++ bare → ¬ IsReservedWord bare
  /-- No function is a reserved word with a mark. -/
  functionsNotReserved : ∀ r ∈ p.regions, ∀ entry ∈ r.frame.functionDecls, ∀ bare,
    entry.1.lexeme = "F_" ++ bare → ¬ IsReservedWord bare
  /-- From no scope a variable and a function are visible that differ in their marks only. -/
  noClash : ∀ r ∈ p.regions, ∀ bare,
    ¬ (r.SeesVariable ("V_" ++ bare) ∧ r.SeesFunction ("F_" ++ bare))
  /-- No function has the name of the function directly around it. -/
  notNamedAfterOwner : ∀ r ∈ p.regions, ∀ owner, r.frame.owner = some owner →
    ∀ entry ∈ r.frame.functionDecls, entry.1.lexeme ≠ owner.1.lexeme
  /-- Used variables are visible. -/
  variablesDeclared : ∀ r ∈ p.regions, ∀ name, .variable name ∈ r.block.commands.uses →
    r.SeesVariable name.source
  /-- Called functions are visible, and the main block is not called. -/
  functionsDeclared : ∀ r ∈ p.regions, ∀ name, .callee name ∈ r.block.commands.uses →
    name.source ≠ "F_main" ∧ r.SeesFunction name.source

/-! ## Used names and name tokens -/

/-- The body of a function is spelt inside it. -/
theorem FunctionDecl.HeadSpeltBy.exists_body {f : FunctionDecl} {ts : List Token}
    (spelt : f.HeadSpeltBy ts) : ∃ body, body <:+: ts ∧ f.body.SpeltBy body := by
  cases spelt with
  | intro _ _ _ _ _ _ _ _ _ _ _ _ _ _ _ _ body _ =>
    refine ⟨_, ?_, body⟩
    -- everything else stands in front of the body, but for the brace that closes the function
    repeat first
      | exact (List.prefix_append _ _).isInfix
      | apply List.infix_cons
      | apply List.IsInfix.trans _ (List.suffix_append _ _).isInfix

/-- The bodies of all functions are spelt inside them. -/
theorem FunctionsSpeltBy.exists_body {functions : Forest FunctionDecl} {ts : List Token}
    (spelt : FunctionsSpeltBy functions ts) {f : FunctionDecl} (member : f ∈ functions.toList) :
    ∃ body, body <:+: ts ∧ f.body.SpeltBy body := by
  induction spelt with
  | nil => cases member
  | cons head _ _ _ ihInner ihRest =>
    rw [Forest.toList, List.mem_cons, List.mem_append] at member
    rcases member with rfl | inside | behind
    · rcases head.exists_body with ⟨body, within, spelt⟩
      exact ⟨body, within.trans (List.prefix_append _ _).isInfix, spelt⟩
    · rcases ihInner inside with ⟨body, within, spelt⟩
      exact ⟨body, within.trans (List.infix_append' _ _ _), spelt⟩
    · rcases ihRest behind with ⟨body, within, spelt⟩
      refine ⟨body, ?_, spelt⟩
      apply List.IsInfix.trans _ (List.suffix_append _ _).isInfix
      apply List.IsInfix.trans _ (List.suffix_append _ _).isInfix
      exact List.infix_cons within

/-- Every block of a program is spelt by tokens that stand together. -/
theorem Program.SpeltBy.exists_block {p : Program} {ts : List Token} (spelt : p.SpeltBy ts)
    {b : Block} (isBlock : b ∈ p.block :: p.functions.toList.map FunctionDecl.body) :
    ∃ us, us <:+: ts ∧ b.SpeltBy us := by
  cases spelt with
  | intro isMain globals block functions =>
    rcases List.mem_cons.1 isBlock with isMainBlock | isBody
    · rw [isMainBlock]
      exact ⟨_, List.infix_cons (List.infix_append' _ _ _), block⟩
    · rcases List.mem_map.1 isBody with ⟨f, listed, rfl⟩
      rcases functions.exists_body listed with ⟨us, within, spelt⟩
      refine ⟨us, ?_, spelt⟩
      apply List.infix_cons
      apply List.IsInfix.trans _ (List.suffix_append _ _).isInfix
      exact within.trans (List.suffix_append _ _).isInfix

/-- In a parsed program the names that a region uses are the name tokens of its block, in order:
variables are those of the kind for variables, callees those of the kind for functions. -/
theorem Program.exists_tokens_of_region {tokens : List Token} {p : Program}
    (parsed : parse tokens = .ok p) {r : Region} (member : r ∈ p.regions) :
    ∃ ts, ts <:+: seenTokens tokens ∧ r.block.SpeltBy ts ∧
      (r.block.commands.uses.map NameUse.kinded).map KindedName.entry = nameTokens ts := by
  have spelt := spelt_of_parse parsed
  rw [significant_eq_seenTokens] at spelt
  have isBlock : r.block ∈ p.block :: p.functions.toList.map FunctionDecl.body := by
    rw [← map_block_regions]
    exact List.mem_map_of_mem member
  rcases spelt.exists_block isBlock with ⟨ts, within, block⟩
  refine ⟨ts, within, block, ?_⟩
  rw [Commands.uses_eq, List.map_map]
  exact block.parts.names

/-! ## Variables -/

/-- Nothing speaks against the variables of the region's frame. -/
def Region.VariablesFit (r : Region) : Prop :=
  (r.frame.variableDecls.map fun entry => entry.1.lexeme).Nodup ∧
    ∀ entry ∈ r.frame.variableDecls, ∀ bare, entry.1.lexeme = "V_" ++ bare →
      ¬ IsReservedWord bare ∧ ¬ r.SeesFunction ("F_" ++ bare)

namespace Program

variable {p : Program}

/-- Declaring the variables of a frame in a scope that has none yet. -/
theorem variableProblems_region {tree : ScopeTree} (h : p.Hoisted tree) {r : Region}
    (member : r ∈ p.regions) {entries : List (Name × ValueType)}
    (declares : r.frame.variableDecls = entries.map fun entry => (entry.1.token, entry.2))
    (areVariables : ∀ entry ∈ entries, entry.1.IsVariable)
    (fresh : ∀ bare, tree.lookupLocal r.frame.number ("V_" ++ bare) = none) :
    tree.variableProblems r.frame.number entries = [] ↔ r.VariablesFit := by
  have spellings : (r.frame.variableDecls.map fun entry => entry.1.lexeme) =
      entries.map fun entry => entry.1.source := by
    rw [declares, List.map_map]
    rfl
  rw [ScopeTree.variableProblems_eq_nil_iff areVariables, Region.VariablesFit, spellings, declares]
  refine and_congr_right fun _ => ?_
  -- the scope has no variable yet, so each one is only held against reserved words and functions
  have single (entry : Name × ValueType) (listed : entry ∈ entries) :
      tree.variableObjection r.frame.number entry.1 = none ↔
        ¬ IsReservedWord entry.1.bare ∧ ¬ r.SeesFunction ("F_" ++ entry.1.bare) := by
    rw [ScopeTree.variableObjection_eq_none_iff, isReserved_eq_false_iff,
      h.lookupFunction_eq_none_iff member, (areVariables entry listed).source_eq,
      and_iff_right (fresh _)]
  constructor
  · rintro fits _ listed bare spelling
    rcases List.mem_map.1 listed with ⟨entry, isEntry, rfl⟩
    have bareOf : entry.1.bare = bare := by
      rw [Name.bare, Name.source, spelling, bareName_variableMark]
    rw [← bareOf]
    exact (single entry isEntry).1 (fits entry isEntry)
  · intro fits entry listed
    exact (single entry listed).2 (fits _ (List.mem_map_of_mem listed) entry.1.bare
      (areVariables entry listed).source_eq)

/-- Variables fit if they do in each region, as regions share no declarations. -/
theorem variablesFit_iff (named : p.WellNamed) :
    p.VariablesFit ↔ ∀ r ∈ p.regions, r.VariablesFit := by
  have main : p.hoisted.variableProblems ScopeTree.global (p.globals.map VarDecl.entry) = [] ↔
      p.mainRegion.VariablesFit := by
    refine variableProblems_region .refl List.mem_cons_self ?_ ?_
      (lookupLocal_hoisted_variable named 0)
    · rw [List.map_map]
      rfl
    · intro entry listed
      rcases List.mem_map.1 listed with ⟨decl, member, rfl⟩
      exact named.global_isVariable member
  -- the tree in front of a function differs from the complete one, but not in what is asked here
  have function {before : ScopeTree} {f : Placed FunctionDecl}
      (site : (before, f) ∈ p.sites.toList) (isFunction : f ∈ p.placed.toList) {r : Region}
      (member : r ∈ p.regions) {inner : Forest (Placed FunctionDecl)}
      (frame : r.frame = f.frame inner) :
      before.variableProblems f.own f.value.entries = [] ↔ r.VariablesFit := by
    have number : f.own = r.frame.number := by rw [frame]; rfl
    have fresh := lookupLocal_site named site
    rw [number] at fresh ⊢
    exact variableProblems_region (hoisted_site named site) member (by rw [frame]; rfl)
      (fun _ listed => named.entry_isVariable isFunction listed) fresh
  constructor
  · intro fit r member
    rcases region_cases member with rfl | ⟨f, isFunction, inner, frame, _⟩
    · exact main.1 fit.globals
    · rcases exists_site isFunction with ⟨before, site⟩
      exact (function site isFunction member frame).1 (fit.functions before f site)
  · intro fits
    refine ⟨main.2 (fits _ List.mem_cons_self), fun before f site => ?_⟩
    have isFunction := placed_of_site site
    rcases exists_region_of_function isFunction with ⟨r, member, inner, frame, _⟩
    exact (function site isFunction member frame).2 (fits r member)

end Program

/-! ## Functions -/

/-- Keys are distinct if searching for the key of any element finds that element. Elements with one
key are told apart by their places. -/
theorem nodup_map_iff_find? {α κ π : Type} [DecidableEq κ] {key : α → κ} {place : α → π}
    {xs : List α} (apart : (xs.map fun x => (key x, place x)).Nodup) :
    (xs.map key).Nodup ↔
      ∀ x ∈ xs, ∃ y, xs.find? (fun z => key z = key x) = some y ∧ place y = place x := by
  induction xs with
  | nil => simp
  | cons x xs ih =>
    rw [List.map_cons, List.nodup_cons] at apart
    rcases apart with ⟨away, apart⟩
    rw [List.map_cons, List.nodup_cons, ih apart]
    constructor
    · rintro ⟨once, found⟩ y listed
      rcases List.mem_cons.1 listed with rfl | later
      · exact ⟨y, by simp, rfl⟩
      · have other : key x ≠ key y := fun same => once (List.mem_map.2 ⟨y, later, same.symm⟩)
        rcases found y later with ⟨z, search, same⟩
        exact ⟨z, by simpa [List.find?_cons, other] using search, same⟩
    · intro found
      -- if the first element had the key of a later one, it would be found in its place
      have other : ∀ y ∈ xs, key x ≠ key y := by
        intro y later same
        rcases found y (List.mem_cons_of_mem x later) with ⟨z, search, samePlace⟩
        rw [List.find?_cons_of_pos (by simpa using same)] at search
        cases search
        exact away (List.mem_map.2 ⟨y, later, Prod.ext same.symm samePlace.symm⟩)
      refine ⟨fun again => ?_, fun y later => ?_⟩
      · rcases List.mem_map.1 again with ⟨y, later, same⟩
        exact other y later same.symm
      · rcases found y (List.mem_cons_of_mem x later) with ⟨z, search, same⟩
        exact ⟨z, by simpa [List.find?_cons, other y later] using search, same⟩

/-- Nothing speaks against the functions of the region's frame. -/
def Region.FunctionsFit (r : Region) : Prop :=
  (r.frame.functionDecls.map fun entry => entry.1.lexeme).Nodup ∧
    ∀ entry ∈ r.frame.functionDecls, ∀ bare, entry.1.lexeme = "F_" ++ bare →
      ¬ IsReservedWord bare ∧ ¬ r.SeesVariable ("V_" ++ bare) ∧
        ∀ owner, r.frame.owner = some owner → entry.1.lexeme ≠ owner.1.lexeme

/-- There is no objection to a function that is entered, unreserved and no variable. -/
theorem ScopeTree.functionObjection_eq_none_iff {tree : ScopeTree} {outer : Nat} {name : Name} :
    tree.functionObjection outer name = none ↔
      (tree.functionEntry outer name).isSome ∧ isReserved name.bare = false ∧
        tree.lookupVariable outer ("V_" ++ name.bare) = none ∧
        ¬ (tree.scope? outer).any (fun s => s.name = name.source) = true := by
  unfold functionObjection
  cases tree.functionEntry outer name with
  | none => simp
  | some entry =>
    cases isReserved name.bare with
    | true => simp
    | false =>
      cases tree.lookupVariable outer ("V_" ++ name.bare) with
      | some d => simp
      | none => simp

namespace Program

variable {p : Program}

/-- A function has an entry if it is the first of its name in its frame. -/
theorem isSome_functionEntry_iff {tree : ScopeTree} (h : p.Hoisted tree) {r : Region}
    (member : r ∈ p.regions) {name : Name} (isFunction : name.IsFunction) :
    (tree.functionEntry r.frame.number name).isSome ↔
      ∃ entry, r.frame.findFunction? name.source = some entry ∧ entry.1.pos = name.pos := by
  have looked := h.lookupLocal member name.bare
  rw [← isFunction.source_eq] at looked
  unfold ScopeTree.functionEntry
  cases found : r.frame.findFunction? name.source with
  | none =>
    rw [found, Option.map_none, Option.map_eq_none_iff] at looked
    simp [looked]
  | some entry =>
    rw [found] at looked
    rcases Option.map_eq_some_iff.1 looked with ⟨d, isEntry, view⟩
    have place : d.symbol.pos = entry.1.pos := congrArg (fun v => v.2.2) view
    simp [isEntry, place, Option.isSome_filter]

/-- Scopes of functions have the names of their functions. -/
theorem any_scopeName_iff {tree : ScopeTree} (h : p.Hoisted tree) {r : Region}
    (member : r ∈ p.regions) {name : Name} (isFunction : name.IsFunction) :
    (tree.scope? r.frame.number).any (fun s => s.name = name.source) = true ↔
      ∃ owner, r.frame.owner = some owner ∧ name.source = owner.1.lexeme := by
  have scope : tree.scope? r.frame.number = p.hoisted.scope? r.frame.number := by
    rw [ScopeTree.scope?, h.scopes]
    rfl
  rcases p.scopes_hoisted with ⟨⟨_, globalScope⟩, opened⟩
  rcases region_cases member with rfl | ⟨f, isPlaced, inner, frame, _⟩
  · -- the global scope has a name too, but not one that a function can have
    have unmarked : "global" ≠ name.source := by
      intro same
      have chars := congrArg String.toList same
      rw [isFunction.source_eq] at chars
      simp at chars
    rw [scope]
    simp [mainRegion, globalFrame, globalScope, ScopeTree.initial, ScopeTree.global, unmarked]
  · have number : r.frame.number = f.own := by rw [frame]; rfl
    have owner : r.frame.owner = some f.value.header := by rw [frame]; rfl
    rcases opened f isPlaced with ⟨s, _, named, found, _⟩
    rw [scope, number, found, owner]
    simp [named, FunctionDecl.header, Name.source, eq_comm]

/-- The functions of a frame are those placed in it. -/
theorem mem_functionDecls_iff {r : Region} (member : r ∈ p.regions) {entry : Token × ReturnType} :
    entry ∈ r.frame.functionDecls ↔
      ∃ f ∈ p.placed.toList, f.outer = r.frame.number ∧ f.value.header = entry := by
  rw [functionDecls_eq member]
  simp [and_assoc]

/-- In a region, the objection can be told from the frames around it. -/
theorem functionObjection_region (named : p.WellNamed) (fit : p.VariablesFit) {r : Region}
    (member : r ∈ p.regions) {name : Name} (isFunction : name.IsFunction) :
    p.scopeTree.functionObjection r.frame.number name = none ↔
      (∃ entry, r.frame.findFunction? name.source = some entry ∧ entry.1.pos = name.pos) ∧
        ¬ IsReservedWord name.bare ∧ ¬ r.SeesVariable ("V_" ++ name.bare) ∧
          ∀ owner, r.frame.owner = some owner → name.source ≠ owner.1.lexeme := by
  have h := hoisted_scopeTree named
  rw [ScopeTree.functionObjection_eq_none_iff, isSome_functionEntry_iff h member isFunction,
    isReserved_eq_false_iff, lookupVariable_eq_none_iff named fit member,
    any_scopeName_iff h member isFunction]
  simp only [not_exists, not_and, ne_eq]

/-- Functions fit if they do in each region. -/
theorem functionsFit_iff (named : p.WellNamed) (fit : p.VariablesFit) :
    (∀ f ∈ p.placed.toList, p.scopeTree.functionObjection f.outer f.value.name = none) ↔
      ∀ r ∈ p.regions, r.FunctionsFit := by
  constructor
  · intro fits r member
    have single {f : Placed FunctionDecl} (isPlaced : f ∈ p.placed.toList)
        (inside : f.outer = r.frame.number) :=
      (functionObjection_region named fit member (named.function_isFunction isPlaced)).1
        (inside ▸ fits f isPlaced)
    constructor
    · -- every function has an entry, so it is the first of its name
      refine (nodup_map_iff_find? (named.functionDecls_apart member)).2 fun entry listed => ?_
      rcases (mem_functionDecls_iff member).1 listed with ⟨f, isPlaced, inside, rfl⟩
      exact (single isPlaced inside).1
    · intro entry listed bare spelling
      rcases (mem_functionDecls_iff member).1 listed with ⟨f, isPlaced, inside, rfl⟩
      have bareOf : f.value.name.bare = bare := by
        rw [Name.bare, Name.source, show f.value.name.token.lexeme = _ from spelling,
          bareName_functionMark]
      rw [← bareOf]
      exact (single isPlaced inside).2
  · intro fits f isPlaced
    -- a function is judged in the region that it is declared in, not in its own
    rcases exists_region_around isPlaced with ⟨r, member, inside⟩
    have listed : f.value.header ∈ r.frame.functionDecls :=
      (mem_functionDecls_iff member).2 ⟨f, isPlaced, inside.symm, rfl⟩
    have isFunction := named.function_isFunction isPlaced
    rcases fits r member with ⟨distinct, others⟩
    rw [← inside, functionObjection_region named fit member isFunction]
    exact ⟨(nodup_map_iff_find? (named.functionDecls_apart member)).1 distinct _ listed,
      others _ listed _ isFunction.source_eq⟩

/-! ## Uses -/

end Program

/-- All names used in the region are visible. -/
def Region.UsesFit (r : Region) : Prop :=
  (∀ name, .variable name ∈ r.block.commands.uses → r.SeesVariable name.source) ∧
    ∀ name, .callee name ∈ r.block.commands.uses →
      name.source ≠ "F_main" ∧ r.SeesFunction name.source

/-- There is no objection to a use that refers to something. -/
theorem ScopeTree.useObjection_eq_none_iff {tree : ScopeTree} {scope : Nat} {use : NameUse} :
    tree.useObjection scope use = none ↔ (tree.referent scope use).isSome := by
  unfold useObjection
  cases tree.referent scope use with
  | some d => simp
  | none =>
    cases use with
    | «variable» name => simp
    | callee name =>
      dsimp only
      split
      · simp
      · simp

/-- In a block without problems every name has a referent. -/
theorem ScopeTree.isSome_referent_of_blockProblems {tree : ScopeTree} {scope : Nat} {block : Block}
    (clean : tree.blockProblems scope block = []) {use : NameUse}
    (listed : use ∈ block.commands.uses) : (tree.referent scope use).isSome :=
  useObjection_eq_none_iff.1 (List.filterMap_eq_nil_iff.1 clean use listed)

namespace Program

variable {p : Program}

/-- A variable refers to something if a frame around it declares the variable. -/
theorem isSome_referent_variable (named : p.WellNamed) (fit : p.VariablesFit) {r : Region}
    (member : r ∈ p.regions) {name : Name} (isVariable : name.IsVariable) :
    (p.scopeTree.referent r.frame.number (.variable name)).isSome ↔ r.SeesVariable name.source := by
  rw [isVariable.source_eq]
  calc (p.scopeTree.referent r.frame.number (.variable name)).isSome
      ↔ ¬ p.scopeTree.lookupVariable r.frame.number ("V_" ++ name.bare) = none := by
        rw [← isVariable.source_eq, ← Option.not_isSome_iff_eq_none, not_not]
        rfl
    _ ↔ r.SeesVariable ("V_" ++ name.bare) := by
        rw [lookupVariable_eq_none_iff named fit member, not_not]

/-- A callee refers to something if it is not the main part and a frame around it declares it. -/
theorem isSome_referent_callee (named : p.WellNamed) {r : Region} (member : r ∈ p.regions)
    {name : Name} (isFunction : name.IsFunction) :
    (p.scopeTree.referent r.frame.number (.callee name)).isSome ↔
      name.source ≠ "F_main" ∧ r.SeesFunction name.source := by
  have main : name.bare = "main" ↔ name.source = "F_main" := by
    rw [isFunction.source_eq, show "F_main" = "F_" ++ "main" from rfl, String.append_right_inj]
  simp only [ScopeTree.referent]
  -- `main` is refused whatever the scopes declare
  by_cases isMain : name.bare = "main"
  · simp [isMain, main.1 isMain]
  · rw [if_neg isMain, and_iff_right (mt main.2 isMain), isFunction.source_eq]
    calc (p.scopeTree.lookupFunction r.frame.number ("F_" ++ name.bare)).isSome
        ↔ ¬ p.scopeTree.lookupFunction r.frame.number ("F_" ++ name.bare) = none := by
          rw [← Option.not_isSome_iff_eq_none, not_not]
      _ ↔ r.SeesFunction ("F_" ++ name.bare) := by
          rw [(hoisted_scopeTree named).lookupFunction_eq_none_iff member, not_not]

/-- The names used in a region fit if each is declared around it. -/
theorem usesFit_iff (named : p.WellNamed) (fit : p.VariablesFit) {r : Region}
    (member : r ∈ p.regions) :
    p.scopeTree.blockProblems r.frame.number r.block = [] ↔ r.UsesFit := by
  rw [ScopeTree.blockProblems, List.filterMap_eq_nil_iff]
  simp only [ScopeTree.useObjection_eq_none_iff]
  constructor
  · intro found
    refine ⟨fun name listed => ?_, fun name listed => ?_⟩
    · exact (isSome_referent_variable named fit member (named.used_isVariable member listed)).1
        (found _ listed)
    · exact (isSome_referent_callee named member (named.callee_isFunction member listed)).1
        (found _ listed)
  · rintro ⟨used, called⟩ use listed
    cases use with
    | «variable» name =>
      exact (isSome_referent_variable named fit member (named.used_isVariable member listed)).2
        (used name listed)
    | callee name =>
      exact (isSome_referent_callee named member (named.callee_isFunction member listed)).2
        (called name listed)

/-! ## All together -/

/-- Without problems, nothing is objected to in any part of the program. -/
theorem scopeProblems_eq_nil_iff {tree : ScopeTree} :
    p.scopeProblems tree = [] ↔ p.VariablesFit ∧
      (∀ f ∈ p.placed.toList, tree.functionObjection f.outer f.value.name = none) ∧
      ∀ r ∈ p.regions, tree.blockProblems r.frame.number r.block = [] := by
  have single (before : ScopeTree) (f : Placed FunctionDecl) : tree.declProblems before f = [] ↔
      tree.functionObjection f.outer f.value.name = none ∧
        before.variableProblems f.own f.value.entries = [] ∧
        tree.blockProblems f.own f.value.body = [] := by
    simp only [ScopeTree.declProblems, List.append_eq_nil_iff, Option.toList_eq_nil_iff,
      Option.map_eq_none_iff, and_assoc]
  simp only [scopeProblems, List.append_eq_nil_iff, List.flatMap_eq_nil_iff, Prod.forall, single]
  -- problems are listed by function, and each function is the owner of exactly one region
  constructor
  · rintro ⟨⟨globals, block⟩, functions⟩
    have decl {f : Placed FunctionDecl} (isPlaced : f ∈ p.placed.toList) :
        tree.functionObjection f.outer f.value.name = none ∧
          tree.blockProblems f.own f.value.body = [] := by
      rcases exists_site isPlaced with ⟨before, site⟩
      exact ⟨(functions before f site).1, (functions before f site).2.2⟩
    refine ⟨⟨globals, fun before f site => (functions before f site).2.1⟩,
      fun f isPlaced => (decl isPlaced).1, fun r member => ?_⟩
    rcases region_cases member with rfl | ⟨f, isPlaced, inner, frame, body⟩
    · exact block
    · rw [frame, body]
      exact (decl isPlaced).2
  · rintro ⟨fit, functions, blocks⟩
    refine ⟨⟨fit.globals, blocks _ List.mem_cons_self⟩, fun before f site => ?_⟩
    have isPlaced := placed_of_site site
    rcases exists_region_of_function isPlaced with ⟨r, member, inner, frame, body⟩
    have block := blocks r member
    rw [frame, body] at block
    exact ⟨functions f isPlaced, fit.functions before f site, block⟩

/-- If no variable clashes with a function that it sees and no function with a variable that it
sees, then no two visible names clash at all. -/
theorem noClash_of_fits (variablesFit : ∀ r ∈ p.regions, r.VariablesFit)
    (functionsFit : ∀ r ∈ p.regions, r.FunctionsFit) {r : Region} (member : r ∈ p.regions)
    (bare : String) : ¬ (r.SeesVariable ("V_" ++ bare) ∧ r.SeesFunction ("F_" ++ bare)) := by
  rintro ⟨⟨inV, seenV, entryV, listedV, spellingV⟩, ⟨inF, seenF, entryF, listedF, spellingF⟩⟩
  rcases List.append_of_mem seenV with ⟨frontV, outerV, splitV⟩
  rcases List.append_of_mem seenF with ⟨frontF, outerF, splitF⟩
  have suffixV : (inV :: outerV) <:+ r.frames := ⟨frontV, splitV.symm⟩
  have suffixF : (inF :: outerF) <:+ r.frames := ⟨frontF, splitF.symm⟩
  -- both frames belong to regions of their own, and one of these lies around the other
  rcases exists_region member suffixV with ⟨rV, memberV, framesV⟩
  rcases exists_region member suffixF with ⟨rF, memberF, framesF⟩
  have frameV : rV.frame = inV := (List.cons.inj framesV).1
  have frameF : rF.frame = inF := (List.cons.inj framesF).1
  rcases List.suffix_or_suffix_of_suffix suffixV suffixF with around | around
  · -- the variable is declared further out, so the function sees it
    refine ((functionsFit rF memberF).2 entryF (frameF ▸ listedF) bare spellingF).2.1 ?_
    exact ⟨inV, framesF ▸ around.subset List.mem_cons_self, entryV, listedV, spellingV⟩
  · -- the function is declared further out, so the variable sees it
    refine ((variablesFit rV memberV).2 entryV (frameV ▸ listedV) bare spellingV).2 ?_
    exact ⟨inF, framesV ▸ around.subset List.mem_cons_self, entryF, listedF, spellingF⟩

/-- The rules for a program are the rules for its regions. -/
theorem wellScoped_iff (named : p.WellNamed) :
    p.WellScoped ↔ (∀ r ∈ p.regions, r.VariablesFit) ∧ (∀ r ∈ p.regions, r.FunctionsFit) ∧
      ∀ r ∈ p.regions, r.UsesFit := by
  constructor
  · intro ws
    refine ⟨fun r member => ⟨ws.variablesDistinct r member, ?_⟩,
      fun r member => ⟨ws.functionsDistinct r member, ?_⟩,
      fun r member => ⟨ws.variablesDeclared r member, ws.functionsDeclared r member⟩⟩
    · intro entry listed bare spelling
      refine ⟨ws.variablesNotReserved r member entry listed bare spelling, fun seen => ?_⟩
      exact ws.noClash r member bare ⟨⟨r.frame, List.mem_cons_self, entry, listed, spelling⟩, seen⟩
    · intro entry listed bare spelling
      refine ⟨ws.functionsNotReserved r member entry listed bare spelling, fun seen => ?_,
        fun owner isOwner => ws.notNamedAfterOwner r member owner isOwner entry listed⟩
      exact ws.noClash r member bare ⟨seen, ⟨r.frame, List.mem_cons_self, entry, listed, spelling⟩⟩
  · rintro ⟨variablesFit, functionsFit, usesFit⟩
    -- the rule about owners speaks of tokens, the one for regions of bare names
    have isFunction {r : Region} (member : r ∈ p.regions) {entry : Token × ReturnType}
        (listed : entry ∈ r.frame.functionDecls) : ∃ bare, entry.1.lexeme = "F_" ++ bare := by
      rcases (mem_functionDecls_iff member).1 listed with ⟨f, isPlaced, _, rfl⟩
      exact named.function_isFunction isPlaced
    exact {
      variablesDistinct := fun r member => (variablesFit r member).1
      functionsDistinct := fun r member => (functionsFit r member).1
      variablesNotReserved := fun r member entry listed bare spelling =>
        ((variablesFit r member).2 entry listed bare spelling).1
      functionsNotReserved := fun r member entry listed bare spelling =>
        ((functionsFit r member).2 entry listed bare spelling).1
      noClash := fun r member => noClash_of_fits variablesFit functionsFit member
      notNamedAfterOwner := fun r member owner isOwner entry listed => by
        rcases isFunction member listed with ⟨bare, spelling⟩
        exact ((functionsFit r member).2 entry listed bare spelling).2.2 owner isOwner
      variablesDeclared := fun r member => (usesFit r member).1
      functionsDeclared := fun r member => (usesFit r member).2 }

/-- What resolving looks for in a program with proper names. -/
theorem scopeProblems_scopeTree_eq_nil_iff (named : p.WellNamed) :
    p.scopeProblems p.scopeTree = [] ↔ p.WellScoped := by
  rw [scopeProblems_eq_nil_iff, wellScoped_iff named, ← variablesFit_iff named]
  refine and_congr_right fun fit => and_congr (functionsFit_iff named fit) ?_
  exact forall_congr' fun r => forall_congr' fun member => usesFit_iff named fit member

end Program

/-- Resolving a program that is read from a text gives no diagnostics if and only if the program is
well-scoped. -/
theorem resolve_diagnostics_eq_nil_iff {text file : String} {tokens : List Token} {p : Program}
    (read : tokenize text file = .ok tokens) (parsed : parse tokens = .ok p) :
    (resolve p).diagnostics = [] ↔ p.WellScoped := by
  rw [Resolution.diagnostics, List.map_eq_nil_iff]
  exact Program.scopeProblems_scopeTree_eq_nil_iff (wellNamed_of_parse read parsed)

/-- A function that is declared behind the main block clashes with a global variable. -/
def clashingSource : String :=
  "main num V_a begin end void F_a(V_x,V_y,V_z)\x7bnum V_p,num V_q,num V_r,begin end\x7dend"

/-- Shadowing is accepted and a clash is not. -/
theorem resolve_diagnostics_nested_and_clashing :
    (∃ tokens p, tokenize nestedSource "nested.spl" = .ok tokens ∧ parse tokens = .ok p ∧
      (resolve p).diagnostics = [] ∧ p.WellScoped) ∧
    ∃ tokens p, tokenize clashingSource "clashing.spl" = .ok tokens ∧ parse tokens = .ok p ∧
      (resolve p).diagnostics ≠ [] ∧ ¬ p.WellScoped := by
  constructor
  · rcases exists_program_nestedSource with ⟨tokens, p, read, parsed, clean, _, _⟩
    exact ⟨tokens, p, read, parsed, clean, (resolve_diagnostics_eq_nil_iff read parsed).1 clean⟩
  · have passes : (readProgram? clashingSource "clashing.spl").any
        (fun p => !(resolve p).diagnostics.isEmpty) = true := by decide +kernel
    rcases exists_of_readProgram? passes with ⟨tokens, p, read, parsed, tested⟩
    have reported : (resolve p).diagnostics ≠ [] := by simpa using tested
    exact ⟨tokens, p, read, parsed, reported,
      mt (resolve_diagnostics_eq_nil_iff read parsed).2 reported⟩

end SplBasic
