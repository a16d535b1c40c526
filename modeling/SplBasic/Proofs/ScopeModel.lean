import Mathlib.Data.List.Nodup
import SplBasic.Proofs.ProgramNames
import SplBasic.Proofs.StaticScope
import SplBasic.Scope.Resolve

/-!
# Scope trees against static scoping

What the scope trees built for a program say about its regions:

* `Declaration.view` : what static scoping can tell of a declaration,
* `lookupLocal_hoist`, `lookupLocal_declareVariable` : what one step changes,
* `Program.Hoisted` : a tree with the scopes and functions of a program, whatever its variables;
  it answers every question about functions as static scoping does,
* `variableProblems_eq_nil_iff` : when all variables of a scope can be declared,
* `Program.lookupLocal_scopeTree` : with all variables declared, the complete tree answers every
  question about variables as static scoping does.
-/

namespace SplBasic

/-! ## Walks -/

/-- A step of a walk is taken in the state behind the steps before it. -/
theorem mem_along {α σ : Type} {step : σ → α → σ} {s t : σ} {xs : List α} {a : α} :
    (t, a) ∈ along step s xs ↔
      ∃ earlier later, xs = earlier ++ a :: later ∧ t = earlier.foldl step s := by
  induction xs generalizing s with
  | nil => simp [along]
  | cons x xs ih =>
    rw [along, List.mem_cons, Prod.mk.injEq, ih]
    constructor
    · rintro (⟨rfl, rfl⟩ | ⟨earlier, later, rfl, rfl⟩)
      · exact ⟨[], xs, rfl, rfl⟩
      · exact ⟨x :: earlier, later, rfl, rfl⟩
    · rintro ⟨earlier, later, split, rfl⟩
      cases earlier with
      | nil =>
        cases split
        exact .inl ⟨rfl, rfl⟩
      | cons y earlier =>
        cases split
        exact .inr ⟨earlier, later, rfl, rfl⟩

theorem mem_of_mem_along {α σ : Type} {step : σ → α → σ} {s t : σ} {xs : List α} {a : α}
    (site : (t, a) ∈ along step s xs) : a ∈ xs := by
  rcases mem_along.1 site with ⟨earlier, later, rfl, _⟩
  exact List.mem_append_right _ List.mem_cons_self

/-! ## Marks -/

/-- The marks tell variables from functions. -/
theorem variableMark_ne_functionMark (a b : String) : "V_" ++ a ≠ "F_" ++ b := by
  intro same
  have chars := congrArg String.toList same
  simp at chars

@[simp] theorem bareName_variableMark (bare : String) : bareName ("V_" ++ bare) = bare := by
  simp [bareName]

@[simp] theorem bareName_functionMark (bare : String) : bareName ("F_" ++ bare) = bare := by
  simp [bareName]

/-! ## Views of declarations -/

/-- What static scoping can tell of a declaration: its kind, its type and its place. -/
def Declaration.view (d : Declaration) : SymbolKind × Ty × Position :=
  (d.symbol.kind, d.symbol.ty, d.symbol.pos)

/-- The view of a variable that is declared as given. -/
def variableView (entry : Token × ValueType) : SymbolKind × Ty × Position :=
  (.variable, entry.2.ty, entry.1.pos)

def functionView (entry : Token × ReturnType) : SymbolKind × Ty × Position :=
  (.function, entry.2.ty, entry.1.pos)

namespace ScopeTree

/-! ## One step -/

/-- Of several functions with one name in one scope the first is declared. -/
theorem lookupLocal_hoist (tree : ScopeTree) (f : Placed FunctionDecl) (s : Nat) (name : String) :
    ((tree.hoist f).lookupLocal s name).map Declaration.view =
      ((tree.lookupLocal s name).map Declaration.view).or
        (if f.outer = s ∧ f.value.name.source = name then some (functionView f.value.header)
        else none) := by
  unfold hoist
  by_cases here : f.outer = s ∧ f.value.name.source = name
  · rcases here with ⟨rfl, rfl⟩
    cases found : tree.lookupLocal f.outer f.value.name.source with
    | some d => simp [found]
    | none =>
      simp [found, lookupLocal_declare, Declaration.view, functionView, FunctionDecl.header,
        Name.pos]
  · -- whether or not the function is declared in its own scope, this answer stays
    simp only [here, if_false, Option.or_none]
    split
    · rw [lookupLocal_addScope]
    · rw [lookupLocal_declare, if_neg here, lookupLocal_addScope]

/-- Behind hoisting a list of functions, a scope has those that stand in it, the first one of each
name. -/
theorem lookupLocal_foldl_hoist (fs : List (Placed FunctionDecl)) (tree : ScopeTree) (s : Nat)
    (name : String) :
    ((fs.foldl hoist tree).lookupLocal s name).map Declaration.view =
      ((tree.lookupLocal s name).map Declaration.view).or
        ((fs.find? fun f => f.outer = s ∧ f.value.name.source = name).map
          fun f => functionView f.value.header) := by
  induction fs generalizing tree with
  | nil => simp
  | cons f fs ih =>
    rw [List.foldl_cons, ih, lookupLocal_hoist, Option.or_assoc, List.find?_cons]
    by_cases here : f.outer = s ∧ f.value.name.source = name
    · simp [here]
    · simp [here]

/-- A variable that meets an objection leaves the tree as it is. -/
theorem declareVariable_of_objection {tree : ScopeTree} {scope : Nat} {entry : Name × ValueType}
    (objection : (tree.variableObjection scope entry.1).isSome) :
    tree.declareVariable scope entry = tree := by
  simp [declareVariable, objection]

/-- The declaration that a variable gets if nothing speaks against it. -/
def newVariable (tree : ScopeTree) (scope : Nat) (entry : Name × ValueType) : Declaration :=
  ⟨tree.declarations.length, scope,
    ⟨entry.1.source, tree.nextVariableName, .variable, entry.2.ty, tree.level scope, entry.1.pos⟩⟩

theorem declarations_declareVariable {tree : ScopeTree} {scope : Nat} {entry : Name × ValueType}
    (fits : tree.variableObjection scope entry.1 = none) :
    (tree.declareVariable scope entry).declarations =
      tree.newVariable scope entry :: tree.declarations := by
  simp [declareVariable, fits, declare, newVariable]

/-- A declared variable is found in its scope under its name; all else is found as before. -/
theorem lookupLocal_declareVariable {tree : ScopeTree} {scope : Nat} {entry : Name × ValueType}
    (fits : tree.variableObjection scope entry.1 = none) (s : Nat) (name : String) :
    (tree.declareVariable scope entry).lookupLocal s name =
      if scope = s ∧ entry.1.source = name then some (tree.newVariable scope entry)
      else tree.lookupLocal s name := by
  simp only [declareVariable, fits, Option.isSome_none, Bool.false_eq_true, if_false,
    lookupLocal_declare]
  rfl

/-- Declaring a variable touches no other scope and no other name. -/
theorem lookupLocal_declareVariable_of_ne (tree : ScopeTree) {scope s : Nat}
    {entry : Name × ValueType} {name : String} (other : scope ≠ s ∨ entry.1.source ≠ name) :
    (tree.declareVariable scope entry).lookupLocal s name = tree.lookupLocal s name := by
  cases fits : tree.variableObjection scope entry.1 with
  | some objection => rw [declareVariable_of_objection (by simp [fits])]
  | none =>
    rw [lookupLocal_declareVariable fits, if_neg]
    rintro ⟨sameScope, sameName⟩
    rcases other with h | h
    · exact h sameScope
    · exact h sameName

/-- Declaring variables opens no scope. -/
@[simp] theorem scopes_declareVariable (tree : ScopeTree) (scope : Nat) (entry : Name × ValueType) :
    (tree.declareVariable scope entry).scopes = tree.scopes := by
  unfold declareVariable
  dsimp only
  split
  · rfl
  · rfl

theorem scopes_foldl_declareVariable (tree : ScopeTree) (scope : Nat)
    (entries : List (Name × ValueType)) :
    (entries.foldl (declareVariable · scope) tree).scopes = tree.scopes := by
  induction entries generalizing tree with
  | nil => rfl
  | cons entry entries ih => rw [List.foldl_cons, ih, scopes_declareVariable]

theorem scopes_foldl_declareVariables (tree : ScopeTree) (fs : List (Placed FunctionDecl)) :
    (fs.foldl declareVariables tree).scopes = tree.scopes := by
  induction fs generalizing tree with
  | nil => rfl
  | cons f fs ih => rw [List.foldl_cons, ih, declareVariables, scopes_foldl_declareVariable]

/-! ## Scopes -/

/-- Hoisting a function opens one scope inside the one that it stands in. -/
theorem scopes_hoist (tree : ScopeTree) (f : Placed FunctionDecl) :
    (tree.hoist f).scopes =
      ⟨tree.scopes.length, f.value.name.source, tree.level f.outer + 1, some f.outer⟩
        :: tree.scopes := by
  unfold hoist
  dsimp only
  split
  · rfl
  · rfl

/-- The new scope has the scopes around it behind it, and the others keep their chains. -/
theorem chain_hoist (tree : ScopeTree) (f : Placed FunctionDecl) (s : Nat) :
    (tree.hoist f).chain s =
      if tree.scopes.length = s then
        ⟨tree.scopes.length, f.value.name.source, tree.level f.outer + 1, some f.outer⟩
          :: tree.chain f.outer
      else tree.chain s := by
  rw [chain, scopes_hoist]
  rfl

theorem scope?_hoist (tree : ScopeTree) (f : Placed FunctionDecl) (s : Nat) :
    (tree.hoist f).scope? s =
      if tree.scopes.length = s then
        some ⟨tree.scopes.length, f.value.name.source, tree.level f.outer + 1, some f.outer⟩
      else tree.scope? s := by
  rw [scope?, scopes_hoist, List.find?_cons]
  by_cases newest : tree.scopes.length = s
  · simp [newest]
  · simp [newest, scope?]

/-- Hoisting functions whose numbers are the next ones gives each a scope of its number, inside the
scope it names, and leaves the scopes that were there. -/
theorem scopes_foldl_hoist (fs : List (Placed FunctionDecl)) (tree : ScopeTree)
    (numbered : fs.map Placed.own = List.range' tree.scopes.length fs.length)
    (below : ∀ f ∈ fs, f.outer < f.own) :
    (∀ s < tree.scopes.length, (fs.foldl hoist tree).chain s = tree.chain s ∧
      (fs.foldl hoist tree).scope? s = tree.scope? s) ∧
    ∀ f ∈ fs, ∃ scope, scope.id = f.own ∧ scope.name = f.value.name.source ∧
      (fs.foldl hoist tree).scope? f.own = some scope ∧
      (fs.foldl hoist tree).chain f.own = scope :: (fs.foldl hoist tree).chain f.outer := by
  induction fs generalizing tree with
  | nil => simp
  | cons f fs ih =>
    rw [List.map_cons, List.length_cons, List.range'_succ, List.cons.injEq] at numbered
    rcases numbered with ⟨own, numbered⟩
    have opened : (tree.hoist f).scopes.length = tree.scopes.length + 1 := by
      rw [scopes_hoist, List.length_cons]
    rcases ih (tree.hoist f) (by rw [opened]; exact numbered)
      (fun g member => below g (List.mem_cons_of_mem f member)) with ⟨old, new⟩
    rw [opened] at old
    -- old scopes are older than the one that this step opens
    have kept : ∀ s < tree.scopes.length, (fs.foldl hoist (tree.hoist f)).chain s = tree.chain s ∧
        (fs.foldl hoist (tree.hoist f)).scope? s = tree.scope? s := by
      intro s isOld
      have other : tree.scopes.length ≠ s := by omega
      rcases old s (by omega) with ⟨sameChain, sameScope⟩
      refine ⟨sameChain.trans ?_, sameScope.trans ?_⟩
      · rw [chain_hoist, if_neg other]
      · rw [scope?_hoist, if_neg other]
    refine ⟨kept, ?_⟩
    intro g member
    rcases List.mem_cons.1 member with rfl | later
    · -- the scope opened by this step is still there in the end, and so is the one around it
      have outerOld : g.outer < tree.scopes.length := own ▸ below g List.mem_cons_self
      rcases old g.own (by omega) with ⟨sameChain, sameScope⟩
      refine ⟨⟨tree.scopes.length, g.value.name.source, tree.level g.outer + 1, some g.outer⟩,
        own.symm, rfl, sameScope.trans ?_, sameChain.trans ?_⟩
      · rw [scope?_hoist, if_pos own.symm]
      · rw [chain_hoist, if_pos own.symm, List.foldl_cons, (kept g.outer outerOld).1]
    · exact new g later

end ScopeTree

/-- If each function has a scope inside the scope around it, chains of scopes run along the frames
of regions. -/
theorem chain_of_region {tree : ScopeTree} (forest : Forest FunctionDecl) {outer next : Nat}
    (opened : ∀ f ∈ (forest.place outer next).toList, ∃ scope : Scope, scope.id = f.own ∧
      tree.chain f.own = scope :: tree.chain f.outer)
    {env : List Frame} (around : (tree.chain outer).map Scope.id = env.map Frame.number) {r : Region}
    (member : r ∈ regionsOf env (forest.place outer next)) :
    (tree.chain r.frame.number).map Scope.id = r.frames.map Frame.number := by
  induction forest generalizing outer next env with
  | nil => cases member
  | cons root children rest ihChildren ihRest =>
    simp only [Forest.place, Forest.toList, List.mem_cons, List.mem_append] at opened
    rcases opened ⟨next, outer, root⟩ (.inl rfl) with ⟨scope, id, chain⟩
    -- the scope of the first function goes in front of the scopes around the forest
    let frame := Placed.frame ⟨next, outer, root⟩ (children.place next (next + 1))
    have aroundChildren : (tree.chain next).map Scope.id = (frame :: env).map Frame.number := by
      rw [chain, List.map_cons, id, around]
      rfl
    simp only [Forest.place, regionsOf, List.mem_cons, List.mem_append] at member
    rcases member with rfl | inside | behind
    · exact aroundChildren
    · exact ihChildren (fun f found => opened f (.inr (.inl found))) aroundChildren inside
    · exact ihRest (fun f found => opened f (.inr (.inr found))) around behind

namespace Program

/-- The scopes of functions are numbered in preorder. -/
theorem map_own_placed (p : Program) :
    p.placed.toList.map Placed.own = List.range' 1 p.functions.size :=
  p.functions.map_own_place 0 1

theorem length_placed (p : Program) : p.placed.toList.length = p.functions.size := by
  have counted := congrArg List.length p.map_own_placed
  simpa using counted

/-- The global scope is on top, and each function has a scope inside the one that it stands in. -/
theorem scopes_hoisted (p : Program) :
    (p.hoisted.chain 0 = ScopeTree.initial.scopes ∧
      p.hoisted.scope? 0 = ScopeTree.initial.scopes.head?) ∧
    ∀ f ∈ p.placed.toList, ∃ scope : Scope, scope.id = f.own ∧ scope.name = f.value.name.source ∧
      p.hoisted.scope? f.own = some scope ∧
      p.hoisted.chain f.own = scope :: p.hoisted.chain f.outer := by
  have numbered : p.placed.toList.map Placed.own =
      List.range' ScopeTree.initial.scopes.length p.placed.toList.length := by
    rw [p.map_own_placed, p.length_placed]
    rfl
  have below : ∀ f ∈ p.placed.toList, f.outer < f.own := fun f member =>
    (p.functions.outer_place Nat.zero_lt_one f member).2.1
  rcases ScopeTree.scopes_foldl_hoist p.placed.toList .initial numbered below with ⟨old, new⟩
  exact ⟨old 0 Nat.zero_lt_one, new⟩

/-- The chain of a scope passes through the frames that static scoping looks at, in the same order.
-/
theorem chain_hoisted {p : Program} {r : Region} (member : r ∈ p.regions) :
    (p.hoisted.chain r.frame.number).map Scope.id = r.frames.map Frame.number := by
  rcases p.scopes_hoisted with ⟨⟨globalChain, _⟩, opened⟩
  have around : (p.hoisted.chain 0).map Scope.id = [p.globalFrame].map Frame.number := by
    rw [globalChain]
    rfl
  rcases List.mem_cons.1 member with rfl | inside
  · exact around
  · refine chain_of_region p.functions (fun f found => ?_) around inside
    rcases opened f found with ⟨scope, id, _, _, chain⟩
    exact ⟨scope, id, chain⟩

end Program

/-! ## Looking names up -/

/-- If single scopes answer as given for their frames, looking a name up from a region gives the
answer of the nearest frame that has one. -/
theorem Program.view_lookup {p : Program} {tree : ScopeTree} (scopes : tree.scopes = p.hoisted.scopes)
    {name : String} {answer : Frame → Option (SymbolKind × Ty × Position)}
    (single : ∀ r ∈ p.regions,
      (tree.lookupLocal r.frame.number name).map Declaration.view = answer r.frame)
    {r : Region} (member : r ∈ p.regions) :
    (tree.lookup r.frame.number name).map Declaration.view = r.frames.findSome? answer := by
  have chain : (tree.chain r.frame.number).map Scope.id = r.frames.map Frame.number := by
    rw [ScopeTree.chain, scopes]
    exact chain_hoisted member
  -- along the frames of the region, each of which is the frame of a region again
  have along : ∀ frames, frames <:+ r.frames →
      ((frames.map Frame.number).findSome? fun s => tree.lookupLocal s name).map Declaration.view =
        frames.findSome? answer := by
    intro frames within
    induction frames with
    | nil => rfl
    | cons frame outer ih =>
      rcases exists_region member within with ⟨r', isRegion, same⟩
      have frameOf : r'.frame = frame := (List.cons.inj same).1
      have here := single r' isRegion
      rw [frameOf] at here
      have further := ih ((List.suffix_cons frame outer).trans within)
      rw [List.map_cons, List.findSome?_cons, List.findSome?_cons, ← here]
      cases tree.lookupLocal frame.number name with
      | none => exact further
      | some d => rfl
  rw [ScopeTree.lookup_eq_findSome?, ← along r.frames List.suffix_rfl, ← chain, List.findSome?_map]
  rfl

/-- Asking for the kind that all answers have changes nothing. -/
theorem ScopeTree.view_lookupKind {tree : ScopeTree} {kind : SymbolKind} {s : Nat} {name : String}
    {α : Type} {found : Option α} {view : α → SymbolKind × Ty × Position}
    (ofKind : ∀ a, (view a).1 = kind)
    (looked : (tree.lookup s name).map Declaration.view = found.map view) :
    (tree.lookupKind kind s name).map Declaration.view = found.map view := by
  rw [← looked, lookupKind]
  cases result : tree.lookup s name with
  | none => rfl
  | some d =>
    rw [result] at looked
    rcases Option.map_eq_some_iff.1 looked.symm with ⟨a, _, same⟩
    have kindOf : d.symbol.kind = kind := by
      rw [← ofKind a, same]
      rfl
    simp [kindOf]

/-! ## Trees with all functions -/

/-- The tree has the scopes and the functions of the program. It may have any variables. -/
structure Program.Hoisted (p : Program) (tree : ScopeTree) : Prop where
  scopes : tree.scopes = p.hoisted.scopes
  functions : ∀ s bare,
    tree.lookupLocal s ("F_" ++ bare) = p.hoisted.lookupLocal s ("F_" ++ bare)

/-- A name that is marked as a variable. -/
def Name.IsVariable (name : Name) : Prop :=
  ∃ bare, name.source = "V_" ++ bare

def Name.IsFunction (name : Name) : Prop :=
  ∃ bare, name.source = "F_" ++ bare

/-- The mark is all that a spelling has in front of the bare name. -/
theorem Name.IsVariable.source_eq {name : Name} (isVariable : name.IsVariable) :
    name.source = "V_" ++ name.bare := by
  rcases isVariable with ⟨bare, source⟩
  rw [Name.bare, source, bareName_variableMark]

/-- No variable is called like a function. -/
theorem Name.IsVariable.source_ne {name : Name} (isVariable : name.IsVariable) (bare : String) :
    name.source ≠ "F_" ++ bare := by
  rw [isVariable.source_eq]
  exact variableMark_ne_functionMark _ _

theorem Name.IsFunction.source_eq {name : Name} (isFunction : name.IsFunction) :
    name.source = "F_" ++ name.bare := by
  rcases isFunction with ⟨bare, source⟩
  rw [Name.bare, source, bareName_functionMark]

namespace Program

/-- In the tree of all functions a scope has the functions of its frame. -/
theorem lookupLocal_hoisted {p : Program} {r : Region} (member : r ∈ p.regions) (name : String) :
    (p.hoisted.lookupLocal r.frame.number name).map Declaration.view =
      (r.frame.findFunction? name).map functionView := by
  have nothing : ScopeTree.initial.lookupLocal r.frame.number name = none := rfl
  rw [hoisted, ScopeTree.lookupLocal_foldl_hoist, nothing, Option.map_none, Option.none_or,
    Frame.findFunction?, functionDecls_eq member, List.find?_map, List.find?_filter, Option.map_map]
  congr 2
  funext f
  exact decide_eq_decide.2 (by simp [FunctionDecl.header, Name.source])

namespace Hoisted

variable {p : Program} {tree : ScopeTree}

/-- The tree of all functions is the first one with them. -/
theorem refl : p.Hoisted p.hoisted :=
  ⟨rfl, fun _ _ => rfl⟩

/-- Declaring a variable leaves the functions alone, as no variable is spelt like one. -/
theorem declareVariable (h : p.Hoisted tree) (scope : Nat) {entry : Name × ValueType}
    (isVariable : entry.1.IsVariable) : p.Hoisted (tree.declareVariable scope entry) where
  scopes := (tree.scopes_declareVariable scope entry).trans h.scopes
  functions s bare := by
    have other := isVariable.source_ne bare
    rw [ScopeTree.lookupLocal_declareVariable_of_ne tree (.inr other), h.functions]

theorem foldl_declareVariable (h : p.Hoisted tree) (scope : Nat) {entries : List (Name × ValueType)}
    (areVariables : ∀ entry ∈ entries, entry.1.IsVariable) :
    p.Hoisted (entries.foldl (ScopeTree.declareVariable · scope) tree) := by
  induction entries generalizing tree with
  | nil => exact h
  | cons entry entries ih =>
    exact ih (h.declareVariable scope (areVariables entry List.mem_cons_self))
      fun other member => areVariables other (List.mem_cons_of_mem entry member)

/-- The scope of a region has the functions of its frame. -/
theorem lookupLocal (h : p.Hoisted tree) {r : Region} (member : r ∈ p.regions) (bare : String) :
    (tree.lookupLocal r.frame.number ("F_" ++ bare)).map Declaration.view =
      (r.frame.findFunction? ("F_" ++ bare)).map functionView := by
  rw [h.functions, lookupLocal_hoisted member]

/-- Functions are looked up as static scoping finds them. -/
theorem lookupFunction (h : p.Hoisted tree) {r : Region} (member : r ∈ p.regions) (bare : String) :
    (tree.lookupFunction r.frame.number ("F_" ++ bare)).map Declaration.view =
      (r.findFunction? ("F_" ++ bare)).map functionView := by
  let answer (frame : Frame) := (frame.findFunction? ("F_" ++ bare)).map functionView
  have single : ∀ r ∈ p.regions,
      (tree.lookupLocal r.frame.number ("F_" ++ bare)).map Declaration.view = answer r.frame :=
    fun r isRegion => h.lookupLocal isRegion bare
  refine ScopeTree.view_lookupKind (fun _ => rfl) ?_
  rw [view_lookup h.scopes single member, Region.findFunction?, List.map_findSome?]
  rfl

/-- Looking up finds no function exactly if static scoping sees none. -/
theorem lookupFunction_eq_none_iff (h : p.Hoisted tree) {r : Region} (member : r ∈ p.regions)
    (bare : String) :
    tree.lookupFunction r.frame.number ("F_" ++ bare) = none ↔
      ¬ r.SeesFunction ("F_" ++ bare) := by
  calc tree.lookupFunction r.frame.number ("F_" ++ bare) = none
      ↔ (tree.lookupFunction r.frame.number ("F_" ++ bare)).map Declaration.view = none :=
        Option.map_eq_none_iff.symm
    _ ↔ r.findFunction? ("F_" ++ bare) = none := by
        rw [h.lookupFunction member, Option.map_eq_none_iff]
    _ ↔ ¬ r.SeesFunction ("F_" ++ bare) := by
        rw [← r.isSome_findFunction?_iff, Option.not_isSome_iff_eq_none]

end Hoisted

end Program

/-! ## Declaring variables -/

namespace ScopeTree

/-- What speaks against a variable is that it is declared twice, reserved, or called like a function
in sight. -/
theorem variableObjection_eq_none_iff {tree : ScopeTree} {scope : Nat} {name : Name} :
    tree.variableObjection scope name = none ↔
      tree.lookupLocal scope name.source = none ∧ isReserved name.bare = false ∧
        tree.lookupFunction scope ("F_" ++ name.bare) = none := by
  unfold variableObjection
  cases tree.lookupLocal scope name.source with
  | some d => simp
  | none =>
    cases isReserved name.bare with
    | false => simp
    | true => simp

/-- The first variable is tried before the others. -/
theorem variableProblems_cons (tree : ScopeTree) (scope : Nat) (entry : Name × ValueType)
    (entries : List (Name × ValueType)) :
    tree.variableProblems scope (entry :: entries) =
      ((tree.variableObjection scope entry.1).map (⟨·, entry.1.pos⟩)).toList
        ++ (tree.declareVariable scope entry).variableProblems scope entries := by
  cases objected : tree.variableObjection scope entry.1 with
  | none => simp [variableProblems, along, objected]
  | some cause => simp [variableProblems, along, objected]

theorem variableProblems_append (tree : ScopeTree) (scope : Nat)
    (entries entries' : List (Name × ValueType)) :
    tree.variableProblems scope (entries ++ entries') =
      tree.variableProblems scope entries
        ++ (entries.foldl (declareVariable · scope) tree).variableProblems scope entries' := by
  rw [variableProblems, along_append, List.filterMap_append, variableProblems, variableProblems]

/-- A list of variables is declared without problems if the first is and then the others are. -/
theorem variableProblems_cons_eq_nil_iff {tree : ScopeTree} {scope : Nat} {entry : Name × ValueType}
    {entries : List (Name × ValueType)} :
    tree.variableProblems scope (entry :: entries) = [] ↔
      tree.variableObjection scope entry.1 = none ∧
        (tree.declareVariable scope entry).variableProblems scope entries = [] := by
  rw [variableProblems_cons, List.append_eq_nil_iff]
  cases tree.variableObjection scope entry.1 with
  | none => simp
  | some cause => simp

/-- Variables do not hide functions. -/
theorem lookupFunction_declareVariable (tree : ScopeTree) (scope : Nat) {entry : Name × ValueType}
    (isVariable : entry.1.IsVariable) (s : Nat) (bare : String) :
    (tree.declareVariable scope entry).lookupFunction s ("F_" ++ bare) =
      tree.lookupFunction s ("F_" ++ bare) := by
  have other := isVariable.source_ne bare
  simp only [lookupFunction, lookupKind, lookup_eq_findSome?, chain, scopes_declareVariable,
    lookupLocal_declareVariable_of_ne tree (.inr other)]

/-- All variables of a list can be declared if they differ from each other and nothing speaks
against any of them to begin with. -/
theorem variableProblems_eq_nil_iff {tree : ScopeTree} {scope : Nat}
    {entries : List (Name × ValueType)} (areVariables : ∀ entry ∈ entries, entry.1.IsVariable) :
    tree.variableProblems scope entries = [] ↔
      (entries.map fun entry => entry.1.source).Nodup ∧
        ∀ entry ∈ entries, tree.variableObjection scope entry.1 = none := by
  induction entries generalizing tree with
  | nil => simp [variableProblems, along]
  | cons entry entries ih =>
    have isVariable := areVariables entry List.mem_cons_self
    rw [variableProblems_cons_eq_nil_iff,
      ih fun other member => areVariables other (List.mem_cons_of_mem entry member),
      List.map_cons, List.nodup_cons, List.forall_mem_cons]
    -- once the first variable is declared, it is the only new thing to object to
    have step (fits : tree.variableObjection scope entry.1 = none) (other : Name) :
        (tree.declareVariable scope entry).variableObjection scope other = none ↔
          entry.1.source ≠ other.source ∧ tree.variableObjection scope other = none := by
      rw [variableObjection_eq_none_iff, variableObjection_eq_none_iff,
        lookupFunction_declareVariable tree scope isVariable, lookupLocal_declareVariable fits]
      by_cases same : entry.1.source = other.source
      · simp [same]
      · simp [same]
    constructor
    · rintro ⟨fits, distinct, rest⟩
      refine ⟨⟨?_, distinct⟩, fits, fun other member => ((step fits other.1).1 (rest other member)).2⟩
      intro again
      rcases List.mem_map.1 again with ⟨other, member, same⟩
      exact ((step fits other.1).1 (rest other member)).1 same.symm
    · rintro ⟨⟨once, distinct⟩, fits, rest⟩
      refine ⟨fits, distinct, fun other member => (step fits other.1).2 ⟨?_, rest other member⟩⟩
      intro same
      exact once (List.mem_map.2 ⟨other, member, same.symm⟩)

/-- What a scope has once all variables of a list are declared in it. -/
theorem lookupLocal_foldl_declareVariable {tree : ScopeTree} {scope : Nat}
    {entries : List (Name × ValueType)} (fit : tree.variableProblems scope entries = [])
    (name : String) :
    ((entries.foldl (declareVariable · scope) tree).lookupLocal scope name).map Declaration.view =
      ((tree.lookupLocal scope name).map Declaration.view).or
        ((entries.find? fun entry => entry.1.source = name).map
          fun entry => variableView (entry.1.token, entry.2)) := by
  induction entries generalizing tree with
  | nil => simp
  | cons entry entries ih =>
    rcases variableProblems_cons_eq_nil_iff.1 fit with ⟨fits, rest⟩
    rw [List.foldl_cons, ih rest, lookupLocal_declareVariable fits, List.find?_cons]
    by_cases same : entry.1.source = name
    · -- no objection means that the scope did not have the name before
      have fresh : tree.lookupLocal scope name = none :=
        same ▸ (variableObjection_eq_none_iff.1 fits).1
      simp [same, fresh, newVariable, Declaration.view, variableView, Name.pos]
    · simp [same]

/-- Declaring variables in one scope does not show in another one. -/
theorem lookupLocal_foldl_declareVariable_of_ne (tree : ScopeTree) {scope s : Nat}
    (other : scope ≠ s) (entries : List (Name × ValueType)) (name : String) :
    (entries.foldl (declareVariable · scope) tree).lookupLocal s name =
      tree.lookupLocal s name := by
  induction entries generalizing tree with
  | nil => rfl
  | cons entry entries ih =>
    rw [List.foldl_cons, ih, lookupLocal_declareVariable_of_ne tree (.inl other)]

/-- Declaring the variables of functions shows in their own scopes only. -/
theorem lookupLocal_foldl_declareVariables_of_ne (tree : ScopeTree) {s : Nat}
    {fs : List (Placed FunctionDecl)} (others : ∀ f ∈ fs, f.own ≠ s) (name : String) :
    (fs.foldl declareVariables tree).lookupLocal s name = tree.lookupLocal s name := by
  induction fs generalizing tree with
  | nil => rfl
  | cons f fs ih =>
    rw [List.foldl_cons, ih _ fun g member => others g (List.mem_cons_of_mem f member)]
    exact lookupLocal_foldl_declareVariable_of_ne tree (others f List.mem_cons_self) _ name

end ScopeTree

/-! ## Names of a program and its regions -/

namespace Program

variable {p : Program}

theorem global_mem_names {decl : VarDecl} (member : decl ∈ p.globals) :
    ⟨.variable, decl.name⟩ ∈ p.names := by
  simp only [names, List.mem_append, List.mem_map]
  exact .inl (.inl ⟨decl, member, rfl⟩)

theorem value_mem_functions {f : Placed FunctionDecl} (member : f ∈ p.placed.toList) :
    f.value ∈ p.functions.toList := by
  rw [← p.functions.map_value_place 0 1]
  exact List.mem_map_of_mem member

theorem mem_names_of_function {f : Placed FunctionDecl} (member : f ∈ p.placed.toList)
    {n : KindedName} (listed : n ∈ f.value.names) : n ∈ p.names :=
  List.mem_append_right _ (List.mem_flatMap.2 ⟨f.value, value_mem_functions member, listed⟩)

/-- The names that a region uses are names of the program. -/
theorem use_mem_names {r : Region} (member : r ∈ p.regions) {use : NameUse}
    (listed : use ∈ r.block.commands.uses) : use.kinded ∈ p.names := by
  rcases region_cases member with rfl | ⟨f, isFunction, _, _, block⟩
  · exact List.mem_append_left _ (List.mem_append_right _ (List.mem_map_of_mem listed))
  · rw [block] at listed
    exact mem_names_of_function isFunction
      (List.mem_append_right _ (List.mem_map_of_mem listed))

/-- Every name of a program is declared, or used in one of its regions. -/
theorem declared_or_used {n : KindedName} (member : n ∈ p.names) :
    n.name ∈ p.declaredNames ∨
      ∃ r ∈ p.regions, ∃ use ∈ r.block.commands.uses, use.kinded = n := by
  rcases List.mem_append.1 member with outside | inside
  · rcases List.mem_append.1 outside with declared | used
    · rcases List.mem_map.1 declared with ⟨decl, isGlobal, rfl⟩
      exact .inl (List.mem_append_left _ (List.mem_map_of_mem isGlobal))
    · rcases List.mem_map.1 used with ⟨use, listed, rfl⟩
      exact .inr ⟨p.mainRegion, List.mem_cons_self, use, listed, rfl⟩
  · rcases List.mem_flatMap.1 inside with ⟨f, isFunction, isName⟩
    rcases List.mem_append.1 isName with declared | used
    · left
      refine List.mem_append_right _ (List.mem_flatMap.2 ⟨f, isFunction, ?_⟩)
      rcases List.mem_cons.1 declared with rfl | isEntry
      · exact List.mem_cons_self
      · rcases List.mem_map.1 isEntry with ⟨entry, listed, rfl⟩
        exact List.mem_cons_of_mem _ (List.mem_map_of_mem listed)
    · rcases List.mem_map.1 used with ⟨use, listed, rfl⟩
      rcases exists_region_of_body isFunction with ⟨r, isRegion, block⟩
      exact .inr ⟨r, isRegion, use, block ▸ listed, rfl⟩

/-- Declared names stand in the same order among all names. -/
theorem declaredNames_sublist (p : Program) :
    p.declaredNames.Sublist (p.names.map KindedName.name) := by
  -- each function declares its names before it uses any
  have functions (fs : List FunctionDecl) :
      (fs.flatMap fun f => f.name :: f.entries.map Prod.fst).Sublist
        ((fs.flatMap FunctionDecl.names).map KindedName.name) := by
    induction fs with
    | nil => exact .slnil
    | cons f fs ih =>
      have own : (f.name :: f.entries.map Prod.fst).Sublist (f.names.map KindedName.name) := by
        simp [FunctionDecl.names, Function.comp_def]
      rw [List.flatMap_cons, List.flatMap_cons, List.map_append]
      exact own.append ih
  have globals : (p.globals.map VarDecl.name).Sublist
      (((p.globals.map fun decl => KindedName.mk .variable decl.name)
        ++ p.block.commands.uses.map NameUse.kinded).map KindedName.name) := by
    simp [Function.comp_def]
  rw [declaredNames, names, List.map_append]
  exact globals.append (functions p.functions.toList)

/-- Functions are declared in the order in which they are listed. -/
theorem functionNames_sublist (p : Program) :
    (p.functions.toList.map FunctionDecl.name).Sublist p.declaredNames := by
  have heads (fs : List FunctionDecl) : (fs.map FunctionDecl.name).Sublist
      (fs.flatMap fun f => f.name :: f.entries.map Prod.fst) := by
    induction fs with
    | nil => exact .slnil
    | cons f fs ih =>
      rw [List.map_cons, List.flatMap_cons, List.cons_append]
      exact (ih.trans (List.sublist_append_right _ _)).cons_cons f.name
  exact (heads p.functions.toList).trans (List.sublist_append_right _ _)

namespace WellNamed

/-- No two declared names share a place. -/
theorem declared_apart (named : p.WellNamed) : (p.declaredNames.map Name.pos).Nodup := by
  have apart : ((p.names.map KindedName.name).map Name.pos).Nodup := by
    rw [List.map_map]
    exact named.apart
  exact apart.sublist (p.declaredNames_sublist.map Name.pos)

/-- The functions of one frame are told apart by their names and places. -/
theorem functionDecls_apart (named : p.WellNamed) {r : Region} (member : r ∈ p.regions) :
    (r.frame.functionDecls.map fun entry => (entry.1.lexeme, entry.1.pos)).Nodup := by
  have places : (p.placed.toList.map fun f => f.value.header.1.pos) =
      (p.functions.toList.map FunctionDecl.name).map Name.pos := by
    rw [← p.functions.map_value_place 0 1, List.map_map, List.map_map]
    rfl
  have apart : (p.placed.toList.map fun f => f.value.header.1.pos).Nodup := by
    rw [places]
    exact named.declared_apart.sublist (p.functionNames_sublist.map Name.pos)
  refine List.Nodup.of_map Prod.snd ?_
  rw [functionDecls_eq member, List.map_map, List.map_map]
  exact apart.sublist (List.filter_sublist.map _)

theorem global_isVariable (named : p.WellNamed) {decl : VarDecl} (member : decl ∈ p.globals) :
    decl.name.IsVariable :=
  named.marked _ (global_mem_names member)

theorem entry_isVariable (named : p.WellNamed) {f : Placed FunctionDecl}
    (member : f ∈ p.placed.toList) {entry : Name × ValueType} (listed : entry ∈ f.value.entries) :
    entry.1.IsVariable := by
  refine named.marked ⟨.variable, entry.1⟩ (mem_names_of_function member ?_)
  exact List.mem_append_left _ (List.mem_cons_of_mem _ (List.mem_map.2 ⟨entry, listed, rfl⟩))

theorem function_isFunction (named : p.WellNamed) {f : Placed FunctionDecl}
    (member : f ∈ p.placed.toList) : f.value.name.IsFunction :=
  named.marked ⟨.function, f.value.name⟩ (mem_names_of_function member (List.mem_cons_self ..))

theorem used_isVariable (named : p.WellNamed) {r : Region} (member : r ∈ p.regions) {name : Name}
    (listed : .variable name ∈ r.block.commands.uses) : name.IsVariable :=
  named.marked (NameUse.variable name).kinded (use_mem_names member listed)

theorem callee_isFunction (named : p.WellNamed) {r : Region} (member : r ∈ p.regions) {name : Name}
    (listed : .callee name ∈ r.block.commands.uses) : name.IsFunction :=
  named.marked (NameUse.callee name).kinded (use_mem_names member listed)

end WellNamed

/-! ## The trees built for a program -/

/-- A function is reached with the variables of the functions before it. -/
theorem mem_sites {before : ScopeTree} {f : Placed FunctionDecl} :
    (before, f) ∈ p.sites.toList ↔ ∃ earlier later, p.placed.toList = earlier ++ f :: later ∧
      before = earlier.foldl ScopeTree.declareVariables p.withGlobals := by
  rw [sites, Forest.toList_along]
  exact mem_along

/-- All trees on the way from the functions to the complete tree have the functions. -/
theorem hoisted_foldl (named : p.WellNamed) {fs : List (Placed FunctionDecl)}
    (functions : ∀ f ∈ fs, f ∈ p.placed.toList) :
    p.Hoisted (fs.foldl ScopeTree.declareVariables p.withGlobals) := by
  have step : ∀ {tree : ScopeTree}, p.Hoisted tree →
      p.Hoisted (fs.foldl ScopeTree.declareVariables tree) := by
    induction fs with
    | nil => exact id
    | cons f fs ih =>
      intro tree h
      exact ih (fun g member => functions g (List.mem_cons_of_mem f member))
        (h.foldl_declareVariable f.own fun _ listed =>
          named.entry_isVariable (functions f List.mem_cons_self) listed)
  refine step (Hoisted.refl.foldl_declareVariable ScopeTree.global fun entry listed => ?_)
  rcases List.mem_map.1 listed with ⟨decl, member, rfl⟩
  exact named.global_isVariable member

/-- The complete tree still has all functions. -/
theorem hoisted_scopeTree (named : p.WellNamed) : p.Hoisted p.scopeTree :=
  hoisted_foldl named fun _ member => member

/-- So has every tree that a function is reached with. -/
theorem hoisted_site (named : p.WellNamed) {before : ScopeTree} {f : Placed FunctionDecl}
    (site : (before, f) ∈ p.sites.toList) : p.Hoisted before := by
  rcases mem_sites.1 site with ⟨earlier, later, split, rfl⟩
  refine hoisted_foldl named fun g member => ?_
  rw [split]
  exact List.mem_append_left _ member

/-- The tree of all functions has no variables. -/
theorem lookupLocal_hoisted_variable (named : p.WellNamed) (s : Nat) (bare : String) :
    p.hoisted.lookupLocal s ("V_" ++ bare) = none := by
  have nothing : ScopeTree.initial.lookupLocal s ("V_" ++ bare) = none := rfl
  have noFunction : (p.placed.toList.find?
      fun f => f.outer = s ∧ f.value.name.source = "V_" ++ bare) = none := by
    refine List.find?_eq_none.2 fun f member => ?_
    rw [(named.function_isFunction member).source_eq]
    have other := (variableMark_ne_functionMark bare f.value.name.bare).symm
    simp [other]
  have searched := ScopeTree.lookupLocal_foldl_hoist p.placed.toList .initial s ("V_" ++ bare)
  rw [nothing, noFunction] at searched
  exact Option.map_eq_none_iff.1 searched

theorem exists_site {f : Placed FunctionDecl} (member : f ∈ p.placed.toList) :
    ∃ before, (before, f) ∈ p.sites.toList := by
  rcases List.append_of_mem member with ⟨earlier, later, split⟩
  exact ⟨_, mem_sites.2 ⟨earlier, later, split, rfl⟩⟩

theorem placed_of_site {before : ScopeTree} {f : Placed FunctionDecl}
    (site : (before, f) ∈ p.sites.toList) : f ∈ p.placed.toList := by
  rw [sites, Forest.toList_along] at site
  exact mem_of_mem_along site

/-- Each function has a scope of its own. -/
theorem own_ne_of_split {f : Placed FunctionDecl} {earlier later : List (Placed FunctionDecl)}
    (split : p.placed.toList = earlier ++ f :: later) :
    ScopeTree.global ≠ f.own ∧ (∀ g ∈ earlier, g.own ≠ f.own) ∧ ∀ g ∈ later, g.own ≠ f.own := by
  have member : f ∈ p.placed.toList := by
    rw [split]
    exact List.mem_append_right _ List.mem_cons_self
  have positive := (p.functions.outer_place Nat.zero_lt_one f member).2.2.1
  have distinct : (p.placed.toList.map Placed.own).Nodup := by
    rw [p.map_own_placed]
    exact List.nodup_range'
  rw [split, List.map_append, List.map_cons, List.nodup_append, List.nodup_cons] at distinct
  rcases distinct with ⟨_, ⟨notLater, _⟩, apart⟩
  refine ⟨Nat.ne_of_lt positive, fun g isEarlier => ?_, fun g isLater same => ?_⟩
  · exact apart g.own (List.mem_map_of_mem isEarlier) f.own List.mem_cons_self
  · exact notLater (List.mem_map.2 ⟨g, isLater, same⟩)

/-- Before the variables of a function are declared, its scope has none. -/
theorem lookupLocal_site (named : p.WellNamed) {before : ScopeTree} {f : Placed FunctionDecl}
    (site : (before, f) ∈ p.sites.toList) (bare : String) :
    before.lookupLocal f.own ("V_" ++ bare) = none := by
  rcases mem_sites.1 site with ⟨earlier, later, split, rfl⟩
  rcases own_ne_of_split split with ⟨notGlobal, notEarlier, _⟩
  rw [ScopeTree.lookupLocal_foldl_declareVariables_of_ne _ notEarlier, withGlobals,
    ScopeTree.lookupLocal_foldl_declareVariable_of_ne _ notGlobal,
    lookupLocal_hoisted_variable named]

/-- All variables of the program can be declared. -/
structure VariablesFit (p : Program) : Prop where
  globals : p.hoisted.variableProblems ScopeTree.global (p.globals.map VarDecl.entry) = []
  functions : ∀ before f, (before, f) ∈ p.sites.toList →
    before.variableProblems f.own f.value.entries = []

/-- In the complete tree the scope of a function has the variables of the function. -/
theorem lookupLocal_scopeTree_function (named : p.WellNamed) (fit : p.VariablesFit)
    {f : Placed FunctionDecl} (member : f ∈ p.placed.toList) (bare : String) :
    (p.scopeTree.lookupLocal f.own ("V_" ++ bare)).map Declaration.view =
      (f.value.entries.find? fun entry => entry.1.source = "V_" ++ bare).map
        fun entry => variableView (entry.1.token, entry.2) := by
  rcases exists_site member with ⟨before, site⟩
  rcases mem_sites.1 site with ⟨earlier, later, split, start⟩
  -- later functions have other scopes, so only the entries of `f` itself count
  have complete : p.scopeTree =
      later.foldl ScopeTree.declareVariables (before.declareVariables f) := by
    rw [scopeTree, split, List.foldl_append, List.foldl_cons, ← start]
  rw [complete, ScopeTree.lookupLocal_foldl_declareVariables_of_ne _ (own_ne_of_split split).2.2,
    ScopeTree.declareVariables, ScopeTree.lookupLocal_foldl_declareVariable
    (fit.functions before f site), lookupLocal_site named site]
  rfl

/-- In the complete tree the global scope has the global variables. -/
theorem lookupLocal_scopeTree_global (named : p.WellNamed) (fit : p.VariablesFit) (bare : String) :
    (p.scopeTree.lookupLocal ScopeTree.global ("V_" ++ bare)).map Declaration.view =
      ((p.globals.map VarDecl.entry).find? fun entry => entry.1.source = "V_" ++ bare).map
        fun entry => variableView (entry.1.token, entry.2) := by
  have others : ∀ f ∈ p.placed.toList, f.own ≠ ScopeTree.global := fun f member =>
    Nat.ne_of_gt (p.functions.outer_place Nat.zero_lt_one f member).2.2.1
  rw [scopeTree, ScopeTree.lookupLocal_foldl_declareVariables_of_ne _ others, withGlobals,
    ScopeTree.lookupLocal_foldl_declareVariable fit.globals, lookupLocal_hoisted_variable named]
  rfl

/-- In the complete tree a scope has the variables of its frame. -/
theorem lookupLocal_scopeTree (named : p.WellNamed) (fit : p.VariablesFit) {r : Region}
    (member : r ∈ p.regions) (bare : String) :
    (p.scopeTree.lookupLocal r.frame.number ("V_" ++ bare)).map Declaration.view =
      (r.frame.findVariable? ("V_" ++ bare)).map variableView := by
  rcases region_cases member with rfl | ⟨f, isFunction, inner, frame, _⟩
  · refine (lookupLocal_scopeTree_global named fit bare).trans ?_
    simp only [Frame.findVariable?, mainRegion, globalFrame, List.find?_map, Option.map_map]
    rfl
  · rw [frame]
    refine (lookupLocal_scopeTree_function named fit isFunction bare).trans ?_
    simp only [Frame.findVariable?, Placed.frame, List.find?_map, Option.map_map]
    rfl

/-- With all variables declared, they are looked up as static scoping finds them. -/
theorem lookupVariable_scopeTree (named : p.WellNamed) (fit : p.VariablesFit) {r : Region}
    (member : r ∈ p.regions) (bare : String) :
    (p.scopeTree.lookupVariable r.frame.number ("V_" ++ bare)).map Declaration.view =
      (r.findVariable? ("V_" ++ bare)).map variableView := by
  let answer (frame : Frame) := (frame.findVariable? ("V_" ++ bare)).map variableView
  have single : ∀ r ∈ p.regions,
      (p.scopeTree.lookupLocal r.frame.number ("V_" ++ bare)).map Declaration.view =
        answer r.frame :=
    fun r isRegion => lookupLocal_scopeTree named fit isRegion bare
  refine ScopeTree.view_lookupKind (fun _ => rfl) ?_
  rw [view_lookup (hoisted_scopeTree named).scopes single member, Region.findVariable?,
    List.map_findSome?]
  rfl

/-- Looking up finds no variable exactly if static scoping sees none. -/
theorem lookupVariable_eq_none_iff (named : p.WellNamed) (fit : p.VariablesFit) {r : Region}
    (member : r ∈ p.regions) (bare : String) :
    p.scopeTree.lookupVariable r.frame.number ("V_" ++ bare) = none ↔
      ¬ r.SeesVariable ("V_" ++ bare) := by
  calc p.scopeTree.lookupVariable r.frame.number ("V_" ++ bare) = none
      ↔ (p.scopeTree.lookupVariable r.frame.number ("V_" ++ bare)).map Declaration.view = none :=
        Option.map_eq_none_iff.symm
    _ ↔ r.findVariable? ("V_" ++ bare) = none := by
        rw [lookupVariable_scopeTree named fit member, Option.map_eq_none_iff]
    _ ↔ ¬ r.SeesVariable ("V_" ++ bare) := by
        rw [← r.isSome_findVariable?_iff, Option.not_isSome_iff_eq_none]

end Program

end SplBasic
