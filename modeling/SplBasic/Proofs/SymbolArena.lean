import SplBasic.Proofs.ScopeNesting
import SplBasic.Proofs.ScopeProblems

/-!
# Symbols in the order of their declaration

The declarations of a complete scope tree, oldest first, are the functions of the program and then
its variables, each kind with unique names counted up from 1. Which of them there are can be read
off the program, apart from the variables that are rejected:

* `Forest.functionSlots` : the functions that are the first of their name in their list, in
  preorder,
* `Program.variableSlots` : all declared variables in the order globals, then for each function in
  preorder its parameters and its locals,
* `Program.declarations_scopeTree` : the declarations of a program,
* `Program.registered_scopeTree` : each declaration is the only one of its name in its scope,
* `Program.level_of_declaration` : it has the depth of its scope.
-/

namespace SplBasic

/-- A name to be declared, with everything a declaration has apart from its numbers. -/
structure Slot where
  scope : Nat
  name : String
  kind : SymbolKind
  ty : Ty
  level : Nat
  pos : Position
  deriving DecidableEq, Repr

namespace Slot

/-- The declaration with a given number and a given number of its unique name. -/
def declaration (slot : Slot) (id number : Nat) : Declaration :=
  ⟨id, slot.scope,
    ⟨slot.name, slot.kind.numberedName number, slot.kind, slot.ty, slot.level, slot.pos⟩⟩

def declarations (id number : Nat) : List Slot → List Declaration
  | [] => []
  | slot :: rest => slot.declaration id number :: declarations (id + 1) (number + 1) rest

/-- Slots are numbered on from the ones in front of them. -/
theorem declarations_append (id number : Nat) (slots others : List Slot) :
    declarations id number (slots ++ others) =
      declarations id number slots
        ++ declarations (id + slots.length) (number + slots.length) others := by
  induction slots generalizing id number with
  | nil => rfl
  | cons slot slots ih =>
    simp only [List.cons_append, declarations, ih, List.length_cons]
    simp only [Nat.add_assoc, Nat.add_comm 1]

@[simp] theorem length_declarations (id number : Nat) (slots : List Slot) :
    (declarations id number slots).length = slots.length := by
  induction slots generalizing id number with
  | nil => rfl
  | cons slot slots ih => simp [declarations, ih]

/-- Each declaration comes from a slot. -/
theorem exists_slot_of_mem {id number : Nat} {slots : List Slot} {d : Declaration}
    (member : d ∈ declarations id number slots) :
    ∃ slot ∈ slots, ∃ id number, d = slot.declaration id number := by
  induction slots generalizing id number with
  | nil => cases member
  | cons slot slots ih =>
    rcases List.mem_cons.1 member with rfl | later
    · exact ⟨slot, List.mem_cons_self, id, number, rfl⟩
    · rcases ih later with ⟨other, listed, same⟩
      exact ⟨other, List.mem_cons_of_mem slot listed, same⟩

end Slot

/-! ## Functions -/

namespace Forest

/-- The functions of a forest that are the first of their name in their list, in preorder. The
forest stands in the scope `outer` of the given depth, where functions with the names `seen` stand
before it, and its scopes are numbered from `next` on. -/
def functionSlots (seen : List String) (outer level next : Nat) : Forest FunctionDecl → List Slot
  | nil => []
  | cons f inner rest =>
    let name := f.name.source
    (if name ∈ seen then [] else [⟨outer, name, .function, f.returnType.ty, level, f.name.pos⟩])
      ++ inner.functionSlots [] next (level + 1) (next + 1)
      ++ rest.functionSlots (name :: seen) outer level (next + 1 + inner.size)

/-- Functions are declared in the scope around them or in one that is opened for this forest. -/
theorem scope_of_mem_functionSlots {forest : Forest FunctionDecl} {seen : List String}
    {outer level next : Nat} {slot : Slot}
    (member : slot ∈ forest.functionSlots seen outer level next) :
    (slot.scope = outer ∨ next ≤ slot.scope ∧ slot.scope < next + forest.size) ∧
      slot.kind = .function := by
  induction forest generalizing seen outer level next with
  | nil => cases member
  | cons f inner rest ihInner ihRest =>
    simp only [functionSlots, List.mem_append] at member
    simp only [size]
    -- the function itself, those inside it, and those behind it
    rcases member with (here | inside) | behind
    · by_cases again : f.name.source ∈ seen
      · simp [again] at here
      · simp only [again, if_false, List.mem_singleton] at here
        exact ⟨.inl (by rw [here]), by rw [here]⟩
    · rcases ihInner inside with ⟨range, kind⟩
      exact ⟨.inr (by omega), kind⟩
    · rcases ihRest behind with ⟨range, kind⟩
      exact ⟨by omega, kind⟩

end Forest

namespace ScopeTree

/-- The second tree has the declarations of the first one and those of some slots, with the next
numbers, their unique names counted on from `number`. -/
def Declares (tree : ScopeTree) (number : Nat) (slots : List Slot) (tree' : ScopeTree) : Prop :=
  tree'.declarations.reverse =
    tree.declarations.reverse ++ Slot.declarations tree.declarations.length number slots

namespace Declares

variable {tree tree' tree'' : ScopeTree} {number number' : Nat} {slots slots' : List Slot}

/-- Each slot adds one declaration. -/
theorem length (declares : tree.Declares number slots tree') :
    tree'.declarations.length = tree.declarations.length + slots.length := by
  have lengths := congrArg List.length declares
  simpa using lengths

/-- Slots are declared one list behind the other. -/
theorem trans (first : tree.Declares number slots tree')
    (second : tree'.Declares number' slots' tree'') (goesOn : number' = number + slots.length) :
    tree.Declares number (slots ++ slots') tree'' := by
  rw [Declares, second, first, first.length, goesOn, Slot.declarations_append, List.append_assoc]

/-- A declaration was there before or comes from a slot. -/
theorem mem_cases (declares : tree.Declares number slots tree') {d : Declaration}
    (member : d ∈ tree'.declarations) :
    d ∈ tree.declarations ∨ ∃ slot ∈ slots, ∃ id number, d = slot.declaration id number := by
  rw [← List.mem_reverse, declares, List.mem_append, List.mem_reverse] at member
  exact member.imp_right Slot.exists_slot_of_mem

/-- A scope that no slot belongs to answers as before. -/
theorem lookupLocal_of_ne (declares : tree.Declares number slots tree') {s : Nat}
    (others : ∀ slot ∈ slots, slot.scope ≠ s) (name : String) :
    tree'.lookupLocal s name = tree.lookupLocal s name := by
  have declared : tree'.declarations =
      (Slot.declarations tree.declarations.length number slots).reverse ++ tree.declarations := by
    have reversed := congrArg List.reverse declares
    simpa using reversed
  have missing : (Slot.declarations tree.declarations.length number slots).reverse.find?
      (fun d => d.scope = s && d.symbol.name = name) = none := by
    rw [List.find?_eq_none]
    intro d member
    rcases Slot.exists_slot_of_mem (List.mem_reverse.1 member) with ⟨slot, listed, id, n, rfl⟩
    simp [Slot.declaration, others slot listed]
  rw [lookupLocal, declared, List.find?_append, missing, Option.none_or, lookupLocal]

end Declares

/-- A tree in the middle of hoisting, about to go on with a list of functions in the scope `outer`,
where functions with the names `seen` are declared. The next scope is numbered `next`. -/
structure Hoisting (tree : ScopeTree) (outer next : Nat) (seen : List String) : Prop where
  length : tree.scopes.length = next
  older : outer < next
  scopes : ∀ d ∈ tree.declarations, d.scope < next
  kinds : ∀ d ∈ tree.declarations, d.symbol.kind = .function
  names : ∀ name, (tree.lookupLocal outer name).isSome ↔ name ∈ seen

namespace Hoisting

variable {tree : ScopeTree} {outer next : Nat} {seen : List String}

/-- Hoisting starts with the global scope and no functions. -/
theorem initial : ScopeTree.initial.Hoisting 0 1 [] where
  length := rfl
  older := Nat.zero_lt_one
  scopes _ member := absurd member List.not_mem_nil
  kinds _ member := absurd member List.not_mem_nil
  names name := by simp [lookupLocal, ScopeTree.initial]

/-- Before variables are declared, all declarations are functions. -/
theorem count (h : tree.Hoisting outer next seen) :
    tree.count .function = tree.declarations.length := by
  rw [ScopeTree.count, List.countP_eq_length]
  exact fun d member => by simp [h.kinds d member]

/-- Hoisting a function declares it unless its list has its name already. -/
theorem declares_hoist (h : tree.Hoisting outer next seen) (f : FunctionDecl) :
    tree.Declares (tree.declarations.length + 1)
      (if f.name.source ∈ seen then []
      else [⟨outer, f.name.source, .function, f.returnType.ty, tree.level outer, f.name.pos⟩])
      (tree.hoist ⟨next, outer, f⟩) := by
  have taken := h.names f.name.source
  have level : (tree.addScope outer f.name.source).2.level outer = tree.level outer := by
    have other : tree.scopes.length ≠ outer := by
      rw [h.length]
      exact (Nat.ne_of_lt h.older).symm
    simp [ScopeTree.level, scope?, addScope, other]
  have declarations : (tree.addScope outer f.name.source).2.declarations = tree.declarations := rfl
  -- a function whose name is taken gets a scope, but no declaration
  by_cases again : f.name.source ∈ seen
  · have objected : (tree.lookupLocal outer f.name.source).isSome := taken.2 again
    simp [Declares, hoist, again, objected, declarations, Slot.declarations]
  · have free : (tree.lookupLocal outer f.name.source).isSome = false := by
      simpa [again] using taken
    have counted :
        (tree.addScope outer f.name.source).2.count .function = tree.declarations.length :=
      h.count
    simp [Declares, hoist, again, free, declare, level, nextFunctionName, counted, declarations,
      Slot.declarations, Slot.declaration, SymbolKind.numberedName, SymbolKind.letter]

/-- Inside a function that was just hoisted nothing is declared yet. -/
theorem inside (h : tree.Hoisting outer next seen) (f : FunctionDecl) :
    (tree.hoist ⟨next, outer, f⟩).Hoisting next (next + 1) [] := by
  have older := h.older
  -- all declarations are in scopes older than the new one, that of the function included
  have declared {d : Declaration} (member : d ∈ (tree.hoist ⟨next, outer, f⟩).declarations) :
      d.scope < next ∧ d.symbol.kind = .function := by
    rcases (h.declares_hoist f).mem_cases member with old | ⟨slot, listed, id, number, rfl⟩
    · exact ⟨h.scopes d old, h.kinds d old⟩
    · by_cases again : f.name.source ∈ seen
      · simp [again] at listed
      · simp only [again, if_false, List.mem_singleton] at listed
        rw [listed]
        exact ⟨older, rfl⟩
  constructor
  · rw [scopes_hoist, List.length_cons, h.length]
  · exact Nat.lt_succ_self next
  · exact fun d member => Nat.lt_succ_of_lt (declared member).1
  · exact fun d member => (declared member).2
  · intro name
    have nothing : (tree.hoist ⟨next, outer, f⟩).lookupLocal next name = none := by
      rw [lookupLocal, List.find?_eq_none]
      intro d member
      have scope := (declared member).1
      simp only [Bool.and_eq_true, decide_eq_true_eq]
      omega
    simp [nothing]

/-- Behind a function and those inside it, its name is taken. -/
theorem behind (h : tree.Hoisting outer next seen) (f : FunctionDecl)
    {inner : Forest FunctionDecl} {level number : Nat} {filled : ScopeTree}
    (length : filled.scopes.length = next + 1 + inner.size)
    (declares : (tree.hoist ⟨next, outer, f⟩).Declares number
      (inner.functionSlots [] next level (next + 1)) filled) :
    filled.Hoisting outer (next + 1 + inner.size) (f.name.source :: seen) := by
  have older := h.older
  have opened := h.inside f
  have slots {slot : Slot} (listed : slot ∈ inner.functionSlots [] next level (next + 1)) :=
    Forest.scope_of_mem_functionSlots listed
  have declared {d : Declaration} (member : d ∈ filled.declarations) :
      d.scope < next + 1 + inner.size ∧ d.symbol.kind = .function := by
    rcases declares.mem_cases member with old | ⟨slot, listed, id, number, rfl⟩
    · have scope := opened.scopes d old
      exact ⟨by omega, opened.kinds d old⟩
    · rcases slots listed with ⟨range, kind⟩
      exact ⟨show slot.scope < _ by omega, kind⟩
  constructor
  · exact length
  · omega
  · exact fun d member => (declared member).1
  · exact fun d member => (declared member).2
  · intro name
    -- the functions inside are declared in scopes from `next` on, and `outer` is older
    have kept : filled.lookupLocal outer name =
        (tree.hoist ⟨next, outer, f⟩).lookupLocal outer name := by
      refine declares.lookupLocal_of_ne (fun slot listed => ?_) name
      have range := (slots listed).1
      omega
    have here := congrArg Option.isSome (tree.lookupLocal_hoist ⟨next, outer, f⟩ outer name)
    rw [Option.isSome_map, Option.isSome_or, Option.isSome_map] at here
    rw [kept, here, List.mem_cons, Bool.or_eq_true, h.names]
    by_cases same : f.name.source = name
    · simp [same]
    · simp [same, Ne.symm same]

/-- Hoisting a forest declares the functions that are the first of their name in their list. -/
theorem declares_foldl (h : tree.Hoisting outer next seen) (forest : Forest FunctionDecl) :
    tree.Declares (tree.declarations.length + 1)
      (forest.functionSlots seen outer (tree.level outer) next)
      ((forest.place outer next).toList.foldl hoist tree) := by
  induction forest generalizing tree outer next seen with
  | nil => simp [Declares, Forest.place, Forest.toList, Forest.functionSlots, Slot.declarations]
  | cons f inner rest ihInner ihRest =>
    let opened := tree.hoist ⟨next, outer, f⟩
    let filled := (inner.place next (next + 1)).toList.foldl hoist opened
    have lengthFilled : filled.scopes.length = next + 1 + inner.size := by
      rw [length_foldl_hoist, (h.inside f).length, Forest.length_place]
    have levelFilled : filled.level outer = tree.level outer :=
      level_foldl_hoist (⟨next, outer, f⟩ :: (inner.place next (next + 1)).toList) tree
        (by rw [h.length]; exact h.older)
    -- first the function itself, then those inside it, then those behind it
    have here := h.declares_hoist f
    have inside := ihInner (h.inside f)
    rw [tree.level_hoist h.length outer f, here.length] at inside
    have behind := ihRest (h.behind f lengthFilled inside)
    rw [levelFilled, inside.length, here.length] at behind
    rw [Forest.place, Forest.toList, List.foldl_cons, List.foldl_append, Forest.functionSlots]
    refine (here.trans inside (by omega)).trans behind ?_
    rw [List.length_append]
    omega

end Hoisting

end ScopeTree

/-! ## Variables -/

/-- The slot of a variable in a scope of the given depth. -/
def Slot.ofVariable (scope level : Nat) (entry : Name × ValueType) : Slot :=
  ⟨scope, entry.1.source, .variable, entry.2.ty, level, entry.1.pos⟩

/-- The variables of a forest of functions in preorder, parameters before locals, each in the scope
of its function. The scopes are numbered from `next` on, and the functions have the given depth. -/
def Forest.variableSlots (level next : Nat) : Forest FunctionDecl → List Slot
  | nil => []
  | cons f inner rest =>
    f.entries.map (Slot.ofVariable next level) ++ inner.variableSlots (level + 1) (next + 1)
      ++ rest.variableSlots level (next + 1 + inner.size)

def Program.functionSlots (p : Program) : List Slot :=
  p.functions.functionSlots [] 0 0 1

/-- The variables of a program: the globals, then those of its functions. -/
def Program.variableSlots (p : Program) : List Slot :=
  (p.globals.map VarDecl.entry).map (Slot.ofVariable 0 0) ++ p.functions.variableSlots 1 1

namespace Slot

/-- The slots that nothing speaks against. -/
def accepted (slots : List Slot) (verdicts : List (Option ScopeError)) : List Slot :=
  ((slots.zip verdicts).filter fun judged => judged.2 = none).map Prod.fst

/-- Only slots are accepted. -/
theorem mem_of_mem_accepted {slots : List Slot} {verdicts : List (Option ScopeError)} {slot : Slot}
    (member : slot ∈ accepted slots verdicts) : slot ∈ slots := by
  rcases List.mem_map.1 member with ⟨⟨other, verdict⟩, judged, rfl⟩
  exact (List.of_mem_zip (List.mem_filter.1 judged).1).1

/-- What speaks against slots, and where. -/
def rejections (slots : List Slot) (verdicts : List (Option ScopeError)) :
    List (Located ScopeError) :=
  (slots.zip verdicts).filterMap fun judged => judged.2.map (⟨·, judged.1.pos⟩)

end Slot

namespace ScopeTree

variable (tree : ScopeTree)

/-- Tries to declare a variable in the scope it is given with. -/
def declareIn (tree : ScopeTree) (site : Nat × Name × ValueType) : ScopeTree :=
  tree.declareVariable site.1 site.2

/-- What speaks against each of some variables, declared one after the other. -/
def verdicts (sites : List (Nat × Name × ValueType)) : List (Option ScopeError) :=
  (along declareIn tree sites).map fun reached =>
    reached.1.variableObjection reached.2.1 reached.2.2.1

/-- The slot of a variable, with the depth of its scope. -/
def variableSlot (site : Nat × Name × ValueType) : Slot :=
  .ofVariable site.1 (tree.level site.1) site.2

/-- Which slot a variable gets depends on scopes, which declarations do not touch. -/
theorem variableSlot_declareIn (site : Nat × Name × ValueType) :
    (tree.declareIn site).variableSlot = tree.variableSlot := by
  funext other
  simp [variableSlot, level, scope?, declareIn]

/-- Declaring variables one after the other declares those that nothing speaks against. -/
theorem declares_foldl_declareIn (sites : List (Nat × Name × ValueType)) :
    tree.Declares (tree.count .variable + 1)
      (Slot.accepted (sites.map tree.variableSlot) (tree.verdicts sites))
      (sites.foldl declareIn tree) := by
  induction sites generalizing tree with
  | nil => simp [Declares, Slot.accepted, Slot.declarations]
  | cons site sites ih =>
    have rest := ih (tree.declareIn site)
    rw [variableSlot_declareIn] at rest
    have judged : tree.verdicts (site :: sites) =
        tree.variableObjection site.1 site.2.1 :: (tree.declareIn site).verdicts sites := rfl
    rw [List.foldl_cons, List.map_cons, judged]
    cases objection : tree.variableObjection site.1 site.2.1 with
    -- a variable that is rejected uses up no number
    | some e =>
      have same : tree.declareIn site = tree :=
        declareVariable_of_objection (by rw [objection]; rfl)
      rw [same] at rest ⊢
      simpa [Slot.accepted] using rest
    | none =>
      have declared : (tree.declareIn site).declarations =
          tree.newVariable site.1 site.2 :: tree.declarations :=
        declarations_declareVariable objection
      have here : tree.Declares (tree.count .variable + 1) [tree.variableSlot site]
          (tree.declareIn site) := by
        rw [Declares, declared, List.reverse_cons]
        rfl
      have counted : (tree.declareIn site).count .variable = tree.count .variable + 1 := by
        rw [count, declared, List.countP_cons_of_pos rfl, count]
      have both := here.trans rest (by rw [counted]; rfl)
      simpa [Slot.accepted] using both

/-- What speaks against variables one after the other is reported at their places. -/
theorem rejections_verdicts (sites : List (Nat × Name × ValueType)) :
    Slot.rejections (sites.map tree.variableSlot) (tree.verdicts sites) =
      (along declareIn tree sites).filterMap fun reached =>
        (reached.1.variableObjection reached.2.1 reached.2.2.1).map (⟨·, reached.2.2.1.pos⟩) := by
  induction sites generalizing tree with
  | nil => rfl
  | cons site sites ih =>
    have rest := ih (tree.declareIn site)
    rw [variableSlot_declareIn] at rest
    have judged : tree.verdicts (site :: sites) =
        tree.variableObjection site.1 site.2.1 :: (tree.declareIn site).verdicts sites := rfl
    rw [along, List.filterMap_cons, ← rest, List.map_cons, judged, Slot.rejections,
      List.zip_cons_cons, List.filterMap_cons]
    rfl

/-- The variables of one scope. -/
theorem filterMap_along_declareIn (scope : Nat) (entries : List (Name × ValueType)) :
    ((along declareIn tree (entries.map (scope, ·))).filterMap fun reached =>
        (reached.1.variableObjection reached.2.1 reached.2.2.1).map (⟨·, reached.2.2.1.pos⟩)) =
      tree.variableProblems scope entries := by
  rw [along_map, List.filterMap_map]
  rfl

end ScopeTree

namespace Program

variable (p : Program)

/-- The declared variables with the numbers of their scopes. -/
def variableSites : List (Nat × Name × ValueType) :=
  (p.globals.map VarDecl.entry).map (0, ·)
    ++ p.placed.toList.flatMap fun f => f.value.entries.map (f.own, ·)

/-- The scope tree is what is left when all variables are declared. -/
theorem scopeTree_eq_foldl : p.scopeTree = p.variableSites.foldl ScopeTree.declareIn p.hoisted := by
  have globals : ((p.globals.map VarDecl.entry).map (0, ·)).foldl ScopeTree.declareIn p.hoisted =
      p.withGlobals := List.foldl_map
  have inside (tree : ScopeTree) (f : Placed FunctionDecl) :
      (f.value.entries.map (f.own, ·)).foldl ScopeTree.declareIn tree = tree.declareVariables f :=
    List.foldl_map
  rw [variableSites, List.foldl_append, globals, List.foldl_flatMap]
  simp only [inside]
  rfl

/-- The global scope has level zero. -/
theorem level_hoisted_global : p.hoisted.level 0 = 0 := by
  have opened : p.hoisted.scope? 0 = some ⟨0, "global", 0, none⟩ := p.scopes_hoisted.1.2
  rw [ScopeTree.level, opened]
  rfl

/-- The sites of variables, in order, are the slots of the program. -/
theorem map_variableSlot_variableSites :
    p.variableSites.map p.hoisted.variableSlot = p.variableSlots := by
  have functions {outer level next : Nat} {own : List Nat} {forest : Forest FunctionDecl}
      (mirrors : p.hoisted.Mirrors outer level next own forest) :
      ((forest.place outer next).toList.flatMap fun f => f.value.entries.map (f.own, ·)).map
        p.hoisted.variableSlot = forest.variableSlots level next := by
    induction mirrors with
    | nil => rfl
    | @cons outer level next own f inner rest opened _ _ ihInner ihRest =>
      have depth : p.hoisted.level next = level := by
        rw [ScopeTree.level, opened]
        rfl
      have here : (f.entries.map (next, ·)).map p.hoisted.variableSlot =
          f.entries.map (Slot.ofVariable next level) := by
        rw [List.map_map, ← depth]
        rfl
      -- first the function itself, then what is inside it, then what follows it
      rw [Forest.place, Forest.toList, List.flatMap_cons, List.flatMap_append, List.map_append,
        List.map_append, ihInner, ihRest, here, Forest.variableSlots, List.append_assoc]
  have globals : ((p.globals.map VarDecl.entry).map (0, ·)).map p.hoisted.variableSlot =
      (p.globals.map VarDecl.entry).map (Slot.ofVariable 0 0) := by
    rw [List.map_map]
    refine congrArg (List.map · _) (funext fun entry => ?_)
    simp [ScopeTree.variableSlot, p.level_hoisted_global]
  rw [variableSites, List.map_append, globals, variableSlots]
  exact congrArg _ (functions p.mirrors_hoisted)

/-- The problems with declared variables are what speaks against them, in order. -/
theorem rejections_variableSlots (tree : ScopeTree) :
    Slot.rejections p.variableSlots (p.hoisted.verdicts p.variableSites) =
      problemsAbout .variableDecl (p.scopeProblems tree) := by
  -- the walk over single variables is grouped by functions, as `scopeProblems` does
  let problems := fun (reached : ScopeTree × Nat × Name × ValueType) =>
    (reached.1.variableObjection reached.2.1 reached.2.2.1).map
      (Located.mk · reached.2.2.1.pos)
  have functions (fs : List (Placed FunctionDecl)) (tree : ScopeTree) :
      (along ScopeTree.declareIn tree (fs.flatMap fun f => f.value.entries.map (f.own, ·))).filterMap
        problems = (along ScopeTree.declareVariables tree fs).flatMap fun site =>
          site.1.variableProblems site.2.own site.2.value.entries := by
    induction fs generalizing tree with
    | nil => rfl
    | cons f fs ih =>
      have inside : (f.value.entries.map (f.own, ·)).foldl ScopeTree.declareIn tree =
          tree.declareVariables f := List.foldl_map
      calc (along ScopeTree.declareIn tree
            ((f :: fs).flatMap fun f => f.value.entries.map (f.own, ·))).filterMap problems
          = (along ScopeTree.declareIn tree (f.value.entries.map (f.own, ·))).filterMap problems
              ++ (along ScopeTree.declareIn (tree.declareVariables f)
                (fs.flatMap fun f => f.value.entries.map (f.own, ·))).filterMap problems := by
            rw [List.flatMap_cons, along_append, List.filterMap_append, inside]
        _ = tree.variableProblems f.own f.value.entries
              ++ (along ScopeTree.declareVariables (tree.declareVariables f) fs).flatMap
                fun site => site.1.variableProblems site.2.own site.2.value.entries := by
            rw [tree.filterMap_along_declareIn, ih]
        _ = (along ScopeTree.declareVariables tree (f :: fs)).flatMap
              fun site => site.1.variableProblems site.2.own site.2.value.entries := by
            rw [along, List.flatMap_cons]
  have globals : ((p.globals.map VarDecl.entry).map (0, ·)).foldl ScopeTree.declareIn p.hoisted =
      p.withGlobals := List.foldl_map
  calc Slot.rejections p.variableSlots (p.hoisted.verdicts p.variableSites)
      = (along ScopeTree.declareIn p.hoisted p.variableSites).filterMap problems := by
        rw [← map_variableSlot_variableSites, ScopeTree.rejections_verdicts]
    _ = p.hoisted.variableProblems 0 (p.globals.map VarDecl.entry)
          ++ (along ScopeTree.declareVariables p.withGlobals p.placed.toList).flatMap
            fun site => site.1.variableProblems site.2.own site.2.value.entries := by
        rw [variableSites, along_append, List.filterMap_append, globals, functions,
          ScopeTree.filterMap_along_declareIn]
    _ = problemsAbout .variableDecl (p.scopeProblems tree) := by
        rw [problemsAbout_variable, sites, Forest.toList_along]
        rfl

/-- There is one verdict for each slot. -/
theorem length_verdicts :
    (p.hoisted.verdicts p.variableSites).length = p.variableSlots.length := by
  rw [← p.map_variableSlot_variableSites, ScopeTree.verdicts, List.length_map, List.length_map,
    ← List.length_map Prod.snd, map_snd_along]

/-! ## All declarations -/

/-- Hoisting declares the function slots. -/
theorem declares_hoisted :
    ScopeTree.initial.Declares 1 p.functionSlots p.hoisted :=
  ScopeTree.Hoisting.initial.declares_foldl p.functions

/-- Hoisting declares no variables. -/
theorem count_hoisted : p.hoisted.count .variable = 0 := by
  rw [ScopeTree.count, List.countP_eq_zero]
  intro d member
  rcases p.declares_hoisted.mem_cases member with old | ⟨slot, listed, id, number, rfl⟩
  · exact absurd old List.not_mem_nil
  · have kind := (Forest.scope_of_mem_functionSlots listed).2
    simp [Slot.declaration, kind]

/-- The declarations of a program, oldest first: the functions that are the first of their name in
their list, then the variables that nothing speaks against. -/
theorem declarations_scopeTree :
    p.scopeTree.declarations.reverse =
      Slot.declarations 0 1 p.functionSlots
        ++ Slot.declarations p.functionSlots.length 1
          (Slot.accepted p.variableSlots (p.hoisted.verdicts p.variableSites)) := by
  have declared := p.hoisted.declares_foldl_declareIn p.variableSites
  rw [← scopeTree_eq_foldl, map_variableSlot_variableSites, count_hoisted] at declared
  have functions : p.hoisted.declarations.reverse =
      Slot.declarations 0 1 p.functionSlots := p.declares_hoisted
  have length : p.hoisted.declarations.length = p.functionSlots.length := by
    rw [← List.length_reverse, functions, Slot.length_declarations]
  rw [declared, functions, length]

/-- Declaring variables opens no scopes. -/
theorem scopes_scopeTree : p.scopeTree.scopes = p.hoisted.scopes := by
  rw [scopeTree, ScopeTree.scopes_foldl_declareVariables, withGlobals,
    ScopeTree.scopes_foldl_declareVariable]

end Program

/-! ## Scopes of declarations -/

namespace ScopeTree

variable {tree : ScopeTree}

/-- No scope has two declarations of one name. -/
def Registered (tree : ScopeTree) : Prop :=
  (tree.declarations.map fun d => (d.scope, d.symbol.name)).Nodup

namespace Registered

/-- A name that is free is registered. -/
theorem declare (registered : tree.Registered) {scope : Nat} {symbol : Symbol}
    (free : tree.lookupLocal scope symbol.name = none) :
    (tree.declare scope symbol).2.Registered := by
  refine List.nodup_cons.2 ⟨fun again => ?_, registered⟩
  rcases List.mem_map.1 again with ⟨d, member, same⟩
  have differs := List.find?_eq_none.1 free d member
  rw [Prod.mk.injEq] at same
  simp [same] at differs

/-- Hoisting keeps all names registered. -/
theorem hoist (registered : tree.Registered) (f : Placed FunctionDecl) :
    (tree.hoist f).Registered := by
  unfold ScopeTree.hoist
  dsimp only
  split
  · exact registered
  · next free => exact Registered.declare registered (by simpa using free)

/-- Declaring a variable keeps all names registered, accepted or not. -/
theorem declareIn (registered : tree.Registered) (site : Nat × Name × ValueType) :
    (tree.declareIn site).Registered := by
  unfold ScopeTree.declareIn declareVariable
  dsimp only
  split
  · exact registered
  · next fits =>
    rw [Bool.not_eq_true, Option.isSome_eq_false_iff, Option.isNone_iff_eq_none,
      variableObjection_eq_none_iff] at fits
    exact registered.declare fits.1

/-- A declaration is what its scope, and no other one, has under its name, and under no other. -/
theorem lookupLocal_eq_some_iff (registered : tree.Registered) {d : Declaration}
    (member : d ∈ tree.declarations) (s : Nat) (name : String) :
    tree.lookupLocal s name = some d ↔ s = d.scope ∧ name = d.symbol.name := by
  constructor
  · intro found
    have here := List.find?_some found
    simp only [Bool.and_eq_true, decide_eq_true_eq] at here
    exact ⟨here.1.symm, here.2.symm⟩
  · rintro ⟨rfl, rfl⟩
    have found := find?_eq_some_of_nodup registered member
    simpa [lookupLocal, Bool.decide_and] using found

end Registered

/-- Functions are declared at the depth of the scope that they stand in. -/
theorem Mirrors.level_of_functionSlot {forest : Forest FunctionDecl}
    {outer level level' next : Nat} {own : List Nat} {seen : List String}
    (mirrors : tree.Mirrors outer level next own forest)
    (around : (tree.scope? outer).map Scope.level = some level') (deeper : level = level' + 1)
    {slot : Slot} (member : slot ∈ forest.functionSlots seen outer level' next) :
    (tree.scope? slot.scope).map Scope.level = some slot.level := by
  induction mirrors generalizing level' seen with
  | nil => cases member
  | @cons outer level next own f inner rest opened _ _ ihInner ihRest =>
    simp only [Forest.functionSlots, List.mem_append] at member
    rcases member with (here | inside) | behind
    · by_cases again : f.name.source ∈ seen
      · simp [again] at here
      · simp only [again, if_false, List.mem_singleton] at here
        rw [here, around]
    · refine ihInner ?_ rfl (deeper ▸ inside)
      rw [opened]
      rfl
    · exact ihRest around deeper behind

/-- Variables are declared at the depth of the scope of their function. -/
theorem Mirrors.level_of_variableSlot {forest : Forest FunctionDecl} {outer level next : Nat}
    {own : List Nat} (mirrors : tree.Mirrors outer level next own forest) {slot : Slot}
    (member : slot ∈ forest.variableSlots level next) :
    (tree.scope? slot.scope).map Scope.level = some slot.level := by
  induction mirrors with
  | nil => cases member
  | @cons outer level next own f inner rest opened _ _ ihInner ihRest =>
    simp only [Forest.variableSlots, List.mem_append, List.mem_map] at member
    rcases member with (⟨entry, _, rfl⟩ | inside) | behind
    · rw [show (Slot.ofVariable next level entry).scope = next from rfl, opened]
      rfl
    · exact ihInner inside
    · exact ihRest behind

end ScopeTree

namespace Program

variable (p : Program)

/-- All names of the scope tree are registered, by induction over hoisting and declaring. -/
theorem registered_scopeTree : p.scopeTree.Registered := by
  have hoisted (fs : List (Placed FunctionDecl)) {tree : ScopeTree} (registered : tree.Registered) :
      (fs.foldl ScopeTree.hoist tree).Registered := by
    induction fs generalizing tree with
    | nil => exact registered
    | cons f fs ih => exact ih (registered.hoist f)
  have declared (sites : List (Nat × Name × ValueType)) {tree : ScopeTree}
      (registered : tree.Registered) : (sites.foldl ScopeTree.declareIn tree).Registered := by
    induction sites generalizing tree with
    | nil => exact registered
    | cons site sites ih => exact ih (registered.declareIn site)
  rw [scopeTree_eq_foldl]
  exact declared _ (hoisted _ List.nodup_nil)

theorem scope?_scopeTree (s : Nat) : p.scopeTree.scope? s = p.hoisted.scope? s := by
  rw [ScopeTree.scope?, scopes_scopeTree, ScopeTree.scope?]

/-- Every declaration of a program has the depth of its scope. -/
theorem level_of_declaration {d : Declaration} (member : d ∈ p.scopeTree.declarations) :
    (p.scopeTree.scope? d.scope).map Scope.level = some d.symbol.level := by
  have global : (p.hoisted.scope? 0).map Scope.level = some 0 := by
    rw [p.scopes_hoisted.1.2]
    rfl
  rw [scope?_scopeTree]
  rw [← List.mem_reverse, declarations_scopeTree, List.mem_append] at member
  rcases member with isFunction | isVariable
  · rcases Slot.exists_slot_of_mem isFunction with ⟨slot, listed, id, number, rfl⟩
    exact p.mirrors_hoisted.level_of_functionSlot global rfl listed
  · rcases Slot.exists_slot_of_mem isVariable with ⟨slot, listed, id, number, rfl⟩
    rcases List.mem_append.1 (Slot.mem_of_mem_accepted listed) with isGlobal | inside
    · rcases List.mem_map.1 isGlobal with ⟨entry, _, rfl⟩
      exact global
    · exact p.mirrors_hoisted.level_of_variableSlot inside

end Program

end SplBasic
