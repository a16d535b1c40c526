import SplBasic.Proofs.Renaming

/-!
# Texts that names were read with

A name keeps the token it was read from, whatever text it is given later. So the text it was read
with can be put back, and two programs that agree once this is done differ in texts only.

* `Program.asRead` : the program with the texts that its names were read with,
* `Program.asRead_bindNames` : renaming changes nothing but texts,
* `Program.SpeltBy.asRead`, `Program.SpeltBy.text` : a program that was just parsed has these texts.
-/

namespace SplBasic

/-! ## Texts put back -/

namespace Name

/-- The name with the text it was read with. -/
def asRead (name : Name) : Name :=
  { name with text := name.source }

end Name

namespace Block

def asRead (block : Block) : Block :=
  block.mapNames Name.asRead Name.asRead

end Block

namespace VarDecl

def asRead (decl : VarDecl) : VarDecl :=
  { decl with name := decl.name.asRead }

end VarDecl

namespace FunctionDecl

def asRead (f : FunctionDecl) : FunctionDecl :=
  { f with
    name := f.name.asRead
    params := f.params.map Name.asRead
    locals := f.locals.map VarDecl.asRead
    body := f.body.asRead }

end FunctionDecl

namespace Program

def asRead (p : Program) : Program :=
  { p with
    globals := p.globals.map VarDecl.asRead
    block := p.block.asRead
    functions := p.functions.map FunctionDecl.asRead }

end Program

/-! Putting texts back is a change of names. -/

/-- Reading a function anew changes its names only. -/
theorem FunctionDecl.asRead_eq_map (f : FunctionDecl) :
    f.asRead = f.map (.ofNames Name.asRead Name.asRead) := by
  rw [asRead, Block.asRead, Block.mapNames_eq_map]
  rfl

/-- Reading a program anew changes its names only. -/
theorem Program.asRead_eq_map (p : Program) :
    p.asRead = p.map (.ofNames Name.asRead Name.asRead) := by
  rw [asRead, Block.asRead, Block.mapNames_eq_map, funext FunctionDecl.asRead_eq_map]
  rfl

/-! ## Renaming changes texts only -/

theorem Forest.map_value_placed {α : Type} (forest : Forest α) (outer next : Nat) :
    (forest.place outer next).map Placed.value = forest := by
  induction forest generalizing outer next with
  | nil => rfl
  | cons root children rest ihChildren ihRest => simp only [place, map, ihChildren, ihRest]

namespace ScopeTree

variable (tree : ScopeTree) (scope : Nat)

/-- Binding keeps what a name was read from. -/
theorem asRead_settleVariable (name : Name) :
    (tree.settleVariable scope name).asRead = name.asRead := by
  unfold settleVariable
  split
  · rfl
  · rfl

theorem asRead_bindFunction (name : Name) :
    (tree.bindFunction scope name).asRead = name.asRead := by
  unfold bindFunction
  split
  · rfl
  · rfl

theorem asRead_rename (name : Name) (found : Option Declaration) :
    (rename name found).asRead = name.asRead := by
  cases found with
  | none => rfl
  | some d => rfl

/-- So it does in blocks. -/
theorem asRead_bindBlock (block : Block) : (tree.bindBlock scope block).asRead = block.asRead := by
  have names (use : Name → NameUse) :
      Name.asRead ∘ (fun name => rename name (tree.referent scope (use name))) = Name.asRead :=
    funext fun name => asRead_rename name _
  rw [bindBlock, Block.asRead, Block.mapNames_mapNames]
  exact congrArg₂ block.mapNames (names .variable) (names .callee)

/-- So it does in functions. -/
theorem asRead_bindDecl (before : ScopeTree) (f : Placed FunctionDecl) :
    (tree.bindDecl before f).asRead = f.value.asRead := by
  simp only [FunctionDecl.asRead, bindDecl, asRead_bindFunction, asRead_bindBlock, Triple.map,
    Triple.along, VarDecl.asRead, VarDecl.settle, asRead_settleVariable]

end ScopeTree

namespace Program

/-- Renaming changes nothing but the texts of names. -/
theorem asRead_bindNames (tree : ScopeTree) (p : Program) :
    (p.bindNames tree).asRead = p.asRead := by
  have globals : (p.bindNames tree).globals.map VarDecl.asRead = p.globals.map VarDecl.asRead := by
    conv_rhs => rw [← map_snd_along
      (fun tree (decl : VarDecl) => tree.declareVariable ScopeTree.global decl.entry) p.hoisted
      p.globals]
    simp [bindNames, VarDecl.asRead, VarDecl.settle, ScopeTree.asRead_settleVariable]
  -- both sides map the sites of the functions, and there they agree one for one
  have functions : (p.bindNames tree).functions.map FunctionDecl.asRead =
      p.functions.map FunctionDecl.asRead := by
    calc
      (p.bindNames tree).functions.map FunctionDecl.asRead
          = p.sites.map fun site => (tree.bindDecl site.1 site.2).asRead := Forest.map_map _ _ _
      _ = p.sites.map fun site => site.2.value.asRead := by simp only [ScopeTree.asRead_bindDecl]
      _ = (p.placed.map Placed.value).map FunctionDecl.asRead := by
        rw [p.placed_eq_sites, Forest.map_map, Forest.map_map]
        rfl
      _ = p.functions.map FunctionDecl.asRead := by rw [placed, Forest.map_value_placed]
  simp only [asRead, globals, functions]
  rw [show (p.bindNames tree).block = tree.bindBlock ScopeTree.global p.block from rfl,
    ScopeTree.asRead_bindBlock]
  rfl

end Program

/-! ## Names that have these texts already -/

theorem Name.asRead_eq_self {n : Name} (text : n.text = n.source) : n.asRead = n := by
  rcases n with ⟨token, _, tag⟩
  exact congrArg (Name.mk token · tag) text.symm

/-- A block in which all names have their source texts is as it was read. -/
theorem Block.asRead_eq_self {block : Block}
    (texts : ∀ use ∈ block.commands.uses, use.kinded.name.text = use.kinded.name.source) :
    block.asRead = block := by
  refine congrArg (Block.mk block.brackets) (Commands.mapNames_eq_self fun use used => ?_)
  cases use with
  | «variable» n => exact congrArg NameUse.variable (Name.asRead_eq_self (texts _ used))
  | callee n => exact congrArg NameUse.callee (Name.asRead_eq_self (texts _ used))

theorem VarDecl.asRead_eq_self {decl : VarDecl} (text : decl.name.text = decl.name.source) :
    decl.asRead = decl :=
  congrArg (VarDecl.mk decl.typeToken decl.type) (Name.asRead_eq_self text)

/-- So is a function. -/
theorem FunctionDecl.asRead_eq_self {f : FunctionDecl}
    (texts : ∀ n ∈ f.names, n.name.text = n.name.source) : f.asRead = f := by
  simp only [names, entries, Triple.toList, VarDecl.entry, List.map_cons, List.map_nil,
    List.cons_append, List.nil_append, List.forall_mem_cons, List.forall_mem_map] at texts
  rcases texts with ⟨name, param, param', param'', decl, decl', decl'', uses⟩
  have params : f.params.map Name.asRead = f.params :=
    (Triple.mk.injEq _ _ _ _ _ _).mpr ⟨Name.asRead_eq_self param, Name.asRead_eq_self param',
      Name.asRead_eq_self param''⟩
  have locals : f.locals.map VarDecl.asRead = f.locals :=
    (Triple.mk.injEq _ _ _ _ _ _).mpr ⟨VarDecl.asRead_eq_self decl, VarDecl.asRead_eq_self decl',
      VarDecl.asRead_eq_self decl''⟩
  rw [asRead, Name.asRead_eq_self name, params, locals, Block.asRead_eq_self uses]

/-- A program whose names have the texts that they were read with stays as it is. -/
theorem Program.asRead_eq_self {p : Program} (texts : ∀ n ∈ p.names, n.name.text = n.name.source) :
    p.asRead = p := by
  simp only [names, List.forall_mem_append, List.forall_mem_map] at texts
  rcases texts with ⟨⟨globals, uses⟩, functions⟩
  have sameGlobals : p.globals.map VarDecl.asRead = p.globals := by
    calc p.globals.map VarDecl.asRead
        = p.globals.map id :=
          List.map_congr_left fun decl isGlobal => VarDecl.asRead_eq_self (globals decl isGlobal)
      _ = p.globals := List.map_id _
  have sameFunctions : p.functions.map FunctionDecl.asRead = p.functions := by
    calc p.functions.map FunctionDecl.asRead
        = p.functions.map id := p.functions.map_congr fun f isFunction =>
          FunctionDecl.asRead_eq_self fun n isName =>
            functions n (List.mem_flatMap.2 ⟨f, isFunction, isName⟩)
      _ = p.functions := p.functions.map_id
  rw [asRead, sameGlobals, Block.asRead_eq_self uses, sameFunctions]

/-! ## Parsed programs -/

/-- In a program that was just parsed, names have the texts they were read with. -/
theorem Program.SpeltBy.text {p : Program} {ts : List Token} (spelt : p.SpeltBy ts) :
    ∀ n ∈ p.names, n.name.text = n.name.source := by
  rw [Program.names_eq, List.forall_mem_map]
  intro use listed
  rcases List.mem_filterMap.1 listed with ⟨part, isPart, isUse⟩
  have isRead := (spelt.parts.isRead part isPart).1
  cases part with
  | word t => cases isUse
  | «variable» n =>
    cases isUse
    exact congrArg Name.text isRead.1
  | function n =>
    cases isUse
    exact congrArg Name.text isRead.1
  | literal l => cases isUse

/-- A program that was just parsed has the texts that its names were read with. -/
theorem Program.SpeltBy.asRead {p : Program} {ts : List Token} (spelt : p.SpeltBy ts) :
    p.asRead = p :=
  asRead_eq_self spelt.text

/-- In a program that was just parsed, used names have the texts they were read with. -/
theorem Program.SpeltBy.text_of_use {p : Program} {ts : List Token} (spelt : p.SpeltBy ts) :
    ∀ r ∈ p.regions, ∀ use ∈ r.block.commands.uses,
      use.kinded.name.text = use.kinded.name.source :=
  fun _ member use used => spelt.text use.kinded (use_mem_names member used)

end SplBasic
