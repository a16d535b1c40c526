import Mathlib.Data.List.Nodup
import SplBasic.Program.Basic
import SplBasic.Scope.Tree

/-!
# Static scoping

What the text of a program says about scopes, independent of any scope tree:

* `Frame` : what one scope declares: the globals, or the parameters and locals of one function,
  together with the functions declared directly in it,
* `Region` : a block with the frames it lies in, from the inside out,
* `Program.regions` : the main block and the bodies of all functions, in preorder,
* `Region.findVariable?`, `Region.findFunction?` : the declaration of a name in the innermost frame
  that has one,
* `Program.occurrences` : every name of a program with the declaration that it is bound to.

Declarations are identified by their tokens. Only tokens, declared types and blocks are looked at,
so renaming and tagging a program changes no frame.
-/

namespace SplBasic

/-- What one scope declares. Frames are numbered in preorder of their functions, the globals have
the number 0. -/
structure Frame where
  number : Nat
  owner : Option (Token × ReturnType)
  variableDecls : List (Token × ValueType)
  functionDecls : List (Token × ReturnType)

namespace Frame

def findVariable? (frame : Frame) (name : String) : Option (Token × ValueType) :=
  frame.variableDecls.find? fun entry => entry.1.lexeme = name

def findFunction? (frame : Frame) (name : String) : Option (Token × ReturnType) :=
  frame.functionDecls.find? fun entry => entry.1.lexeme = name

end Frame

/-- A block with the frame it belongs to and the frames around that, from the inside out. -/
structure Region where
  frame : Frame
  outer : List Frame
  block : Block

namespace Region

/-- All frames that a region lies in, its own first. -/
def frames (r : Region) : List Frame :=
  r.frame :: r.outer

/-- The declaration that a used variable is bound to. -/
def findVariable? (r : Region) (name : String) : Option (Token × ValueType) :=
  r.frames.findSome? fun frame => frame.findVariable? name

def findFunction? (r : Region) (name : String) : Option (Token × ReturnType) :=
  r.frames.findSome? fun frame => frame.findFunction? name

def SeesVariable (r : Region) (name : String) : Prop :=
  ∃ frame ∈ r.frames, ∃ entry ∈ frame.variableDecls, entry.1.lexeme = name

def SeesFunction (r : Region) (name : String) : Prop :=
  ∃ frame ∈ r.frames, ∃ entry ∈ frame.functionDecls, entry.1.lexeme = name

theorem isSome_findVariable?_iff (r : Region) (name : String) :
    (r.findVariable? name).isSome ↔ r.SeesVariable name := by
  simp [findVariable?, SeesVariable, Frame.findVariable?, List.findSome?_isSome_iff]

theorem isSome_findFunction?_iff (r : Region) (name : String) :
    (r.findFunction? name).isSome ↔ r.SeesFunction name := by
  simp [findFunction?, SeesFunction, Frame.findFunction?, List.findSome?_isSome_iff]

end Region

/-! ## Regions of a program -/

namespace FunctionDecl

/-- The function as it is declared. -/
def header (f : FunctionDecl) : Token × ReturnType :=
  (f.name.token, f.returnType)

end FunctionDecl

namespace Placed

/-- The frame of a function, given the functions declared inside it. -/
def frame (f : Placed FunctionDecl) (inner : Forest (Placed FunctionDecl)) : Frame where
  number := f.own
  owner := some f.value.header
  variableDecls := f.value.entries.map fun entry => (entry.1.token, entry.2)
  functionDecls := inner.roots.map fun g => g.value.header

end Placed

/-- The regions of functions in preorder; `outer` are the frames around all of them. -/
def regionsOf (outer : List Frame) : Forest (Placed FunctionDecl) → List Region
  | .nil => []
  | .cons f inner rest =>
    ⟨f.frame inner, outer, f.value.body⟩
      :: (regionsOf (f.frame inner :: outer) inner ++ regionsOf outer rest)

namespace Program

def globalFrame (p : Program) : Frame where
  number := ScopeTree.global
  owner := none
  variableDecls := p.globals.map fun decl => (decl.name.token, decl.type)
  functionDecls := p.placed.roots.map fun g => g.value.header

def mainRegion (p : Program) : Region :=
  ⟨p.globalFrame, [], p.block⟩

/-- All regions of a program: the main block, then the bodies of its functions in preorder. -/
def regions (p : Program) : List Region :=
  p.mainRegion :: regionsOf [p.globalFrame] p.placed

end Program

/-! ## How regions lie in each other -/

/-- Whatever a region lies in is a region itself, up to the frames around all of them. -/
theorem exists_region_of_suffix {env : List Frame} {forest : Forest (Placed FunctionDecl)}
    {r : Region} (member : r ∈ regionsOf env forest) {frame : Frame} {outer : List Frame}
    (within : (frame :: outer) <:+ r.frames) :
    (∃ r' ∈ regionsOf env forest, r'.frames = frame :: outer) ∨ (frame :: outer) <:+ env := by
  induction forest generalizing env with
  | nil => cases member
  | cons f inner rest ihInner ihRest =>
    simp only [regionsOf, List.mem_cons, List.mem_append] at member ⊢
    rcases member with rfl | inside | behind
    · rcases List.suffix_cons_iff.1 within with same | further
      · exact .inl ⟨_, .inl rfl, same.symm⟩
      · exact .inr further
    · rcases ihInner inside with ⟨r', found, same⟩ | further
      · exact .inl ⟨r', .inr (.inl found), same⟩
      · -- for the inner functions the frame of `f` is one of those around all of them
        rcases List.suffix_cons_iff.1 further with same | further
        · exact .inl ⟨_, .inl rfl, same.symm⟩
        · exact .inr further
    · rcases ihRest behind with ⟨r', found, same⟩ | further
      · exact .inl ⟨r', .inr (.inr found), same⟩
      · exact .inr further

namespace Program

/-- Each frame around a region is the frame of a region. -/
theorem exists_region {p : Program} {r : Region} (member : r ∈ p.regions) {frame : Frame}
    {outer : List Frame} (within : (frame :: outer) <:+ r.frames) :
    ∃ r' ∈ p.regions, r'.frames = frame :: outer := by
  have isMain (further : (frame :: outer) <:+ [p.globalFrame]) :
      ∃ r' ∈ p.regions, r'.frames = frame :: outer := by
    rcases List.suffix_cons_iff.1 further with same | none
    · exact ⟨p.mainRegion, List.mem_cons_self, same.symm⟩
    · exact absurd (List.eq_nil_of_suffix_nil none) (List.cons_ne_nil _ _)
  rcases List.mem_cons.1 member with rfl | inside
  · exact isMain within
  · rcases exists_region_of_suffix inside within with ⟨r', found, same⟩ | further
    · exact ⟨r', List.mem_cons_of_mem _ found, same⟩
    · exact isMain further

end Program

/-! ## Numbers of frames -/

namespace Forest

variable {α : Type}

/-- Scopes are numbered in preorder. -/
theorem map_own_place (forest : Forest α) (outer next : Nat) :
    (forest.place outer next).toList.map Placed.own = List.range' next forest.size := by
  induction forest generalizing outer next with
  | nil => rfl
  | cons root children rest ihChildren ihRest =>
    have split : children.size + rest.size + 1 = 1 + (children.size + rest.size) := by omega
    simp only [place, toList, List.map_cons, List.map_append, ihChildren, ihRest, size, split,
      List.range'_append_1]
    simp [Nat.add_comm 1, List.range'_succ, ← List.range'_append_1]

/-- Placing functions keeps them. -/
theorem map_value_place (forest : Forest α) (outer next : Nat) :
    (forest.place outer next).toList.map Placed.value = forest.toList := by
  induction forest generalizing outer next with
  | nil => rfl
  | cons root children rest ihChildren ihRest =>
    simp [place, toList, ihChildren, ihRest]

/-- Nodes lie in what encloses the forest or in nodes of the forest with smaller numbers. -/
theorem outer_place (forest : Forest α) {outer next : Nat} (below : outer < next) :
    ∀ f ∈ (forest.place outer next).toList,
      (f.outer = outer ∨ next ≤ f.outer) ∧ f.outer < f.own ∧ next ≤ f.own ∧
        f.own < next + forest.size := by
  induction forest generalizing outer next with
  | nil => simp [place, toList]
  | cons root children rest ihChildren ihRest =>
    intro f member
    simp only [place, toList, List.mem_cons, List.mem_append, size] at member ⊢
    -- the root has the first number, its children the next ones, and the rest those behind
    rcases member with rfl | inside | behind
    · refine ⟨.inl rfl, below, Nat.le_refl _, ?_⟩
      show next < next + (children.size + rest.size + 1)
      omega
    · have bounds := ihChildren (Nat.lt_succ_self next) f inside
      omega
    · have bounds := ihRest (show outer < next + 1 + children.size by omega) f behind
      omega

/-- Nothing of a forest lies directly in what neither encloses it nor belongs to it. -/
theorem filter_outer_eq_nil (forest : Forest α) {outer next n : Nat} (below : outer < next)
    (other : n ≠ outer) (away : n < next ∨ next + forest.size ≤ n) :
    (forest.place outer next).toList.filter (fun f => f.outer = n) = [] := by
  refine List.filter_eq_nil_iff.2 fun f found => ?_
  have bounds := forest.outer_place below f found
  simp only [decide_eq_true_eq]
  omega

/-- The nodes that lie directly in what encloses a forest are its roots. -/
theorem filter_outer_place (forest : Forest α) {outer next : Nat} (below : outer < next) :
    (forest.place outer next).toList.filter (fun f => f.outer = outer) =
      (forest.place outer next).roots := by
  induction forest generalizing outer next with
  | nil => rfl
  | cons root children rest ihChildren ihRest =>
    have noneInside : (children.place next (next + 1)).toList.filter
        (fun f => f.outer = outer) = [] :=
      children.filter_outer_eq_nil (Nat.lt_succ_self next) (Nat.ne_of_lt below)
        (.inl (Nat.lt_succ_of_lt below))
    simp [place, toList, roots, noneInside, ihRest (show outer < next + 1 + children.size by omega)]

/-- Whatever has a node inside is the enclosing thing or a node. -/
theorem exists_own_eq_outer (forest : Forest α) {outer next : Nat} (below : outer < next)
    {f : Placed α} (member : f ∈ (forest.place outer next).toList) (inside : f.outer ≠ outer) :
    ∃ g ∈ (forest.place outer next).toList, g.own = f.outer := by
  have bounds := forest.outer_place below f member
  have listed : f.outer ∈ (forest.place outer next).toList.map Placed.own := by
    rw [map_own_place, List.mem_range'_1]
    omega
  exact List.mem_map.1 listed

end Forest

/-! ## Regions and functions -/

/-- Each region inside functions belongs to a placed function. -/
theorem exists_placed_of_region {env : List Frame} {forest : Forest (Placed FunctionDecl)}
    {r : Region} (member : r ∈ regionsOf env forest) :
    ∃ f ∈ forest.toList, ∃ inner, r.frame = f.frame inner ∧ r.block = f.value.body := by
  induction forest generalizing env with
  | nil => cases member
  | cons f inner rest ihInner ihRest =>
    simp only [regionsOf, Forest.toList, List.mem_cons, List.mem_append] at member ⊢
    rcases member with rfl | inside | behind
    · exact ⟨f, .inl rfl, inner, rfl, rfl⟩
    · rcases ihInner inside with ⟨g, found, same⟩
      exact ⟨g, .inr (.inl found), same⟩
    · rcases ihRest behind with ⟨g, found, same⟩
      exact ⟨g, .inr (.inr found), same⟩

/-- Each placed function has a region. -/
theorem exists_region_of_placed (env : List Frame) {forest : Forest (Placed FunctionDecl)}
    {f : Placed FunctionDecl} (member : f ∈ forest.toList) :
    ∃ r ∈ regionsOf env forest, ∃ inner, r.frame = f.frame inner ∧ r.block = f.value.body := by
  induction forest generalizing env with
  | nil => cases member
  | cons g inner rest ihInner ihRest =>
    simp only [regionsOf, Forest.toList, List.mem_cons, List.mem_append] at member ⊢
    rcases member with rfl | inside | behind
    · exact ⟨_, .inl rfl, inner, rfl, rfl⟩
    · rcases ihInner (g.frame inner :: env) inside with ⟨r, found, same⟩
      exact ⟨r, .inr (.inl found), same⟩
    · rcases ihRest env behind with ⟨r, found, same⟩
      exact ⟨r, .inr (.inr found), same⟩

/-- The functions declared in a frame are the functions that lie directly in its scope. -/
theorem functionDecls_of_region (forest : Forest FunctionDecl) {outer next : Nat}
    (below : outer < next) {env : List Frame} {r : Region}
    (member : r ∈ regionsOf env (forest.place outer next)) :
    r.frame.functionDecls =
      ((forest.place outer next).toList.filter fun f => f.outer = r.frame.number).map
        fun f => f.value.header := by
  induction forest generalizing outer next env with
  | nil => cases member
  | cons root children rest ihChildren ihRest =>
    have behindOuter : outer < next + 1 + children.size := by omega
    have noneBehind {n : Nat} (away : n < next + 1 + children.size) (other : n ≠ outer) :
        (rest.place outer (next + 1 + children.size)).toList.filter (fun f => f.outer = n) = [] :=
      rest.filter_outer_eq_nil behindOuter other (.inl away)
    simp only [Forest.place, regionsOf, List.mem_cons, List.mem_append] at member
    rcases member with rfl | inside | behind
    · -- the first function: what lies in it are the roots of its children
      have other : outer ≠ next := by omega
      have inside : (Forest.place outer next (.cons root children rest)).toList.filter
          (fun f => f.outer = next) = (children.place next (next + 1)).roots := by
        simp only [Forest.place, Forest.toList, List.filter_cons, List.filter_append,
          decide_eq_true_eq, other, if_false]
        rw [children.filter_outer_place (Nat.lt_succ_self next),
          noneBehind (show next < next + 1 + children.size by omega) other.symm, List.append_nil]
      exact congrArg (List.map _) inside.symm
    · -- a function inside the first one: its number is too small to have anything of `rest` in it
      rcases exists_placed_of_region inside with ⟨f, found, _, same, _⟩
      have bounds := children.outer_place (Nat.lt_succ_self next) f found
      have number : r.frame.number = f.own := by rw [same]; rfl
      have other : outer ≠ r.frame.number := by omega
      simp only [Forest.place, Forest.toList, List.filter_cons, List.filter_append,
        decide_eq_true_eq, other, if_false, List.append_nil,
        noneBehind (show r.frame.number < next + 1 + children.size by omega) other.symm]
      exact ihChildren (Nat.lt_succ_self next) inside
    · -- a function behind the first one: its number is too large to have any child in it
      rcases exists_placed_of_region behind with ⟨f, found, _, same, _⟩
      have bounds := rest.outer_place behindOuter f found
      have number : r.frame.number = f.own := by rw [same]; rfl
      have other : outer ≠ r.frame.number := by omega
      have noneInside : (children.place next (next + 1)).toList.filter
          (fun f => f.outer = r.frame.number) = [] :=
        children.filter_outer_eq_nil (Nat.lt_succ_self next) (by omega) (.inr (by omega))
      simp only [Forest.place, Forest.toList, List.filter_cons, List.filter_append,
        decide_eq_true_eq, other, if_false, List.nil_append, noneInside]
      exact ihRest behindOuter behind

namespace Program

/-- A region is the main block or the body of a function. -/
theorem region_cases {p : Program} {r : Region} (member : r ∈ p.regions) :
    r = p.mainRegion ∨
      ∃ f ∈ p.placed.toList, ∃ inner, r.frame = f.frame inner ∧ r.block = f.value.body :=
  (List.mem_cons.1 member).imp_right exists_placed_of_region

theorem exists_region_of_function {p : Program} {f : Placed FunctionDecl}
    (member : f ∈ p.placed.toList) :
    ∃ r ∈ p.regions, ∃ inner, r.frame = f.frame inner ∧ r.block = f.value.body := by
  rcases exists_region_of_placed [p.globalFrame] member with ⟨r, found, same⟩
  exact ⟨r, List.mem_cons_of_mem _ found, same⟩

/-- The blocks of the regions are the main block and the bodies of the functions. -/
theorem map_block_regions (p : Program) :
    p.regions.map Region.block = p.block :: p.functions.toList.map FunctionDecl.body := by
  have inner (forest : Forest (Placed FunctionDecl)) (env : List Frame) :
      (regionsOf env forest).map Region.block = forest.toList.map fun f => f.value.body := by
    induction forest generalizing env with
    | nil => rfl
    | cons f inner rest ihInner ihRest => simp [regionsOf, Forest.toList, ihInner, ihRest]
  rw [regions, List.map_cons, inner, ← p.functions.map_value_place 0 1, List.map_map]
  rfl

/-- Each body is the block of a region. -/
theorem exists_region_of_body {p : Program} {f : FunctionDecl} (member : f ∈ p.functions.toList) :
    ∃ r ∈ p.regions, r.block = f.body := by
  have listed : f.body ∈ p.regions.map Region.block := by
    rw [map_block_regions]
    exact List.mem_cons_of_mem _ (List.mem_map_of_mem member)
  exact List.mem_map.1 listed

/-- Every function lies directly in some region. -/
theorem exists_region_around {p : Program} {f : Placed FunctionDecl}
    (member : f ∈ p.placed.toList) : ∃ r ∈ p.regions, r.frame.number = f.outer := by
  by_cases top : f.outer = 0
  · exact ⟨p.mainRegion, List.mem_cons_self, top.symm⟩
  · rcases p.functions.exists_own_eq_outer Nat.zero_lt_one member top with ⟨g, found, own⟩
    rcases exists_region_of_function found with ⟨r, isRegion, inner, same, _⟩
    exact ⟨r, isRegion, by rw [same]; exact own⟩

/-- The functions of a frame are those placed in it. -/
theorem functionDecls_eq {p : Program} {r : Region} (member : r ∈ p.regions) :
    r.frame.functionDecls =
      (p.placed.toList.filter fun f => f.outer = r.frame.number).map fun f => f.value.header := by
  rcases List.mem_cons.1 member with rfl | inside
  · exact congrArg (List.map _) (p.functions.filter_outer_place Nat.zero_lt_one).symm
  · exact functionDecls_of_region p.functions Nat.zero_lt_one inside

end Program

/-! ## Programs that differ in texts and tags only -/

namespace Forest

variable {α β σ : Type}

@[simp] theorem roots_map (h : α → β) (forest : Forest α) :
    (forest.map h).roots = forest.roots.map h := by
  induction forest with
  | nil => rfl
  | cons root children rest _ ih => simp [map, roots, ih]

@[simp] theorem map_map {γ : Type} (g : β → γ) (h : α → β) (forest : Forest α) :
    (forest.map h).map g = forest.map (g ∘ h) := by
  induction forest with
  | nil => rfl
  | cons root children rest ihChildren ihRest => simp [map, ihChildren, ihRest]

/-- A forest is changed only at what it holds. -/
theorem map_congr {g g' : α → β} (forest : Forest α)
    (same : ∀ x ∈ forest.toList, g x = g' x) : forest.map g = forest.map g' := by
  induction forest with
  | nil => rfl
  | cons root children rest ihChildren ihRest =>
    simp only [toList, List.mem_cons, List.mem_append] at same
    rw [map, map, same root (.inl rfl), ihChildren fun x member => same x (.inr (.inl member)),
      ihRest fun x member => same x (.inr (.inr member))]

theorem map_id (forest : Forest α) : forest.map id = forest := by
  induction forest with
  | nil => rfl
  | cons root children rest ihChildren ihRest => rw [map, ihChildren, ihRest, id]

@[simp] theorem size_map (h : α → β) (forest : Forest α) : (forest.map h).size = forest.size := by
  rw [← length_toList, ← length_toList, toList_map, List.length_map]

/-- Numbers are given by position, whatever is numbered. -/
theorem place_map (h : α → β) (forest : Forest α) (outer next : Nat) :
    (forest.map h).place outer next =
      (forest.place outer next).map fun f => ⟨f.own, f.outer, h f.value⟩ := by
  induction forest generalizing outer next with
  | nil => rfl
  | cons root children rest ihChildren ihRest => simp [map, place, ihChildren, ihRest]

/-- States are put beside the functions, which stay. -/
theorem map_snd_along (step : σ → α → σ) (s : σ) (forest : Forest α) :
    (forest.along step s).map Prod.snd = forest := by
  unfold along
  induction forest generalizing s with
  | nil => rfl
  | cons root children rest ihChildren ihRest => simp [walk, map, ihChildren, ihRest]

/-- Numbering the nodes of a walk over a numbered forest gives each its own number again. -/
theorem place_along_place (step : σ → Placed α → σ) (s : σ) (forest : Forest α) (outer next : Nat) :
    ((forest.place outer next).along step s).place outer next =
      ((forest.place outer next).along step s).map fun site => ⟨site.2.own, site.2.outer, site⟩ := by
  -- a walk keeps the shape of a forest, so the numbers given behind it are the same
  have sizes (s : σ) (outer next : Nat) (forest : Forest α) :
      (((forest.place outer next).walk step s).2).size = forest.size := by
    have erased := congrArg size (map_snd_along step s (forest.place outer next))
    have lengths := congrArg List.length (forest.map_value_place outer next)
    rw [size_map] at erased
    rw [List.length_map, length_toList, length_toList] at lengths
    exact erased.trans lengths
  unfold along
  induction forest generalizing s outer next with
  | nil => rfl
  | cons root children rest ihChildren ihRest =>
    simp [place, walk, map, ihChildren, ihRest, sizes]

end Forest

/-- Two labellings of a forest that agree on what frames are made of give the same frames. Blocks
may differ, in a way that the frame determines. -/
theorem regionsOf_map {β : Type} {a b : β → Placed FunctionDecl} {change : Frame → Block → Block}
    (own : ∀ x, (b x).own = (a x).own) (header : ∀ x, (b x).value.header = (a x).value.header)
    (entries : ∀ x, ((b x).value.entries.map fun entry => (entry.1.token, entry.2)) =
      (a x).value.entries.map fun entry => (entry.1.token, entry.2))
    (body : ∀ x inner, (b x).value.body = change ((a x).frame inner) (a x).value.body)
    (env : List Frame) (forest : Forest β) :
    regionsOf env (forest.map b) =
      (regionsOf env (forest.map a)).map fun r => { r with block := change r.frame r.block } := by
  induction forest generalizing env with
  | nil => rfl
  | cons root children rest ihChildren ihRest =>
    have frame : (b root).frame (children.map b) = (a root).frame (children.map a) := by
      simp [Placed.frame, own, header, entries, Function.comp_def]
    simp only [Forest.map, regionsOf, List.map_cons, List.map_append, frame, ihChildren, ihRest,
      body root (children.map a)]

/-! ## Occurrences of names -/

/-- A name in a program with the token of the declaration it is bound to, if there is one. -/
structure Occurrence where
  name : Name
  binder : Option Token

namespace Region

/-- A name that is used in a region. -/
def occurrence (r : Region) : NameUse → Occurrence
  | .variable name => ⟨name, (r.findVariable? name.source).map Prod.fst⟩
  | .callee name => ⟨name, (r.findFunction? name.source).map Prod.fst⟩

def occurrences (r : Region) : List Occurrence :=
  r.block.commands.uses.map r.occurrence

end Region

namespace Program

/-- The declared names of a program: globals, then of each function its own name, its parameters and
its locals. -/
def declaredNames (p : Program) : List Name :=
  p.globals.map VarDecl.name
    ++ p.functions.toList.flatMap fun f => f.name :: f.entries.map Prod.fst

theorem name_mem_declaredNames {p : Program} {f : FunctionDecl} (member : f ∈ p.functions.toList) :
    f.name ∈ p.declaredNames :=
  List.mem_append_right _ (List.mem_flatMap.2 ⟨f, member, List.mem_cons_self⟩)

/-- Parameters are declared names. -/
theorem param_mem_declaredNames {p : Program} {f : FunctionDecl} (member : f ∈ p.functions.toList)
    {n : Name} (isParam : n ∈ f.params.toList) : n ∈ p.declaredNames := by
  have isEntry : (n, ValueType.num) ∈ f.entries :=
    List.mem_append_left _ (List.mem_map_of_mem isParam)
  exact List.mem_append_right _
    (List.mem_flatMap.2 ⟨f, member, List.mem_cons_of_mem _ (List.mem_map_of_mem isEntry)⟩)

/-- All names of a program. A declared name is bound to itself, a used one by static scoping. -/
def occurrences (p : Program) : List Occurrence :=
  (p.declaredNames.map fun name => ⟨name, some name.token⟩)
    ++ p.regions.flatMap Region.occurrences

end Program

end SplBasic
