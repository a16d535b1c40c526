import Mathlib.Data.Multiset.MapFold
import SplBasic.Proofs.TypeChecking

/-!
# The order of function declarations

Functions can be called before they are declared, so it does not matter in which order the functions
of a list stand: whether a program is resolved without diagnostics, and then whether it passes the
type checker, is the same for every order at every depth (`accepted_iff_of_reordered`).

Reordering changes the numbers of scopes and which of two equal names comes first. Static scoping
sees neither: both programs have the same regions up to numbers and up to the order of the functions
in a frame (`Region.view`), and in a well-scoped program no frame has two functions of one name.

* `Forest.Reordered` : forests that differ in the order of neighbours, at any depth,
* `Forest.Reordered.perm_viewsOf` : reordered functions have the same regions,
* `Region.typeEnv_eq_of_view` : in such regions names have the same types.
-/

namespace SplBasic

/-! ## Reordered forests -/

/-- Two neighbours may be swapped while all else is permuted. -/
theorem perm_swap_append {α : Type} {as as' bs bs' cs cs' : List α} (first : as.Perm as')
    (second : bs.Perm bs') (rest : cs.Perm cs') :
    (as ++ (bs ++ cs)).Perm (bs' ++ (as' ++ cs')) :=
  (List.perm_append_comm_assoc as bs cs).trans (second.append (first.append rest))

namespace Forest

variable {α : Type}

/-- Forests that differ in the order of trees next to each other, at any depth. -/
inductive Reordered : Forest α → Forest α → Prop
  | nil : Reordered .nil .nil
  | cons (root : α) {children children' rest rest' : Forest α} :
      Reordered children children' → Reordered rest rest' →
        Reordered (.cons root children rest) (.cons root children' rest')
  | swap (first second : α) {children children' inner inner' rest rest' : Forest α} :
      Reordered children children' → Reordered inner inner' → Reordered rest rest' →
        Reordered (.cons first children (.cons second inner rest))
          (.cons second inner' (.cons first children' rest'))
  | trans {forest middle forest' : Forest α} :
      Reordered forest middle → Reordered middle forest' → Reordered forest forest'

namespace Reordered

variable {forest forest' : Forest α}

/-- A forest is a reordering of itself. -/
theorem refl (forest : Forest α) : forest.Reordered forest := by
  induction forest with
  | nil => exact .nil
  | cons root children rest ihChildren ihRest => exact .cons root ihChildren ihRest

/-- Swaps are undone by swaps. -/
theorem symm (reordered : forest.Reordered forest') : forest'.Reordered forest := by
  induction reordered with
  | nil => exact .nil
  | cons root _ _ ihChildren ihRest => exact .cons root ihChildren ihRest
  | swap first second _ _ _ ihChildren ihInner ihRest =>
    exact .swap second first ihInner ihChildren ihRest
  | trans _ _ ih ih' => exact .trans ih' ih

/-- The roots of a reordered forest are permuted. -/
theorem roots (reordered : forest.Reordered forest') : forest.roots.Perm forest'.roots := by
  induction reordered with
  | nil => exact .nil
  | cons root _ _ _ ihRest => exact .cons root ihRest
  | swap first second _ _ _ _ _ ihRest =>
    exact (List.Perm.swap second first _).trans ((ihRest.cons first).cons second)
  | trans _ _ ih ih' => exact ih.trans ih'

/-- All functions of a reordered forest are permuted. -/
theorem toList (reordered : forest.Reordered forest') : forest.toList.Perm forest'.toList := by
  induction reordered with
  | nil => exact .nil
  | cons root _ _ ihChildren ihRest => exact .cons root (ihChildren.append ihRest)
  | swap first second _ _ _ ihChildren ihInner ihRest =>
    exact perm_swap_append (ihChildren.cons first) (ihInner.cons second) ihRest
  | trans _ _ ih ih' => exact ih.trans ih'

end Reordered

end Forest

/-! ## Views of regions -/

/-- A frame without its number and without an order of its functions. -/
structure FrameView where
  owner : Option (Token × ReturnType)
  variableDecls : List (Token × ValueType)
  functionDecls : Multiset (Token × ReturnType)

/-- A region in terms of views of its frames. -/
structure RegionView where
  frame : FrameView
  outer : List FrameView
  block : Block

def Frame.view (frame : Frame) : FrameView :=
  ⟨frame.owner, frame.variableDecls, frame.functionDecls⟩

def Region.view (r : Region) : RegionView :=
  ⟨r.frame.view, r.outer.map Frame.view, r.block⟩

/-- The view of the frame of a function with the given functions inside it. -/
def FunctionDecl.view (f : FunctionDecl) (inner : Forest FunctionDecl) : FrameView :=
  ⟨some f.header, f.entries.map fun entry => (entry.1.token, entry.2),
    inner.roots.map FunctionDecl.header⟩

/-- The views of the regions of functions, which do not depend on numbers. -/
def viewsOf (outer : List FrameView) : Forest FunctionDecl → List RegionView
  | .nil => []
  | .cons f inner rest =>
    ⟨f.view inner, outer, f.body⟩ :: (viewsOf (f.view inner :: outer) inner ++ viewsOf outer rest)

/-- Placing functions keeps their headers. -/
theorem map_header_roots_place (forest : Forest FunctionDecl) (outer next : Nat) :
    ((forest.place outer next).roots.map fun g => g.value.header) =
      forest.roots.map FunctionDecl.header := by
  induction forest generalizing outer next with
  | nil => rfl
  | cons f inner rest _ ih =>
    rw [Forest.place, Forest.roots, Forest.roots, List.map_cons, List.map_cons, ih]

/-- What a region looks like does not depend on the numbers of scopes. -/
theorem map_view_regionsOf (forest : Forest FunctionDecl) (env : List Frame) (outer next : Nat) :
    (regionsOf env (forest.place outer next)).map Region.view =
      viewsOf (env.map Frame.view) forest := by
  induction forest generalizing env outer next with
  | nil => rfl
  | cons f inner rest ihInner ihRest =>
    have frame : (Placed.frame ⟨next, outer, f⟩ (inner.place next (next + 1))).view =
        f.view inner := by
      simp only [Frame.view, Placed.frame, FunctionDecl.view, map_header_roots_place]
    simp only [Forest.place, regionsOf, viewsOf, List.map_cons, List.map_append, ihInner, ihRest,
      Region.view, frame]

/-- Reordered functions have the same regions. -/
theorem Forest.Reordered.perm_viewsOf {forest forest' : Forest FunctionDecl}
    (reordered : forest.Reordered forest') (outer : List FrameView) :
    (viewsOf outer forest).Perm (viewsOf outer forest') := by
  -- a frame holds its functions as a multiset, so the frames around the inner regions stay equal
  have frame (f : FunctionDecl) {inner inner' : Forest FunctionDecl}
      (inside : inner.Reordered inner') : f.view inner = f.view inner' := by
    simp only [FunctionDecl.view, FrameView.mk.injEq, true_and, Multiset.coe_eq_coe]
    exact inside.roots.map _
  induction reordered generalizing outer with
  | nil => exact .nil
  | cons root inside _ ihChildren ihRest =>
    simp only [viewsOf, frame root inside]
    exact .cons _ ((ihChildren _).append (ihRest outer))
  | swap first second inFirst inSecond _ ihChildren ihInner ihRest =>
    simp only [viewsOf, frame first inFirst, frame second inSecond]
    exact perm_swap_append ((ihChildren _).cons _) ((ihInner _).cons _) (ihRest outer)
  | trans _ _ ih ih' => exact (ih outer).trans (ih' outer)

/-! ## What views show -/

theorem Frame.perm_functionDecls_of_view {frame frame' : Frame}
    (same : frame.view = frame'.view) : frame.functionDecls.Perm frame'.functionDecls :=
  Multiset.coe_eq_coe.1 (congrArg FrameView.functionDecls same)

namespace Region

variable {r r' : Region}

def frameViews (r : Region) : List FrameView :=
  r.frames.map Frame.view

theorem frameViews_of_view (same : r.view = r'.view) : r.frameViews = r'.frameViews :=
  congrArg (fun v : RegionView => v.frame :: v.outer) same

/-- Which variables are seen can be told from the view. -/
theorem seesVariable_iff_of_view (same : r.view = r'.view) (name : String) :
    r.SeesVariable name ↔ r'.SeesVariable name := by
  have viewed (r : Region) : r.SeesVariable name ↔
      ∃ view ∈ r.frameViews, ∃ entry ∈ view.variableDecls, entry.1.lexeme = name := by
    simp [SeesVariable, frameViews, Frame.view]
  rw [viewed, viewed, frameViews_of_view same]

/-- Which functions are seen can be told from the view. -/
theorem seesFunction_iff_of_view (same : r.view = r'.view) (name : String) :
    r.SeesFunction name ↔ r'.SeesFunction name := by
  have viewed (r : Region) : r.SeesFunction name ↔
      ∃ view ∈ r.frameViews, ∃ entry ∈ view.functionDecls, entry.1.lexeme = name := by
    simp [SeesFunction, frameViews, Frame.view]
  rw [viewed, viewed, frameViews_of_view same]

/-- The rule for variables depends on the view only. -/
theorem VariablesFit.of_view (fits : r.VariablesFit) (same : r.view = r'.view) :
    r'.VariablesFit := by
  have variableDecls : r.frame.variableDecls = r'.frame.variableDecls :=
    congrArg (fun v => v.frame.variableDecls) same
  simpa only [VariablesFit, variableDecls, seesFunction_iff_of_view same] using fits

/-- The rule for functions depends on the view only, as it asks for a set. -/
theorem FunctionsFit.of_view (fits : r.FunctionsFit) (same : r.view = r'.view) :
    r'.FunctionsFit := by
  have functionDecls : r.frame.functionDecls.Perm r'.frame.functionDecls :=
    Frame.perm_functionDecls_of_view (congrArg RegionView.frame same)
  have owner : r.frame.owner = r'.frame.owner := congrArg (fun v => v.frame.owner) same
  refine ⟨(functionDecls.map _).nodup_iff.1 fits.1, fun entry listed bare spelling => ?_⟩
  rw [← seesVariable_iff_of_view same, ← owner]
  exact fits.2 entry (functionDecls.mem_iff.2 listed) bare spelling

/-- The rule for uses depends on the view only. -/
theorem UsesFit.of_view (fits : r.UsesFit) (same : r.view = r'.view) : r'.UsesFit := by
  have block : r.block = r'.block := congrArg RegionView.block same
  simpa only [UsesFit, block, seesVariable_iff_of_view same, seesFunction_iff_of_view same] using
    fits

end Region

/-- Elements with distinct keys are found in any order. -/
theorem find?_eq_of_perm {α β : Type} [DecidableEq β] {key : α → β} {xs ys : List α}
    (perm : xs.Perm ys) (distinct : (xs.map key).Nodup) (k : β) :
    xs.find? (fun x => key x = k) = ys.find? fun x => key x = k := by
  cases search : ys.find? fun x => key x = k with
  | none =>
    rw [List.find?_eq_none] at search ⊢
    exact fun x member => search x (perm.mem_iff.1 member)
  | some y =>
    obtain rfl : key y = k := by simpa using List.find?_some search
    exact find?_eq_some_of_nodup distinct (perm.mem_iff.2 (List.mem_of_find?_eq_some search))

/-- Searching lists that look alike, if looks determine what is found. -/
theorem findSome?_eq_of_map_eq {α β γ : Type} {look : α → β} {find : α → Option γ} {xs ys : List α}
    (same : xs.map look = ys.map look)
    (determined : ∀ x ∈ xs, ∀ y, look x = look y → find x = find y) :
    xs.findSome? find = ys.findSome? find := by
  induction xs generalizing ys with
  | nil =>
    rw [List.map_nil, eq_comm, List.map_eq_nil_iff] at same
    rw [same]
  | cons x xs ih =>
    rcases List.map_eq_cons_iff.1 same.symm with ⟨y, rest, rfl, head, tail⟩
    rw [List.findSome?_cons, List.findSome?_cons, determined x List.mem_cons_self y head.symm,
      ih tail.symm fun x member => determined x (List.mem_cons_of_mem _ member)]

/-- Frames without two functions of one name give the same types in any order. -/
theorem Region.typeEnv_eq_of_view {r r' : Region} (same : r.view = r'.view)
    (distinct : ∀ frame ∈ r.frames, (frame.functionDecls.map fun entry => entry.1.lexeme).Nodup) :
    r.typeEnv = r'.typeEnv := by
  have views : r.frames.map Frame.view = r'.frames.map Frame.view := frameViews_of_view same
  have variableType (name : String) : r.findVariable? name = r'.findVariable? name := by
    refine findSome?_eq_of_map_eq views fun frame _ frame' alike => ?_
    have variableDecls : frame.variableDecls = frame'.variableDecls :=
      congrArg FrameView.variableDecls alike
    rw [Frame.findVariable?, variableDecls, Frame.findVariable?]
  have functionType (name : String) : r.findFunction? name = r'.findFunction? name :=
    findSome?_eq_of_map_eq views fun frame around frame' alike =>
      find?_eq_of_perm (Frame.perm_functionDecls_of_view alike) (distinct frame around) name
  have owner : r.frame.owner = r'.frame.owner := congrArg (fun v => v.frame.owner) same
  simp only [typeEnv, variableType, functionType, owner]

/-! ## Reordered programs -/

namespace Program

variable {p : Program} {functions : Forest FunctionDecl}

/-- The views of a program are the ones of its main part and its functions. -/
theorem map_view_regions (p : Program) :
    p.regions.map Region.view =
      ⟨p.globalFrame.view, [], p.block⟩ :: viewsOf [p.globalFrame.view] p.functions := by
  rw [regions, placed, List.map_cons, map_view_regionsOf]
  rfl

/-- Each region of the reordered program looks like one of the program. -/
theorem exists_region_of_reordered (reordered : p.functions.Reordered functions) {r' : Region}
    (member : r' ∈ { p with functions }.regions) : ∃ r ∈ p.regions, r.view = r'.view := by
  have frame : p.globalFrame.view = { p with functions }.globalFrame.view := by
    simp only [Frame.view, globalFrame, placed, map_header_roots_place, FrameView.mk.injEq,
      true_and, Multiset.coe_eq_coe]
    exact reordered.roots.map _
  have views : (p.regions.map Region.view).Perm ({ p with functions }.regions.map Region.view) := by
    rw [map_view_regions, map_view_regions, frame]
    exact (reordered.perm_viewsOf _).cons _
  exact List.mem_map.1 (views.mem_iff.2 (List.mem_map_of_mem member))

/-- Reordered functions are well named, as the names are permuted. -/
theorem WellNamed.reordered (named : p.WellNamed) (reordered : p.functions.Reordered functions) :
    { p with functions }.WellNamed := by
  have names : p.names.Perm { p with functions }.names :=
    (reordered.toList.flatMap_right _).append_left _
  exact ⟨(names.map _).nodup_iff.1 named.apart,
    fun n member => named.marked n (names.mem_iff.2 member)⟩

/-- Reordering keeps the rules for scopes. -/
theorem WellScoped.reordered (named : p.WellNamed) (wellScoped : p.WellScoped)
    (reordered : p.functions.Reordered functions) : { p with functions }.WellScoped := by
  rw [wellScoped_iff named] at wellScoped
  rw [wellScoped_iff (named.reordered reordered)]
  rcases wellScoped with ⟨variablesFit, functionsFit, usesFit⟩
  refine ⟨fun r' member => ?_, fun r' member => ?_, fun r' member => ?_⟩
  · rcases exists_region_of_reordered reordered member with ⟨r, isRegion, same⟩
    exact (variablesFit r isRegion).of_view same
  · rcases exists_region_of_reordered reordered member with ⟨r, isRegion, same⟩
    exact (functionsFit r isRegion).of_view same
  · rcases exists_region_of_reordered reordered member with ⟨r, isRegion, same⟩
    exact (usesFit r isRegion).of_view same

/-- Reordering keeps the rules for types. -/
theorem WellTyped.reordered (wellScoped : p.WellScoped) (wellTyped : p.WellTyped)
    (reordered : p.functions.Reordered functions) : { p with functions }.WellTyped := by
  intro r' member
  rcases exists_region_of_reordered reordered member with ⟨r, isRegion, same⟩
  have block : r.block = r'.block := congrArg RegionView.block same
  have env : r.typeEnv = r'.typeEnv := by
    refine Region.typeEnv_eq_of_view same fun frame around => ?_
    rcases exists_region_of_frame isRegion around with ⟨inner, isInner, rfl⟩
    exact wellScoped.functionsDistinct inner isInner
  rw [← block, ← env]
  exact wellTyped r isRegion

/-- The compiler's check for scopes tells whether the rules hold. -/
theorem WellNamed.diagnostics_resolve_iff (named : p.WellNamed) :
    (resolve p).diagnostics = [] ↔ p.WellScoped := by
  rw [Resolution.diagnostics, List.map_eq_nil_iff]
  exact scopeProblems_scopeTree_eq_nil_iff named

/-- The compiler's check for types tells whether the rules hold. -/
theorem WellNamed.typecheck_ok_iff (named : p.WellNamed) (clean : (resolve p).diagnostics = []) :
    (typecheck (resolve p).scopes (resolve p).program).ok = true ↔ p.WellTyped := by
  rw [Typing.ok_iff_problems]
  exact typeProblems_bindNames_eq_nil_iff named (List.map_eq_nil_iff.1 clean)

end Program

/-- Whether a program that is read from a text is resolved without diagnostics does not depend on
the order of function declarations, at any depth. Neither does, if it is, whether it passes the type
checker. -/
theorem accepted_iff_of_reordered {text file : String} {tokens : List Token} {p : Program}
    (read : tokenize text file = .ok tokens) (parsed : parse tokens = .ok p)
    {functions : Forest FunctionDecl} (reordered : p.functions.Reordered functions) :
    let q := { p with functions }
    ((resolve p).diagnostics = [] ↔ (resolve q).diagnostics = []) ∧
      ((resolve p).diagnostics = [] →
        ((typecheck (resolve p).scopes (resolve p).program).ok = true ↔
          (typecheck (resolve q).scopes (resolve q).program).ok = true)) := by
  intro q
  have named : p.WellNamed := wellNamed_of_parse read parsed
  have named' : q.WellNamed := named.reordered reordered
  -- reordering goes both ways, so one direction of each equivalence gives the other
  have back : q.functions.Reordered p.functions := reordered.symm
  have cleanIff : (resolve p).diagnostics = [] ↔ (resolve q).diagnostics = [] := by
    rw [named.diagnostics_resolve_iff, named'.diagnostics_resolve_iff]
    exact ⟨fun wellScoped => wellScoped.reordered named reordered,
      fun wellScoped => wellScoped.reordered (p := q) named' back⟩
  refine ⟨cleanIff, fun clean => ?_⟩
  have clean' : (resolve q).diagnostics = [] := cleanIff.1 clean
  have wellScoped : p.WellScoped := named.diagnostics_resolve_iff.1 clean
  have wellScoped' : q.WellScoped := named'.diagnostics_resolve_iff.1 clean'
  rw [named.typecheck_ok_iff clean, named'.typecheck_ok_iff clean']
  exact ⟨fun wellTyped => wellTyped.reordered wellScoped reordered,
    fun wellTyped => wellTyped.reordered (p := q) wellScoped' back⟩

/-- Two functions, the first of which calls the second. -/
def siblingsSource : String :=
  "main begin end void F_a(V_x,V_y,V_z)\x7bnum V_p,num V_q,num V_r,begin F_b(1,1,1)end\x7dend "
    ++ "void F_b(V_x,V_y,V_z)\x7bnum V_p,num V_q,num V_r,begin end\x7dend"

/-- The program is accepted with its functions the other way round, too. -/
theorem accepted_siblings_swapped :
    ∃ tokens p functions, tokenize siblingsSource "t.spl" = .ok tokens ∧ parse tokens = .ok p ∧
      p.functions.Reordered functions ∧
      (functions.roots.map fun f => f.name.source) = ["F_b", "F_a"] ∧
      (resolve { p with functions }).diagnostics = [] ∧
      (typecheck (resolve { p with functions }).scopes (resolve { p with functions }).program).ok =
        true := by
  let accepted (p : Program) : Bool :=
    (resolve p).diagnostics.isEmpty && (typecheck (resolve p).scopes (resolve p).program).ok
      && (p.functions.roots.map fun f => f.name.source) = ["F_a", "F_b"]
  have passes : (readProgram? siblingsSource "t.spl").any accepted = true := by decide +kernel
  rcases exists_of_readProgram? passes with ⟨tokens, p, read, parsed, tested⟩
  simp only [accepted, Bool.and_eq_true, List.isEmpty_iff, decide_eq_true_eq] at tested
  rcases tested with ⟨⟨clean, ok⟩, roots⟩
  have two : ∃ f inner g inner', p.functions = .cons f inner (.cons g inner' .nil) := by
    rcases forest : p.functions with _ | ⟨f, inner, _ | ⟨g, inner', _ | ⟨_, _, _⟩⟩⟩
    · simp [forest, Forest.roots] at roots
    · simp [forest, Forest.roots] at roots
    · exact ⟨f, inner, g, inner', rfl⟩
    · simp [forest, Forest.roots] at roots
  rcases two with ⟨f, inner, g, inner', forest⟩
  simp only [forest, Forest.roots, List.map_cons, List.map_nil, List.cons.injEq, and_true] at roots
  have swapped : p.functions.Reordered (.cons g inner' (.cons f inner .nil)) :=
    forest ▸ .swap f g (.refl _) (.refl _) .nil
  have decided := accepted_iff_of_reordered read parsed swapped
  exact ⟨tokens, p, _, read, parsed, swapped, by simp [Forest.roots, roots], decided.1.1 clean,
    (decided.2 clean).1 ok⟩

end SplBasic
