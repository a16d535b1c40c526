import Mathlib.Data.List.Perm.Basic
import SplBasic.Proofs.ScopeModel

/-!
# Unique names

All declarations of a scope tree are made one at a time, and each gets a name with the next number
of its kind. `ScopeTree.Step` says what one declaring step can do, `ScopeTree.Grows` is a run of
such steps with the places of the names it tries to declare. From this follows for the complete tree
of a program that a declaration is determined

* by its unique name (`ScopeTree.Numbered`), and
* by its place, since no two names of a program stand at the same place.
-/

namespace SplBasic

/-- What is told apart by `key` is found by it. -/
theorem find?_eq_some_of_nodup {α β : Type} [DecidableEq β] {key : α → β} {xs : List α}
    (distinct : (xs.map key).Nodup) {x : α} (member : x ∈ xs) :
    xs.find? (fun y => key y = key x) = some x := by
  cases search : xs.find? (fun y => key y = key x) with
  | none =>
    have missing := List.find?_eq_none.1 search x member
    simp at missing
  | some y =>
    have found := List.mem_of_find?_eq_some search
    have same : key y = key x := by simpa using List.find?_some search
    rw [List.inj_on_of_nodup_map distinct found member same]

namespace SymbolKind

/-- The letter that the unique names of a kind start with. -/
def letter : SymbolKind → String
  | .variable => "v"
  | .function => "f"

/-- The unique name with a given number. -/
def numberedName (kind : SymbolKind) (number : Nat) : String :=
  kind.letter ++ toString number

/-- The letter in front tells the kind, and the digits tell the number. -/
theorem numberedName_inj {kind kind' : SymbolKind} {m n : Nat}
    (same : kind.numberedName m = kind'.numberedName n) : kind = kind' ∧ m = n := by
  have chars := congrArg String.toList same
  have digits (rest : Nat.toDigits 10 m = Nat.toDigits 10 n) : m = n := by
    have values := congrArg (Nat.ofDigitChars 10 · 0) rest
    simpa using values
  simp only [numberedName, String.toList_append, Nat.toString_eq_repr, Nat.toList_repr] at chars
  -- the letter tells the kind, what follows the number
  cases kind with
  | «variable» =>
    cases kind' with
    | «variable» => exact ⟨rfl, digits (List.append_cancel_left chars)⟩
    | function => simp [letter] at chars
  | function =>
    cases kind' with
    | «variable» => simp [letter] at chars
    | function => exact ⟨rfl, digits (List.append_cancel_left chars)⟩

/-- Unique names have letters and digits only. -/
theorem isAlphanum_of_mem_numberedName {kind : SymbolKind} {n : Nat} {c : Char}
    (member : c ∈ (kind.numberedName n).toList) : c.isAlphanum = true := by
  have digit (listed : c ∈ Nat.toDigits 10 n) : c.isAlphanum = true := by
    have isDigit := Nat.isDigit_of_mem_toDigits (by decide) (by decide) listed
    simp [Char.isAlphanum, isDigit]
  simp only [numberedName, String.toList_append, List.mem_append, Nat.toString_eq_repr,
    Nat.toList_repr] at member
  rcases member with isLetter | listed
  · cases kind with
    | «variable» =>
      cases List.mem_singleton.1 isLetter
      rfl
    | function =>
      cases List.mem_singleton.1 isLetter
      rfl
  · exact digit listed

end SymbolKind

namespace ScopeTree

/-- What happens when a name at `pos` is to be declared: nothing, or it gets a declaration with the
next unique name of its kind. -/
def Step (tree : ScopeTree) (pos : Position) (tree' : ScopeTree) : Prop :=
  tree'.declarations = tree.declarations ∨
    ∃ d : Declaration, d.symbol.pos = pos ∧
      d.symbol.unique = d.symbol.kind.numberedName (tree.count d.symbol.kind + 1) ∧
      tree'.declarations = d :: tree.declarations

/-- Hoisting a function declares at most one symbol, at its name. -/
theorem step_hoist (tree : ScopeTree) (f : Placed FunctionDecl) :
    tree.Step f.value.name.pos (tree.hoist f) := by
  unfold hoist
  dsimp only
  split
  · exact .inl rfl
  · exact .inr ⟨_, rfl, rfl, rfl⟩

/-- Declaring a variable declares at most one symbol, at its name. -/
theorem step_declareVariable (tree : ScopeTree) (scope : Nat) (entry : Name × ValueType) :
    tree.Step entry.1.pos (tree.declareVariable scope entry) := by
  cases fits : tree.variableObjection scope entry.1 with
  | some objection => exact .inl (by rw [declareVariable_of_objection (by simp [fits])])
  | none => exact .inr ⟨tree.newVariable scope entry, rfl, rfl, declarations_declareVariable fits⟩

/-- Steps one after the other, with the places of the names to be declared. -/
inductive Grows : ScopeTree → List Position → ScopeTree → Prop
  | refl (tree : ScopeTree) : Grows tree [] tree
  | step {tree middle final : ScopeTree} {pos : Position} {places : List Position} :
      tree.Step pos middle → Grows middle places final → Grows tree (pos :: places) final

namespace Grows

/-- Trees grow in one go or bit by bit. -/
theorem trans {tree middle final : ScopeTree} {places places' : List Position}
    (first : tree.Grows places middle) (second : middle.Grows places' final) :
    tree.Grows (places ++ places') final := by
  induction first with
  | refl => exact second
  | step step _ ih => exact .step step (ih second)

/-- Hoisting functions declares symbols at their names. -/
theorem foldl_hoist (tree : ScopeTree) (fs : List (Placed FunctionDecl)) :
    tree.Grows (fs.map fun f => f.value.name.pos) (fs.foldl hoist tree) := by
  induction fs generalizing tree with
  | nil => exact .refl tree
  | cons f fs ih => exact .step (step_hoist tree f) (ih _)

/-- Declaring the variables of a scope declares symbols at their names. -/
theorem foldl_declareVariable (tree : ScopeTree) (scope : Nat) (entries : List (Name × ValueType)) :
    tree.Grows (entries.map fun entry => entry.1.pos)
      (entries.foldl (declareVariable · scope) tree) := by
  induction entries generalizing tree with
  | nil => exact .refl tree
  | cons entry entries ih => exact .step (step_declareVariable tree scope entry) (ih _)

/-- Declaring the variables of all functions declares symbols at their names. -/
theorem foldl_declareVariables (tree : ScopeTree) (fs : List (Placed FunctionDecl)) :
    tree.Grows (fs.flatMap fun f => f.value.entries.map fun entry => entry.1.pos)
      (fs.foldl declareVariables tree) := by
  induction fs generalizing tree with
  | nil => exact .refl tree
  | cons f fs ih => exact (foldl_declareVariable tree f.own f.value.entries).trans (ih _)

/-- Declarations are kept. -/
theorem subset {tree final : ScopeTree} {places : List Position} (grows : tree.Grows places final) :
    tree.declarations ⊆ final.declarations := by
  induction grows with
  | refl => exact fun _ => id
  | step step _ ih =>
    rcases step with same | ⟨d, _, _, declared⟩
    · rwa [same] at ih
    · rw [declared] at ih
      exact List.Subset.trans (List.subset_cons_self d _) ih

/-- Declarations stand at the places of the run, oldest first. -/
theorem places_sublist {tree final : ScopeTree} {places : List Position}
    (grows : tree.Grows places final) :
    (final.declarations.reverse.map fun d => d.symbol.pos).Sublist
      ((tree.declarations.reverse.map fun d => d.symbol.pos) ++ places) := by
  induction grows with
  | refl => simp
  | @step tree middle final pos places step _ ih =>
    rcases step with same | ⟨d, place, _, declared⟩
    · rw [same] at ih
      exact ih.trans ((List.sublist_cons_self pos places).append_left _)
    · simpa [declared, place] using ih

end Grows

/-! ## Unique names determine declarations -/

/-- Unique names are numbered up to the number of declarations of their kind, and none is given
twice. -/
structure Numbered (tree : ScopeTree) : Prop where
  bounded : ∀ d ∈ tree.declarations, ∃ n ≤ tree.count d.symbol.kind,
    d.symbol.unique = d.symbol.kind.numberedName n
  distinct : (tree.declarations.map fun d => d.symbol.unique).Nodup

namespace Numbered

theorem initial : ScopeTree.initial.Numbered :=
  ⟨by simp [ScopeTree.initial], by simp [ScopeTree.initial]⟩

/-- The next symbol takes the next number of its kind. -/
theorem step {tree tree' : ScopeTree} {pos : Position} (numbered : tree.Numbered)
    (step : tree.Step pos tree') : tree'.Numbered := by
  rcases step with same | ⟨d, _, name, declared⟩
  · exact ⟨by simpa [count, same] using numbered.bounded, by simpa [same] using numbered.distinct⟩
  · have counts (kind : SymbolKind) :
        tree'.count kind = tree.count kind + if d.symbol.kind = kind then 1 else 0 := by
      simp [count, declared, List.countP_cons]
    constructor
    · intro e listed
      rw [counts]
      rcases List.mem_cons.1 (declared ▸ listed) with rfl | older
      · exact ⟨_, by simp, name⟩
      · rcases numbered.bounded e older with ⟨n, bound, unique⟩
        exact ⟨n, by omega, unique⟩
    · -- older names of the same kind have numbers up to the count, and the new one lies above it
      rw [declared, List.map_cons, List.nodup_cons]
      refine ⟨fun again => ?_, numbered.distinct⟩
      rcases List.mem_map.1 again with ⟨e, older, same⟩
      rcases numbered.bounded e older with ⟨n, bound, unique⟩
      rcases SymbolKind.numberedName_inj (unique.symm.trans (same.trans name)) with ⟨kind, number⟩
      rw [kind] at bound
      omega

/-- So unique names stay apart while a tree grows. -/
theorem grows {tree final : ScopeTree} {places : List Position} (numbered : tree.Numbered)
    (grows : tree.Grows places final) : final.Numbered := by
  induction grows with
  | refl => exact numbered
  | step step _ ih => exact ih (numbered.step step)

/-- The unique name tells the declaration. -/
theorem eq_of_unique {tree : ScopeTree} (numbered : tree.Numbered) {d e : Declaration}
    (hd : d ∈ tree.declarations) (he : e ∈ tree.declarations)
    (same : d.symbol.unique = e.symbol.unique) : d = e :=
  List.inj_on_of_nodup_map numbered.distinct hd he same

/-- Asking for the unique name of a declaration finds the declaration. -/
theorem byUnique?_eq_some {tree : ScopeTree} (numbered : tree.Numbered) {d : Declaration}
    (member : d ∈ tree.declarations) : tree.byUnique? d.symbol.unique = some d :=
  find?_eq_some_of_nodup numbered.distinct member

end Numbered

end ScopeTree

namespace Program

variable {p : Program}

/-! ## The complete tree -/

theorem grows_withGlobals (p : Program) :
    ScopeTree.initial.Grows ((p.placed.toList.map fun f => f.value.name.pos)
      ++ (p.globals.map VarDecl.entry).map fun entry => entry.1.pos) p.withGlobals :=
  (ScopeTree.Grows.foldl_hoist _ _).trans (ScopeTree.Grows.foldl_declareVariable _ _ _)

theorem grows_scopeTree (p : Program) :
    ScopeTree.initial.Grows (((p.placed.toList.map fun f => f.value.name.pos)
      ++ (p.globals.map VarDecl.entry).map fun entry => entry.1.pos)
      ++ p.placed.toList.flatMap fun f => f.value.entries.map fun entry => entry.1.pos)
      p.scopeTree :=
  p.grows_withGlobals.trans (ScopeTree.Grows.foldl_declareVariables _ _)

theorem numbered_scopeTree (p : Program) : p.scopeTree.Numbered :=
  ScopeTree.Numbered.initial.grows p.grows_scopeTree

/-- Declarations are attempted at the places of the declared names, in another order. -/
theorem places_perm (p : Program) :
    (((p.placed.toList.map fun f => f.value.name.pos)
      ++ (p.globals.map VarDecl.entry).map fun entry => entry.1.pos)
      ++ p.placed.toList.flatMap fun f => f.value.entries.map fun entry => entry.1.pos).Perm
      (p.declaredNames.map Name.pos) := by
  let entryPlaces (f : FunctionDecl) := f.entries.map fun entry => entry.1.pos
  have heads : (p.placed.toList.map fun f => f.value.name.pos) =
      p.functions.toList.map fun f => f.name.pos := by
    rw [← p.functions.map_value_place 0 1, List.map_map]
    rfl
  have bodies : (p.placed.toList.flatMap fun f => f.value.entries.map fun entry => entry.1.pos) =
      p.functions.toList.flatMap entryPlaces := by
    rw [← p.functions.map_value_place 0 1, List.flatMap_map]
    rfl
  have declared : p.declaredNames.map Name.pos =
      ((p.globals.map VarDecl.entry).map fun entry => entry.1.pos)
        ++ p.functions.toList.flatMap fun f => f.name.pos :: entryPlaces f := by
    simp [declaredNames, List.map_flatMap, entryPlaces, Function.comp_def, VarDecl.entry]
  let globals := (p.globals.map VarDecl.entry).map fun entry => entry.1.pos
  let functions := p.functions.toList.map fun f => f.name.pos
  let entries := p.functions.toList.flatMap entryPlaces
  rw [heads, bodies, declared]
  -- the tree takes functions, globals, entries; the text has globals, then function by function
  have front : ((functions ++ globals) ++ entries).Perm (globals ++ (functions ++ entries)) := by
    rw [← List.append_assoc]
    exact List.perm_append_comm.append_right _
  exact front.trans ((List.map_append_flatMap_perm _ _ _).append_left _)

/-- The place tells the declaration, as no two names stand at one place. -/
theorem declaration_eq_of_pos (named : p.WellNamed) {d e : Declaration}
    (hd : d ∈ p.scopeTree.declarations) (he : e ∈ p.scopeTree.declarations)
    (same : d.symbol.pos = e.symbol.pos) : d = e := by
  have apart := (p.places_perm.nodup_iff.2 named.declared_apart).sublist
    p.grows_scopeTree.places_sublist
  exact List.inj_on_of_nodup_map apart (List.mem_reverse.2 hd) (List.mem_reverse.2 he) same

end Program

end SplBasic
