import SplBasic.Compile
import SplBasic.Proofs.RelabelledScopes
import SplBasic.Proofs.Untagged

/-!
# Compiling a relabelled program

Once names are resolved they matter in two ways only. The type checker looks their declarations up,
which gives the same types behind a relabelling. The listing writes their texts, and these are the
unique names `v1`, `f1`, …, which have no mark and so stay as they are.

* `Program.typeProblems_relabel` : a relabelled program has relabelled type problems,
* `Program.basic_relabel` : it has the same listing if its texts stay,
* `compileProgram_relabel` : compiling it ends in the same way.
-/

namespace SplBasic

/-! ## Types and texts -/

section

variable {ρ : Relabelling}

/-- A name is relabelled where the relabelling takes it, and keeps its declared type. -/
theorem Name.moved_relabel (scopes : ScopeTree) (kind : SymbolKind) (n : Name) :
    n.Moved ρ.place ρ.spell scopes (scopes.relabel ρ) kind (n.relabel ρ) where
  pos := n.pos_relabel ρ
  source := rfl
  declared := by
    rw [declaredType?, text_relabel, ScopeTree.byUnique?_relabel, Option.filter_map,
      Option.map_map]
    rfl

/-- Relabelling moves places and respells names. -/
theorem Relabelling.change_moves (scopes : ScopeTree) :
    ρ.change.Moves ρ.place ρ.spell scopes (scopes.relabel ρ) where
  word := ρ.pos_token
  onVariable := Name.moved_relabel scopes .variable
  onFunction := Name.moved_relabel scopes .function
  onLiteral l := ρ.pos_token l.token
  literalType _ := rfl

/-- A relabelled program has relabelled type problems, in the same order. -/
theorem Program.typeProblems_relabel (scopes : ScopeTree) (p : Program) :
    (p.relabel ρ).typeProblems (scopes.relabel ρ) =
      (p.typeProblems scopes).map (Located.relabel ρ TypeError.mapNames) :=
  p.typeProblems_map (Relabelling.change_moves scopes)

variable (ρ) in
/-- The relabelling leaves the text of the name as it is. -/
def Relabelling.Keeps (n : Name) : Prop :=
  ρ.spell n.text = n.text

/-- A relabelling that leaves all texts as they are does not change the listing. -/
theorem Program.basic_relabel {p : Program} (keeps : ∀ n ∈ p.names, ρ.Keeps n.name) :
    (p.relabel ρ).basic = p.basic := by
  have named {part : Part} {use : NameUse} (listed : part ∈ p.parts)
      (isUse : part.use? = some use) : ρ.Keeps use.kinded.name := by
    apply keeps
    rw [Program.names_eq]
    exact List.mem_map_of_mem (List.mem_filterMap.2 ⟨part, listed, isUse⟩)
  have parts : ρ.change.Keeps p.parts := by
    intro part listed
    cases part with
    | word t => rfl
    | «variable» n => exact named listed rfl
    | function n => exact named listed rfl
    | literal l => rfl
  exact congrArg (renderLines 0) (listing_map parts)

end

/-! ## Compiling -/

namespace ScopeTree

/-- A used name with a referent has the text of a declaration when it is bound. -/
theorem text_of_referent {tree : ScopeTree} {scope : Nat} {use : NameUse} {d : Declaration}
    (found : tree.referent scope use = some d) :
    (use.mapNames (tree.bindVariable scope) (tree.bindCallee scope)).kinded.name.text =
      d.symbol.unique := by
  cases use with
  | «variable» name =>
    rw [NameUse.mapNames, bindVariable, found]
    rfl
  | callee name =>
    rw [NameUse.mapNames, bindCallee, found]
    rfl

end ScopeTree

/-- The name has a unique name as its text. -/
def Name.Numbered (n : Name) : Prop :=
  ∃ (kind : SymbolKind) (number : Nat), n.text = kind.numberedName number

/-- Unique names have no mark, so they stay. -/
theorem Name.Numbered.keeps {ρ : Relabelling} {n : Name} (numbered : n.Numbered) : ρ.Keeps n := by
  rcases numbered with ⟨kind, number, text⟩
  rw [Relabelling.Keeps, text, ScopeTree.spell_numberedName]

namespace Program

variable {ρ : Relabelling} {p : Program}

/-- A name with the text of a declaration is a unique name. -/
theorem numbered_of_declaration {d : Declaration} (member : d ∈ p.scopeTree.declarations) {n : Name}
    (text : n.text = d.symbol.unique) : n.Numbered := by
  rcases p.numbered_scopeTree.bounded d member with ⟨number, _, unique⟩
  exact ⟨d.symbol.kind, number, text.trans unique⟩

/-- In a well-scoped program every declared name is settled. -/
theorem numbered_declaredNames (clean : p.scopeProblems p.scopeTree = []) :
    ∀ n ∈ (p.bindNames p.scopeTree).declaredNames, n.Numbered := by
  rcases scopeProblems_eq_nil_iff.1 clean with ⟨fit, functions, _⟩
  intro n member
  rcases settles_declared fit functions member with ⟨d, declared, text, _⟩
  exact numbered_of_declaration declared text

/-- In a well-scoped program every used name has a referent. -/
theorem numbered_uses (clean : p.scopeProblems p.scopeTree = []) :
    ∀ r ∈ (p.bindNames p.scopeTree).regions, ∀ use ∈ r.block.commands.uses,
      use.kinded.name.Numbered := by
  rcases scopeProblems_eq_nil_iff.1 clean with ⟨_, _, blocks⟩
  rw [regions_bindNames]
  intro r bound use listed
  rcases List.mem_map.1 bound with ⟨r, isRegion, rfl⟩
  rw [ScopeTree.uses_bindBlock] at listed
  rcases List.mem_map.1 listed with ⟨use, isUse, rfl⟩
  have isSome := ScopeTree.isSome_referent_of_blockProblems (blocks r isRegion) isUse
  rcases Option.isSome_iff_exists.1 isSome with ⟨d, found⟩
  exact numbered_of_declaration (ScopeTree.mem_of_referent found) (ScopeTree.text_of_referent found)

/-- In a well-scoped program all texts are unique names, so the listing stays. -/
theorem basic_bindNames_relabel (clean : p.scopeProblems p.scopeTree = []) :
    ((p.bindNames p.scopeTree).relabel ρ).basic = (p.bindNames p.scopeTree).basic := by
  apply basic_relabel
  intro n member
  rcases declared_or_used member with declared | ⟨r, isRegion, use, used, rfl⟩
  · exact (numbered_declaredNames clean _ declared).keeps
  · exact (numbered_uses clean r isRegion use used).keeps

end Program

def Problem.mapNames (f : String → String) : Problem → Problem
  | scope error => scope (error.mapNames f)
  | type error => type (error.mapNames f)

/-- Two runs of the compiler end in the same way, with related results. -/
def EndAlike (compilations : Compilation → Compilation → Prop)
    (parseErrors : ParseError → ParseError → Prop) (diagnostics : Diagnostic → Diagnostic → Prop) :
    Except CompileError Compilation → Except CompileError Compilation → Prop
  | .ok c, .ok c' => compilations c c'
  | .error (.parse e), .error (.parse e') => parseErrors e e'
  | .error (.scope ds), .error (.scope ds') => List.Forall₂ diagnostics ds ds'
  | .error (.type ds), .error (.type ds') => List.Forall₂ diagnostics ds ds'
  | _, _ => False

/-- The second diagnostic is the first one under the relabelling. -/
structure Diagnostic.Relabelled (ρ : Relabelling) (d d' : Diagnostic) : Prop where
  problem : d'.problem = d.problem.mapNames ρ.spell
  pos : d'.pos = ρ.place d.pos

section

variable {ρ : Relabelling} {p : Program}

/-- Relabelled problems are shown as relabelled diagnostics, each for its own file. -/
theorem forall₂_diagnostics {α : Type} {mapNames : (String → String) → α → α}
    {problem : α → Problem} (named : ∀ f a, problem (mapNames f a) = (problem a).mapNames f)
    (file file' : String)
    (source source' : SourceText) (problems : List (Located α)) :
    List.Forall₂ (fun d d' : Diagnostic => d.Relabelled ρ d' ∧ d.file = file ∧ d'.file = file')
      (problems.map fun l => .ofProblem file source ⟨problem l.cause, l.pos⟩)
      ((problems.map (Located.relabel ρ mapNames)).map fun l =>
        .ofProblem file' source' ⟨problem l.cause, l.pos⟩) := by
  rw [List.map_map, List.forall₂_map_left_iff, List.forall₂_map_right_iff, List.forall₂_same]
  intro l _
  exact ⟨⟨named ρ.spell l.cause, rfl⟩, rfl, rfl⟩

/-- Problems with scopes end the compilation. -/
theorem compileProgram_of_scope (faulty : (resolve p).problems ≠ []) :
    compileProgram p = .error (.scope (resolve p).diagnostics) := by
  simp [compileProgram, faulty]

/-- So do problems with types. -/
theorem compileProgram_of_type (clean : (resolve p).problems = [])
    (faulty : (typecheck (resolve p).scopes (resolve p).program).problems ≠ []) :
    compileProgram p =
      .error (.type (typecheck (resolve p).scopes (resolve p).program).diagnostics) := by
  simp [compileProgram, clean, Typing.ok, faulty]

/-- Without problems, the listing is given. -/
theorem compileProgram_of_clean (clean : (resolve p).problems = [])
    (typed : (typecheck (resolve p).scopes (resolve p).program).problems = []) :
    compileProgram p = .ok ⟨(resolve p).program.annotate (resolve p).scopes, (resolve p).scopes,
      ((resolve p).program.annotate (resolve p).scopes).basic⟩ := by
  simp only [compileProgram, clean, Typing.ok, typed, List.isEmpty_nil, if_true]
  rfl

/-- What is compiled has no problems of either kind. -/
theorem compileProgram_eq_ok {c : Compilation} (compiled : compileProgram p = .ok c) :
    (resolve p).problems = [] ∧
    (typecheck (resolve p).scopes (resolve p).program).problems = [] ∧
    c = ⟨(resolve p).program.annotate (resolve p).scopes, (resolve p).scopes,
      ((resolve p).program.annotate (resolve p).scopes).basic⟩ := by
  by_cases clean : (resolve p).problems = []
  · by_cases typed : (typecheck (resolve p).scopes (resolve p).program).problems = []
    · rw [compileProgram_of_clean clean typed] at compiled
      cases compiled
      exact ⟨clean, typed, rfl⟩
    · rw [compileProgram_of_type clean typed] at compiled
      cases compiled
  · rw [compileProgram_of_scope clean] at compiled
    cases compiled

/-- Compiling a relabelled program ends in the same way, whatever text it is said to be from. -/
theorem compileProgram_relabel_source (suits : ρ.Suits p) (source : SourceText) :
    EndAlike (fun c c' => c'.basic = c.basic ∧ c'.scopes = c.scopes.relabel ρ) (fun _ _ => False)
      (fun d d' => d.Relabelled ρ d' ∧ d.file = p.file ∧ d'.file = (p.relabel ρ).file)
      (compileProgram p) (compileProgram { p.relabel ρ with source := source }) := by
  let q := { p.relabel ρ with source := source }
  have resolved : resolve (p.relabel ρ) = (resolve p).relabel ρ := resolve_relabel suits
  -- names and types are judged by everything but the text
  have scopes : (resolve q).scopes = (resolve p).scopes.relabel ρ :=
    congrArg Resolution.scopes resolved
  have program : (resolve q).program = { (resolve p).program.relabel ρ with source := source } :=
    congrArg (fun r : Resolution => { r.program with source := source }) resolved
  have problems : (resolve q).problems =
      (resolve p).problems.map (Located.relabel ρ ScopeError.mapNames) :=
    congrArg Resolution.problems resolved
  have types : (typecheck (resolve q).scopes (resolve q).program).problems =
      (typecheck (resolve p).scopes (resolve p).program).problems.map
        (Located.relabel ρ TypeError.mapNames) := by
    rw [scopes, program]
    exact (resolve p).program.typeProblems_relabel (resolve p).scopes
  -- problems correspond one for one, so on both sides the same stage finds some, or none does
  by_cases clean : (resolve p).problems = []
  · have clean' : (resolve q).problems = [] := by rw [problems, clean, List.map_nil]
    by_cases typed : (typecheck (resolve p).scopes (resolve p).program).problems = []
    · rw [compileProgram_of_clean clean typed,
        compileProgram_of_clean clean' (by rw [types, typed, List.map_nil])]
      refine ⟨?_, scopes⟩
      calc ((resolve q).program.annotate (resolve q).scopes).basic
          = (resolve q).program.basic := Program.basic_annotate _ _
        _ = ((resolve p).program.relabel ρ).basic := by rw [program]; rfl
        _ = (resolve p).program.basic := Program.basic_bindNames_relabel clean
        _ = ((resolve p).program.annotate (resolve p).scopes).basic :=
          (Program.basic_annotate _ _).symm
    · rw [compileProgram_of_type clean typed,
        compileProgram_of_type clean' (by rwa [types, Ne, List.map_eq_nil_iff])]
      simp only [EndAlike, Typing.diagnostics, types]
      exact forall₂_diagnostics (fun _ _ => rfl) _ _ _ _ _
  · have faulty : (resolve q).problems ≠ [] := by rwa [problems, Ne, List.map_eq_nil_iff]
    rw [compileProgram_of_scope clean, compileProgram_of_scope faulty]
    simp only [EndAlike, Resolution.diagnostics, problems]
    exact forall₂_diagnostics (fun _ _ => rfl) _ _ _ _ _

/-- A relabelled program is compiled alike. -/
theorem compileProgram_relabel (suits : ρ.Suits p) :
    EndAlike (fun c c' => c'.basic = c.basic ∧ c'.scopes = c.scopes.relabel ρ) (fun _ _ => False)
      (fun d d' => d.Relabelled ρ d' ∧ d.file = p.file ∧ d'.file = (p.relabel ρ).file)
      (compileProgram p) (compileProgram (p.relabel ρ)) :=
  compileProgram_relabel_source suits ⟨p.source.tokens.map ρ.token⟩

end

end SplBasic
