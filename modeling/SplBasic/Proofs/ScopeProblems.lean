import SplBasic.Proofs.Renaming

/-!
# What scope problems are about

A problem with a name is about a declared variable, about a declared function or about a used name,
and its cause tells which. So the problems of a program can be told apart again once they are mixed
in source order:

* `Program.problemsAbout_variable` : those of declared variables,
* `Program.problemsAbout_use` : those of used names.
-/

namespace SplBasic

namespace ScopeError

/-- What a problem with a name can be about. -/
inductive Subject
  | variableDecl | functionDecl | use
  deriving DecidableEq, Repr

def subject : ScopeError → Subject
  | variableRedeclared _ => .variableDecl
  | reservedVariableName _ => .variableDecl
  | variableClashesWithFunction _ _ => .variableDecl
  | functionRedeclared _ => .functionDecl
  | reservedFunctionName _ => .functionDecl
  | functionClashesWithVariable _ _ => .functionDecl
  | functionNamedAfterParent _ => .functionDecl
  | undeclaredVariable _ => .use
  | undeclaredFunction _ => .use
  | recursiveMain => .use

end ScopeError

def problemsAbout (subject : ScopeError.Subject) (problems : List (Located ScopeError)) :
    List (Located ScopeError) :=
  problems.filter fun l => l.cause.subject = subject

@[simp] theorem problemsAbout_append (subject : ScopeError.Subject)
    (first second : List (Located ScopeError)) :
    problemsAbout subject (first ++ second) =
      problemsAbout subject first ++ problemsAbout subject second :=
  List.filter_append first second

/-- If all problems are about one subject, one gets all of them or none. -/
theorem problemsAbout_of_forall {subject : ScopeError.Subject}
    {problems : List (Located ScopeError)}
    (same : ∀ l ∈ problems, l.cause.subject = subject) (asked : ScopeError.Subject) :
    problemsAbout asked problems = if asked = subject then problems else [] := by
  by_cases here : asked = subject
  · rw [if_pos here]
    exact List.filter_eq_self.2 fun l listed => by simp [same l listed, here]
  · rw [if_neg here]
    exact List.filter_eq_nil_iff.2 fun l listed => by simp [same l listed, Ne.symm here]

namespace ScopeTree

variable (tree : ScopeTree)

/-- Objections to variables are about their declarations. -/
theorem subject_of_variableObjection {scope : Nat} {name : Name} {e : ScopeError}
    (objection : tree.variableObjection scope name = some e) : e.subject = .variableDecl := by
  unfold variableObjection at objection
  split at objection
  · cases objection
    rfl
  · split at objection
    · cases objection
      rfl
    · rcases Option.map_eq_some_iff.1 objection with ⟨d, _, rfl⟩
      rfl

/-- Objections to functions are about their declarations. -/
theorem subject_of_functionObjection {outer : Nat} {name : Name} {e : ScopeError}
    (objection : tree.functionObjection outer name = some e) : e.subject = .functionDecl := by
  unfold functionObjection at objection
  split at objection
  · cases objection
    rfl
  · split at objection
    · cases objection
      rfl
    · split at objection
      · cases objection
        rfl
      · split at objection
        · cases objection
          rfl
        · cases objection

/-- Objections to uses are about uses. -/
theorem subject_of_useObjection {scope : Nat} {use : NameUse} {l : Located ScopeError}
    (objection : tree.useObjection scope use = some l) : l.cause.subject = .use := by
  unfold useObjection at objection
  split at objection
  · cases objection
  · cases objection
    rfl
  · split at objection
    · cases objection
      rfl
    · cases objection
      rfl

/-- So problems of variables are all of one subject. -/
theorem problemsAbout_variableProblems (asked : ScopeError.Subject) (scope : Nat)
    (entries : List (Name × ValueType)) :
    problemsAbout asked (tree.variableProblems scope entries) =
      if asked = .variableDecl then tree.variableProblems scope entries else [] := by
  refine problemsAbout_of_forall (fun l listed => ?_) asked
  rcases List.mem_filterMap.1 listed with ⟨site, _, objected⟩
  rcases Option.map_eq_some_iff.1 objected with ⟨e, objection, rfl⟩
  exact subject_of_variableObjection _ objection

/-- So are problems of functions. -/
theorem problemsAbout_functionObjection (asked : ScopeError.Subject) (outer : Nat) (name : Name) :
    problemsAbout asked ((tree.functionObjection outer name).map (Located.mk · name.pos)).toList =
      if asked = .functionDecl then
        ((tree.functionObjection outer name).map (Located.mk · name.pos)).toList
      else [] := by
  refine problemsAbout_of_forall (fun l listed => ?_) asked
  rcases Option.map_eq_some_iff.1 (Option.mem_toList.1 listed) with ⟨e, objection, rfl⟩
  exact tree.subject_of_functionObjection objection

/-- So are problems of blocks. -/
theorem problemsAbout_blockProblems (asked : ScopeError.Subject) (scope : Nat) (block : Block) :
    problemsAbout asked (tree.blockProblems scope block) =
      if asked = .use then tree.blockProblems scope block else [] := by
  refine problemsAbout_of_forall (fun l listed => ?_) asked
  rcases List.mem_filterMap.1 listed with ⟨use, _, objection⟩
  exact tree.subject_of_useObjection objection

end ScopeTree

namespace Program

variable (tree : ScopeTree) (p : Program)

/-- Each subject picks its parts of the problems. -/
theorem problemsAbout_scopeProblems (asked : ScopeError.Subject) :
    problemsAbout asked (p.scopeProblems tree) =
      problemsAbout asked
          (p.hoisted.variableProblems ScopeTree.global (p.globals.map VarDecl.entry))
        ++ problemsAbout asked (tree.blockProblems ScopeTree.global p.block)
        ++ p.sites.toList.flatMap fun site =>
          problemsAbout asked (tree.declProblems site.1 site.2) := by
  rw [scopeProblems, problemsAbout_append, problemsAbout_append]
  exact congrArg _ (List.filter_flatMap ..)

/-- Variables are declared scope by scope. -/
theorem problemsAbout_variable :
    problemsAbout .variableDecl (p.scopeProblems tree) =
      p.hoisted.variableProblems ScopeTree.global (p.globals.map VarDecl.entry)
        ++ p.sites.toList.flatMap fun site =>
          site.1.variableProblems site.2.own site.2.value.entries := by
  simp [problemsAbout_scopeProblems, ScopeTree.declProblems,
    ScopeTree.problemsAbout_variableProblems, ScopeTree.problemsAbout_functionObjection,
    ScopeTree.problemsAbout_blockProblems]

/-- Used names are resolved block by block, in source order. -/
theorem problemsAbout_use :
    problemsAbout .use (p.scopeProblems tree) = tree.blockProblems ScopeTree.global p.block
      ++ p.placed.toList.flatMap fun f => tree.blockProblems f.own f.value.body := by
  rw [p.placed_eq_sites, Forest.toList_map, List.flatMap_map]
  simp [problemsAbout_scopeProblems, ScopeTree.declProblems,
    ScopeTree.problemsAbout_variableProblems, ScopeTree.problemsAbout_functionObjection,
    ScopeTree.problemsAbout_blockProblems]

end Program

end SplBasic
