import Mathlib.Data.List.TakeWhile
import SplBasic.Proofs.DistinctFunctions

/-!
# Layout does not matter

Files, places, trivia and the spellings of words and signs tell nothing. If the tokens that the
grammar sees agree in their kinds, and names and literals in their lexemes too, compiling ends in
the same way: with the same listing and the same symbols, with the same problems, or with the same
expectation.

Places are compared in one case only: a function is recognised by the place of its name. So function
names that stand apart from each other have to be asked for on both sides.

The two lists are not compared directly. `numbered` puts the tokens of the first list at places that
are pairwise different, and each of the two lists is a relabelling of that one
(`Relabelling.layout`).

* `compileTokens_numbered` : compiling tokens and compiling numbered ones,
* `compileTokens_layout` : compiling two lists that tell the same.
-/

namespace SplBasic

/-! ## Tokens that tell the same -/

/-- The tokens have one kind, and one lexeme if that is a kind of names or of literals. -/
structure Token.TellsSame (t t' : Token) : Prop where
  kind : t'.kind = t.kind
  lexeme : t.kind ∈ [TokenKind.varName, .funName, .numLit, .textLit] → t'.lexeme = t.lexeme

/-- No two function names stand at one place. -/
def FunctionNamesApart (ts : List Token) : Prop :=
  ts.Pairwise fun t t' => t.kind = .funName → t'.kind = .funName → t.pos ≠ t'.pos

namespace ScopeTree

/-- The tree with the places of its declarations forgotten. -/
def withoutPlaces (tree : ScopeTree) : ScopeTree :=
  { tree with
    declarations := tree.declarations.map fun d =>
      { d with symbol := { d.symbol with pos := .start } } }

end ScopeTree

/-! ## Numbered tokens -/

/-- The tokens at places that tell their positions in the list. -/
def numbered (ts : List Token) : List Token :=
  ts.mapIdx fun i t => { t with pos := ⟨i, 0⟩ }

/-- All tokens are such as the grammar sees. -/
theorem significant_eq_self {ts : List Token} (seen : ∀ t ∈ ts, t.kind ≠ .trivia ∧ t.kind ≠ .eof) :
    significant ts = ts := by
  have noTrivia : (ts.filter fun t => t.kind ≠ .trivia) = ts :=
    List.filter_eq_self.2 fun t member => decide_eq_true (seen t member).1
  rw [significant, noTrivia]
  exact List.takeWhile_eq_self_iff.2 fun t member => decide_eq_true (seen t member).2

/-- Trivia and end marks are not significant. -/
theorem kind_of_significant {tokens : List Token} {t : Token} (member : t ∈ significant tokens) :
    t.kind ≠ .trivia ∧ t.kind ≠ .eof := by
  refine ⟨?_, significant_kind member⟩
  have filtered := (List.takeWhile_sublist _).subset member
  simpa using (List.mem_filter.1 filtered).2

/-- Numbered tokens are all significant. -/
theorem significant_numbered (tokens : List Token) :
    significant (numbered (significant tokens)) = numbered (significant tokens) := by
  apply significant_eq_self
  intro t member
  rcases List.mem_mapIdx.1 member with ⟨i, inside, rfl⟩
  have kinds := kind_of_significant (List.getElem_mem inside)
  exact kinds

/-! ## Laying numbered tokens out -/

theorem respell_id (spelling : String) : respell id spelling = spelling := by
  rcases marked_or_unmarked spelling with ⟨kind, bare, rfl⟩ | unmarked
  · rw [respell_mark, id]
  · rw [unmarked.respell_eq]

namespace Relabelling

/-- Moves numbered tokens to where the tokens of a list stand. What does not tell anything is taken
from those tokens too. -/
def layout (ts : List Token) : Relabelling where
  bare := id
  -- the line of a numbered token is its index in the list
  place pos := (ts[pos.line]?).elim pos Token.pos
  token t := (ts[t.pos.line]?).elim t fun u =>
    { u with
      -- names and literals keep their lexemes; other lexemes play no role in compiling
      kind := t.kind
      lexeme := if t.kind ∈ [TokenKind.varName, .funName, .numLit, .textLit] then t.lexeme
        else u.lexeme }
  bare_injective := Function.injective_id
  bare_reserved := refl.bare_reserved
  kind_token := by
    intro t
    cases ts[t.pos.line]? with
    | none => rfl
    | some u => rfl
  pos_token := by
    intro t
    cases ts[t.pos.line]? with
    | none => rfl
    | some u => rfl
  lexeme_name := by
    intro t isName
    have told : t.kind ∈ [TokenKind.varName, .funName, .numLit, .textLit] := by
      rcases Bool.or_eq_true_iff.1 isName with kind | kind
      · simp [of_decide_eq_true kind]
      · simp [of_decide_eq_true kind]
    rw [respell_id]
    cases ts[t.pos.line]? with
    | none => rfl
    | some u => exact if_pos told
  lexeme_literal := by
    intro t isLiteral
    have told : t.kind ∈ [TokenKind.varName, .funName, .numLit, .textLit] := by
      rcases isLiteral with kind | kind
      · simp [kind]
      · simp [kind]
    cases ts[t.pos.line]? with
    | none => rfl
    | some u => exact if_pos told

@[simp] theorem spell_layout (ts : List Token) (s : String) : (layout ts).spell s = s :=
  respell_id s

/-- The token with number `i` is put back where it stood. -/
theorem place_layout {ts : List Token} {i : Nat} (inside : i < ts.length) :
    (layout ts).place ⟨i, 0⟩ = ts[i].pos := by
  simp [layout, inside]

/-- Numbered tokens are laid out as any list that tells the same. -/
theorem map_layout_numbered {ts ts' : List Token} (same : List.Forall₂ Token.TellsSame ts ts') :
    (numbered ts).map (layout ts').token = ts' := by
  rcases List.forall₂_iff_get.1 same with ⟨length, each⟩
  apply List.ext_getElem
  · simp [numbered, length]
  · intro i inside inside'
    have alike := each i (by simpa [numbered] using inside) inside'
    simp only [List.get_eq_getElem] at alike
    rw [List.getElem_map]
    simp only [numbered, List.getElem_mapIdx, layout, List.getElem?_eq_getElem inside',
      Option.elim_some, ← alike.kind]
    -- names and literals keep their lexemes, and these are the same on both sides
    split
    · rename_i told
      rw [← alike.lexeme (alike.kind ▸ told)]
    · rfl

end Relabelling

/-! ## Programs of numbered tokens -/

/-- The place of a function name tells the token. -/
theorem FunctionNamesApart.index_eq {ts : List Token} (apart : FunctionNamesApart ts) {i j : Nat}
    {inside : i < ts.length} {inside' : j < ts.length} (kind : ts[i].kind = .funName)
    (kind' : ts[j].kind = .funName) (same : ts[i].pos = ts[j].pos) : i = j := by
  have pairs := List.pairwise_iff_getElem.1 apart
  rcases Nat.lt_trichotomy i j with before | same' | behind
  · exact absurd same (pairs i j inside inside' before kind kind')
  · exact same'
  · exact absurd same.symm (pairs j i inside' inside behind kind' kind)

section

variable {ts ts' : List Token} {p : Program}

/-- The name of a function in a program of numbered tokens tells the position of a function name,
also in any list that tells the same. -/
theorem exists_index_of_function (same : List.Forall₂ Token.TellsSame ts ts')
    (seen : significant (numbered ts) = numbered ts) (parsed : parse (numbered ts) = .ok p)
    {f : Placed FunctionDecl} (isPlaced : f ∈ p.placed.toList) :
    ∃ (i : Nat) (inside : i < ts'.length), ts'[i].kind = .funName ∧ f.value.name.pos = ⟨i, 0⟩ := by
  have listed : (⟨.function, f.value.name⟩ : KindedName).entry ∈
      nameTokens (significant (numbered ts)) := by
    rw [← (spelt_of_parse parsed).names]
    exact List.mem_map_of_mem (Program.mem_names_of_function isPlaced List.mem_cons_self)
  rw [seen] at listed
  rcases List.mem_map.1 listed with ⟨t, isName, entry⟩
  have kind : t.kind = .funName := congrArg Prod.fst entry
  have token : t = f.value.name.token := congrArg Prod.snd entry
  -- a numbered token stands at its index
  rcases List.mem_mapIdx.1 (List.mem_filter.1 isName).1 with ⟨i, inside, rfl⟩
  rcases List.forall₂_iff_get.1 same with ⟨length, each⟩
  have inside' : i < ts'.length := length ▸ inside
  refine ⟨i, inside', (each i inside inside').kind.trans kind, ?_⟩
  rw [Name.pos, ← token]

/-- Moving the tokens keeps functions apart that stand apart where they are moved to. -/
theorem suits_layout (same : List.Forall₂ Token.TellsSame ts ts') (apart : FunctionNamesApart ts')
    (seen : significant (numbered ts) = numbered ts) (parsed : parse (numbered ts) = .ok p) :
    (Relabelling.layout ts').Suits p where
  fits := by
    intro name _ kind
    rw [Relabelling.spell_layout, Relabelling.spell_layout]
  apart := by
    intro f isPlaced d found samePlace
    rcases Program.exists_region_around isPlaced with ⟨r, member, inside⟩
    have listed : f.value.header ∈ r.frame.functionDecls :=
      (Program.mem_functionDecls_iff member).2 ⟨f, isPlaced, inside.symm, rfl⟩
    rcases Program.exists_first member listed with ⟨first, e, isFirst, found', place⟩
    rw [inside] at found'
    cases found.symm.trans found'
    -- the declaration stands where some function does, and both places tell positions in the list
    rcases (Program.mem_functionDecls_iff member).1 (List.mem_of_find?_eq_some isFirst) with
      ⟨g, isPlaced', _, rfl⟩
    rcases exists_index_of_function same seen parsed isPlaced with ⟨i, inList, kind, pos⟩
    rcases exists_index_of_function same seen parsed isPlaced' with ⟨j, inList', kind', pos'⟩
    have here : d.symbol.pos = ⟨j, 0⟩ := place.trans pos'
    rw [here, pos, Relabelling.place_layout inList', Relabelling.place_layout inList] at samePlace
    rw [here, pos, apart.index_eq kind' kind samePlace]

end

/-! ## Compiling -/

theorem ScopeError.mapNames_id (e : ScopeError) : e.mapNames id = e := by
  cases e <;> rfl

theorem Problem.mapNames_id (problem : Problem) : problem.mapNames id = problem := by
  cases problem with
  | scope error => exact congrArg Problem.scope error.mapNames_id
  | type error => exact congrArg Problem.type error.mapNames_id

/-- Layouts move places only. -/
theorem ScopeTree.withoutPlaces_relabel_layout (ts : List Token) (tree : ScopeTree) :
    (tree.relabel (Relabelling.layout ts)).withoutPlaces = tree.withoutPlaces := by
  have scopes : tree.scopes.map (Scope.relabel (Relabelling.layout ts)) = tree.scopes := by
    conv_rhs => rw [← List.map_id tree.scopes]
    apply List.map_congr_left
    intro s _
    simp [Scope.relabel]
  rw [withoutPlaces, relabel, scopes, List.map_map, withoutPlaces]
  simp [Function.comp_def, Declaration.relabel, Symbol.relabel]

/-- Compiling tokens ends as compiling the numbered tokens of any list that tells the same. -/
theorem compileTokens_numbered {ts tokens : List Token}
    (same : List.Forall₂ Token.TellsSame ts (significant tokens))
    (apart : FunctionNamesApart (significant tokens))
    (seen : significant (numbered ts) = numbered ts) :
    EndAlike (fun c c' => c'.basic = c.basic ∧ c'.scopes.withoutPlaces = c.scopes.withoutPlaces)
      (fun e e' => e'.expected = e.expected) (fun d d' => d'.problem = d.problem)
      (compileTokens (numbered ts)) (compileTokens tokens) := by
  -- the given tokens are a relabelling of the numbered ones that moves places only
  let ρ := Relabelling.layout (significant tokens)
  have mapped : significant tokens = (significant (numbered ts)).map ρ.token := by
    rw [seen]
    exact (Relabelling.map_layout_numbered same).symm
  have unspelt : ρ.spell = id := funext (Relabelling.spell_layout _)
  cases parsed : parse (numbered ts) with
  | ok p =>
    have suits : ρ.Suits p := suits_layout same apart seen parsed
    rw [compileTokens_of_ok parsed, compileTokens_of_ok (parse_relabel_ok mapped parsed)]
    refine (compileProgram_relabel_source suits ⟨tokens⟩).mono ?_ ?_ ?_
    · rintro c c' ⟨basic, scopes⟩
      refine ⟨basic, ?_⟩
      rw [scopes, ScopeTree.withoutPlaces_relabel_layout]
    · exact fun e e' never => never.elim
    · rintro d d' ⟨⟨problem, _⟩, _⟩
      rw [problem, unspelt, Problem.mapNames_id]
  | error e =>
    rcases parse_relabel_error mapped parsed with ⟨e', parsed', expected, _⟩
    rw [compileTokens_of_error parsed, compileTokens_of_error parsed']
    exact expected

/-- Two relations to one list give one between the others. -/
theorem forall₂_through {α β γ : Type} {R : α → β → Prop} {S : α → γ → Prop} {xs : List α}
    {ys : List β} {zs : List γ} (first : List.Forall₂ R xs ys) (second : List.Forall₂ S xs zs) :
    List.Forall₂ (fun y z => ∃ x, R x y ∧ S x z) ys zs := by
  induction first generalizing zs with
  | nil =>
    cases second
    exact .nil
  | cons related _ ih =>
    cases second with
    | cons related' rest' => exact .cons ⟨_, related, related'⟩ (ih rest')

/-- Two runs that each end as a third one end alike. -/
theorem EndAlike.through {compilations compilations' : Compilation → Compilation → Prop}
    {parseErrors parseErrors' : ParseError → ParseError → Prop}
    {diagnostics diagnostics' : Diagnostic → Diagnostic → Prop}
    {result result' result'' : Except CompileError Compilation}
    (first : EndAlike compilations parseErrors diagnostics result result')
    (second : EndAlike compilations' parseErrors' diagnostics' result result'') :
    EndAlike (fun c' c'' => ∃ c, compilations c c' ∧ compilations' c c'')
      (fun e' e'' => ∃ e, parseErrors e e' ∧ parseErrors' e e'')
      (fun d' d'' => ∃ d, diagnostics d d' ∧ diagnostics' d d'') result' result'' := by
  -- how the third run ends tells how both others do
  unfold EndAlike at first
  split at first
  · cases result'' with
    | ok c'' => exact ⟨_, first, second⟩
    | error e => exact second.elim
  · cases result'' with
    | ok c'' => exact second.elim
    | error e =>
      cases e with
      | parse e'' => exact ⟨_, first, second⟩
      | _ => exact second.elim
  · cases result'' with
    | ok c'' => exact second.elim
    | error e =>
      cases e with
      | scope ds'' => exact forall₂_through first second
      | _ => exact second.elim
  · cases result'' with
    | ok c'' => exact second.elim
    | error e =>
      cases e with
      | type ds'' => exact forall₂_through first second
      | _ => exact second.elim
  · exact first.elim

/-- A run that ends like a successful one is successful. -/
theorem EndAlike.exists_ok {compilations : Compilation → Compilation → Prop}
    {parseErrors : ParseError → ParseError → Prop} {diagnostics : Diagnostic → Diagnostic → Prop}
    {result result' : Except CompileError Compilation}
    (alike : EndAlike compilations parseErrors diagnostics result result')
    (isOk : result.toOption.isSome = true) :
    ∃ c c', result = .ok c ∧ result' = .ok c' ∧ compilations c c' := by
  cases result with
  | error e => cases isOk
  | ok c =>
    cases result' with
    | error e => exact alike.elim
    | ok c' => exact ⟨c, c', rfl, rfl, alike⟩

/-- Tokens that tell the same, with function names at different places in each list, are compiled
alike: to the same listing and the same symbols up to their places, with the same problems in the
same order, or with the same expectation. -/
theorem compileTokens_layout {tokens tokens' : List Token}
    (same : List.Forall₂ Token.TellsSame (seenTokens tokens) (seenTokens tokens'))
    (apart : FunctionNamesApart (seenTokens tokens))
    (apart' : FunctionNamesApart (seenTokens tokens')) :
    EndAlike (fun c c' => c'.basic = c.basic ∧ c'.scopes.withoutPlaces = c.scopes.withoutPlaces)
      (fun e e' => e'.expected = e.expected) (fun d d' => d'.problem = d.problem)
      (compileTokens tokens) (compileTokens tokens') := by
  rw [← significant_eq_seenTokens] at apart apart'
  rw [← significant_eq_seenTokens, ← significant_eq_seenTokens] at same
  have refl : List.Forall₂ Token.TellsSame (significant tokens) (significant tokens) :=
    List.forall₂_same.2 fun t _ => ⟨rfl, fun _ => rfl⟩
  -- both lists are compared to the numbered tokens of the first one
  have seen := significant_numbered tokens
  refine ((compileTokens_numbered refl apart seen).through
    (compileTokens_numbered same apart' seen)).mono ?_ ?_ ?_
  · rintro c c' ⟨c₀, ⟨basic, scopes⟩, basic', scopes'⟩
    exact ⟨basic'.trans basic.symm, scopes'.trans scopes.symm⟩
  · rintro e e' ⟨e₀, expected, expected'⟩
    exact expected'.trans expected.symm
  · rintro d d' ⟨d₀, problem, problem'⟩
    exact problem'.trans problem.symm

/-- Two functions, each token on a line of its own. -/
@[irreducible]
def columnTokens : List Token :=
  numbered ((emptyFunctions ["F_f", "F_g"]).map fun (kind, lexeme) =>
    ⟨kind, "t.spl", .start, lexeme⟩)

/-- The token on line 1 of another file. Only names and literals keep their lexemes. -/
def Token.inRow (t : Token) : Token :=
  ⟨t.kind, "u.spl", ⟨1, 10 * t.pos.line⟩,
    if t.kind ∈ [TokenKind.varName, .funName, .numLit, .textLit] then t.lexeme else "word"⟩

/-- The two functions on one line, with trivia in between. -/
@[irreducible]
def rowTokens : List Token :=
  columnTokens.flatMap fun t => [⟨.trivia, "u.spl", .start, " "⟩, t.inRow]

/-- The functions are compiled alike in both layouts. -/
theorem compileTokens_layout_row :
    FunctionNamesApart (seenTokens columnTokens) ∧ FunctionNamesApart (seenTokens rowTokens) ∧
    ∃ c c', compileTokens columnTokens = .ok c ∧ compileTokens rowTokens = .ok c' ∧
      c'.basic = c.basic ∧ c'.scopes.withoutPlaces = c.scopes.withoutPlaces := by
  have row : seenTokens rowTokens = (seenTokens columnTokens).map Token.inRow := by
    decide +kernel
  have same : List.Forall₂ Token.TellsSame (seenTokens columnTokens) (seenTokens rowTokens) := by
    rw [row, List.forall₂_map_right_iff, List.forall₂_same]
    exact fun t _ => ⟨rfl, fun told => if_pos told⟩
  have apart : FunctionNamesApart (seenTokens columnTokens) := by
    unfold FunctionNamesApart
    decide +kernel
  have apart' : FunctionNamesApart (seenTokens rowTokens) := by
    unfold FunctionNamesApart
    decide +kernel
  have isOk : (compileTokens columnTokens).toOption.isSome = true := by decide +kernel
  exact ⟨apart, apart', (compileTokens_layout same apart apart').exists_ok isOk⟩

end SplBasic
