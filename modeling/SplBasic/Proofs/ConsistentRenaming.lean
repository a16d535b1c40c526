import Mathlib.Logic.Equiv.Basic
import SplBasic.Proofs.ParserExactness
import SplBasic.Proofs.RelabelledCompilation

/-!
# Consistent renaming

Which names a program uses does not matter. If bare names are exchanged one for one and reserved
words are left alone, compiling ends in the same way: with the same listing, or with the same
problems at the same places, told with the new names. Parse errors expect the same at the same place
too, with one exception: if the tokens end too early without an end mark, the error stands right
behind the last token, and moves with the length of that token.

* `compileTokens_rename` : compiling renamed tokens,
* `parse_error_moves_behind_renamed_name` : the exception.
-/

namespace SplBasic

/-! ## Renamed tokens -/

namespace Token

/-- A name with another bare name behind its mark. Other tokens stay as they are. -/
def rename (r : String → String) (t : Token) : Token :=
  if t.isName then { t with lexeme := respell r t.lexeme } else t

variable (r : String → String) (t : Token)

@[simp] theorem kind_rename : (t.rename r).kind = t.kind := by
  unfold rename
  split
  · rfl
  · rfl

@[simp] theorem pos_rename : (t.rename r).pos = t.pos := by
  unfold rename
  split
  · rfl
  · rfl

@[simp] theorem file_rename : (t.rename r).file = t.file := by
  unfold rename
  split
  · rfl
  · rfl

end Token

namespace Relabelling

/-- A renaming of bare names, with all places as they are. -/
def ofRenaming (r : String → String) (injective : Function.Injective r)
    (reserved : ∀ word, IsReservedWord word → r word = word) : Relabelling where
  bare := r
  place := id
  token := Token.rename r
  bare_injective := injective
  bare_reserved := by
    intro word isWord
    apply reserved
    by_contra free
    rw [(isReserved_eq_false_iff word).2 free] at isWord
    cases isWord
  kind_token := Token.kind_rename r
  pos_token := Token.pos_rename r
  lexeme_name := by
    intro t isName
    rw [Token.rename, if_pos isName]
  lexeme_literal := by
    intro t isLiteral
    -- literals are no names, so renaming does not touch them
    have other : t.isName = false := by
      rcases isLiteral with kind | kind
      · simp [Token.isName, kind]
      · simp [Token.isName, kind]
    rw [Token.rename, if_neg (by simp [other])]

end Relabelling

/-! ## Parsing -/

section

variable {ρ : Relabelling} {tokens : List Token}

/-- Kinds are kept, so the significant tokens are. -/
theorem significant_map (ρ : Relabelling) (tokens : List Token) :
    significant (tokens.map ρ.token) = (significant tokens).map ρ.token := by
  rw [significant, List.filter_map, List.takeWhile_map, significant]
  simp only [Function.comp_def, ρ.kind_token]

/-- Parsing depends on the tokens that the grammar sees only. -/
theorem parse_relabel_ok {tokens' : List Token}
    (mapped : significant tokens' = (significant tokens).map ρ.token) {p : Program}
    (parsed : parse tokens = .ok p) :
    parse tokens' = .ok { p.relabel ρ with source := ⟨tokens'⟩ } := by
  simp only [parse] at parsed
  split at parsed
  · rename_i program rest read
    cases parsed
    rcases (Parser.program_mirrors ⟨tokens⟩ ⟨tokens'⟩ _).ok read with
      ⟨front, _, whole, rfl, mirrored⟩
    have mirror := mirrored (rest.map ρ.token) (Parser.sameNext_map ρ rest)
    rw [← List.map_append, ← whole] at mirror
    simp only [parse, mapped, List.length_map, mirror]
  · cases parsed

/-- Relabelled tokens are parsed to the relabelled program. -/
theorem parse_map_ok {p : Program} (parsed : parse tokens = .ok p) :
    parse (tokens.map ρ.token) = .ok (p.relabel ρ) := by
  have source : p.source = ⟨tokens⟩ := (parse_eq_ok_iff.1 parsed).2
  rw [parse_relabel_ok (significant_map ρ tokens) parsed, Program.relabel, source]

/-- A parse error on relabelled tokens stands at the relabelled token, or at the end. -/
theorem parse_relabel_error {tokens' : List Token}
    (mapped : significant tokens' = (significant tokens).map ρ.token) {e : ParseError}
    (failed : parse tokens = .error e) :
    ∃ e', parse tokens' = .error e' ∧ e'.expected = e.expected ∧
      (e.found ∈ tokens ∧ e'.found = ρ.token e.found ∨
        e.found = endMark tokens ∧ e'.found = endMark tokens') := by
  rcases program_of_parse_error failed with ⟨rest, stopped, found⟩
  rcases (Parser.program_mirrors ⟨tokens⟩ ⟨tokens'⟩ _).error stopped with ⟨front, whole, mirrored⟩
  have mirror := mirrored (rest.map ρ.token) (Parser.sameNext_map ρ rest)
  rw [← List.map_append, ← whole] at mirror
  simp only [parse, mapped, List.length_map, mirror]
  refine ⟨_, rfl, rfl, ?_⟩
  -- both parsers stop in front of corresponding tokens, or both have read all of them
  cases rest with
  | nil => exact .inr ⟨found, rfl⟩
  | cons t more =>
    have same : e.found = t := found
    have member : t ∈ significant tokens := by simp [whole]
    exact .inl ⟨same ▸ (significant_sublist tokens).subset member, same ▸ rfl⟩

/-- They are rejected at the same token, with the same expectation. -/
theorem parse_map_error {e : ParseError} (failed : parse tokens = .error e) :
    ∃ e', parse (tokens.map ρ.token) = .error e' ∧ e'.expected = e.expected ∧
      (e.found ∈ tokens ∧ e'.found = ρ.token e.found ∨
        e.found = endMark tokens ∧ e'.found = endMark (tokens.map ρ.token)) :=
  parse_relabel_error (significant_map ρ tokens) failed

end

/-! ## Places of parse errors -/

def lastWidth (tokens : List Token) : Nat :=
  (tokens.getLast?.map fun t => t.lexeme.length).getD 0

/-- A token of the second list stands where one of the first list stands; a mark behind the list
moves with the length of the last token. -/
structure StandsAlike (tokens tokens' : List Token) (t t' : Token) : Prop where
  file : t'.file = t.file
  line : t'.pos.line = t.pos.line
  column : t ∈ tokens → t'.pos.column = t.pos.column
  columnBehind : t ∉ tokens → t'.pos.column + lastWidth tokens = t.pos.column + lastWidth tokens'

section

variable (r : String → String) (tokens : List Token)

/-- A renamed token stands where the token stood. -/
theorem standsAlike_rename {t : Token} (member : t ∈ tokens) :
    StandsAlike tokens (tokens.map (Token.rename r)) t (t.rename r) where
  file := t.file_rename r
  line := by rw [t.pos_rename]
  column := by
    intro _
    rw [t.pos_rename]
  columnBehind := fun absent => absurd member absent

/-- So does the end mark, which may be moved by the width of the last token. -/
theorem standsAlike_endMark :
    StandsAlike tokens (tokens.map (Token.rename r)) (endMark tokens)
      (endMark (tokens.map (Token.rename r))) := by
  have marks : (tokens.map (Token.rename r)).find? (fun t => t.kind = .eof) =
      (tokens.find? fun t => t.kind = .eof).map (Token.rename r) := by
    rw [List.find?_map]
    simp only [Function.comp_def, Token.kind_rename]
  cases found : tokens.find? fun t => t.kind = .eof with
  | some mark =>
    have here : endMark tokens = mark := by simp only [endMark, found]
    have there : endMark (tokens.map (Token.rename r)) = mark.rename r := by
      simp only [endMark, marks, found, Option.map_some]
    rw [here, there]
    exact standsAlike_rename r tokens (List.mem_of_find?_eq_some found)
  | none =>
    -- no token is an end mark, so the mark stands behind them
    have absent : endMark tokens ∉ tokens := by
      intro member
      have noMark := List.find?_eq_none.1 found _ member
      simp [endMark_kind] at noMark
    have last : (tokens.map (Token.rename r)).getLast? = tokens.getLast?.map (Token.rename r) :=
      List.getLast?_map
    cases ends : tokens.getLast? with
    | none =>
      have none : tokens = [] := List.getLast?_eq_none_iff.1 ends
      subst none
      exact ⟨rfl, rfl, fun _ => rfl, fun _ => rfl⟩
    | some t =>
      have here : endMark tokens =
          ⟨.eof, t.file, ⟨t.pos.line, t.pos.column + t.lexeme.length⟩, ""⟩ := by
        simp only [endMark, found, ends]
      have there : endMark (tokens.map (Token.rename r)) =
          ⟨.eof, t.file, ⟨t.pos.line, t.pos.column + (t.rename r).lexeme.length⟩, ""⟩ := by
        simp only [endMark, marks, found, last, ends, Option.map_none, Option.map_some,
          Token.file_rename, Token.pos_rename]
      have width : lastWidth tokens = t.lexeme.length := by
        rw [lastWidth, ends]
        rfl
      have width' : lastWidth (tokens.map (Token.rename r)) = (t.rename r).lexeme.length := by
        rw [lastWidth, last, ends]
        rfl
      refine ⟨?_, ?_, fun member => absurd member absent, fun _ => ?_⟩
      · rw [here, there]
      · rw [here, there]
      · rw [here, there, width, width']
        exact Nat.add_right_comm _ _ _

end

/-! ## Compiling -/

/-- A program that is parsed is compiled. -/
theorem compileTokens_of_ok {tokens : List Token} {p : Program} (parsed : parse tokens = .ok p) :
    compileTokens tokens = compileProgram p := by
  rw [compileTokens, parsed]
  rfl

/-- Tokens that are not parsed are not compiled. -/
theorem compileTokens_of_error {tokens : List Token} {e : ParseError}
    (failed : parse tokens = .error e) : compileTokens tokens = .error (.parse e) := by
  rw [compileTokens, failed]
  rfl

/-- Results that are alike in one sense are alike in every weaker sense. -/
theorem EndAlike.mono {compilations compilations' : Compilation → Compilation → Prop}
    {parseErrors parseErrors' : ParseError → ParseError → Prop}
    {diagnostics diagnostics' : Diagnostic → Diagnostic → Prop}
    {result result' : Except CompileError Compilation}
    (alike : EndAlike compilations parseErrors diagnostics result result')
    (weakerCompilations : ∀ c c', compilations c c' → compilations' c c')
    (weakerParseErrors : ∀ e e', parseErrors e e' → parseErrors' e e')
    (weakerDiagnostics : ∀ d d', diagnostics d d' → diagnostics' d d') :
    EndAlike compilations' parseErrors' diagnostics' result result' := by
  unfold EndAlike at *
  split at alike
  · exact weakerCompilations _ _ alike
  · exact weakerParseErrors _ _ alike
  · exact alike.imp weakerDiagnostics
  · exact alike.imp weakerDiagnostics
  · exact alike.elim

/-- A renaming that keeps names apart and reserved words as they are suits every program with marked
names. -/
theorem suits_ofRenaming {r : String → String} (injective : Function.Injective r)
    (reserved : ∀ word, IsReservedWord word → r word = word) {p : Program}
    (marked : ∀ n ∈ p.names, ∃ bare, n.name.source = n.kind.mark ++ bare) :
    (Relabelling.ofRenaming r injective reserved).Suits p where
  fits := by
    intro name declared
    rcases List.mem_map.1 (p.declaredNames_sublist.subset declared) with ⟨n, listed, rfl⟩
    rcases marked n listed with ⟨bare, source⟩
    rw [source]
    exact Relabelling.fits_mark _ n.kind bare
  apart := fun _ _ _ _ same => same

/-- Compiling consistently renamed tokens ends in the same way: with the same listing, with the same
problems at the same places up to names, or with the same expectation at the same place. -/
theorem compileTokens_rename {tokens : List Token} {r : String → String}
    (marked : ∀ t ∈ tokens, (t.kind = .varName → ∃ bare, t.lexeme = "V_" ++ bare) ∧
      (t.kind = .funName → ∃ bare, t.lexeme = "F_" ++ bare))
    (injective : Function.Injective r) (reserved : ∀ word, IsReservedWord word → r word = word) :
    EndAlike (fun c c' => c'.basic = c.basic)
      (fun e e' => e'.expected = e.expected ∧
        StandsAlike tokens (tokens.map (Token.rename r)) e.found e'.found)
      (fun d d' => d'.problem = d.problem.mapNames (respell r) ∧ d'.file = d.file ∧ d'.pos = d.pos)
      (compileTokens tokens) (compileTokens (tokens.map (Token.rename r))) := by
  -- a renaming is a relabelling that moves nothing
  let ρ := Relabelling.ofRenaming r injective reserved
  have renamed : tokens.map ρ.token = tokens.map (Token.rename r) := rfl
  cases parsed : parse tokens with
  | ok p =>
    have suits : ρ.Suits p := suits_ofRenaming injective reserved (marked_of_parse parsed marked)
    have parsed' : parse (tokens.map ρ.token) = .ok (p.relabel ρ) := parse_map_ok parsed
    rw [renamed] at parsed'
    rw [compileTokens_of_ok parsed, compileTokens_of_ok parsed']
    refine (compileProgram_relabel suits).mono ?_ ?_ ?_
    · exact fun c c' alike => alike.1
    · exact fun e e' never => never.elim
    · rintro d d' ⟨⟨problem, pos⟩, file, file'⟩
      refine ⟨problem, ?_, pos⟩
      rw [file, file']
      exact Token.file_rename r p.main
  | error e =>
    have mapped : ∃ e', parse (tokens.map ρ.token) = .error e' ∧ _ := parse_map_error parsed
    rw [renamed] at mapped
    rcases mapped with ⟨e', parsed', expected, found⟩
    rw [compileTokens_of_error parsed, compileTokens_of_error parsed']
    refine ⟨expected, ?_⟩
    rcases found with ⟨member, moved⟩ | ⟨atEnd, atEnd'⟩
    · rw [moved]
      exact standsAlike_rename r tokens member
    · rw [atEnd, atEnd']
      exact standsAlike_endMark r tokens

/-- Exchanging two bare names that are not reserved leaves reserved words alone. -/
theorem swap_reserved {a b : String} (free : ¬ IsReservedWord a) (free' : ¬ IsReservedWord b) :
    ∀ word, IsReservedWord word → Equiv.swap a b word = word := by
  intro word isWord
  apply Equiv.swap_apply_of_ne_of_ne
  · rintro rfl
    exact free isWord
  · rintro rfl
    exact free' isWord

/-- Exchanging a bare name of variables with one of a function in a program with inner functions. -/
theorem compileTokens_rename_nested :
    ∃ tokens c c', tokenize nestedSource "nested.spl" = .ok tokens ∧ compileTokens tokens = .ok c ∧
      compileTokens (tokens.map (Token.rename (Equiv.swap "x" "a"))) = .ok c' ∧
      c'.basic = c.basic := by
  rcases exists_program_nestedSource with ⟨tokens, p, read, parsed, resolved, checked, _⟩
  have alike := compileTokens_rename (mark_of_tokenize read) (Equiv.swap "x" "a").injective
    (swap_reserved (by unfold IsReservedWord; decide) (by unfold IsReservedWord; decide))
  have here := (compileTokens_of_ok parsed).trans
    (compileProgram_of_clean (List.map_eq_nil_iff.1 resolved) (List.isEmpty_iff.1 checked))
  rw [here] at alike
  cases there : compileTokens (tokens.map (Token.rename (Equiv.swap "x" "a"))) with
  | error e =>
    rw [there] at alike
    exact alike.elim
  | ok c' =>
    rw [there] at alike
    exact ⟨tokens, _, c', read, here, there, alike⟩

/-- Tokens that end with a name, where a block should begin. -/
def openTokens : List Token :=
  [⟨.keyword .mainWord, "t.spl", ⟨1, 1⟩, "main"⟩, ⟨.keyword .numWord, "t.spl", ⟨1, 6⟩, "num"⟩,
    ⟨.varName, "t.spl", ⟨1, 10⟩, "V_a"⟩]

/-- Without an end mark, a parse error at the end moves when the last token gets another name. -/
theorem parse_error_moves_behind_renamed_name :
    (∀ t ∈ openTokens, (t.kind = .varName → ∃ bare, t.lexeme = "V_" ++ bare) ∧
      (t.kind = .funName → ∃ bare, t.lexeme = "F_" ++ bare)) ∧
    Function.Injective (Equiv.swap "a" "bb") ∧
    (∀ word, IsReservedWord word → Equiv.swap "a" "bb" word = word) ∧
    ∃ e e', compileTokens openTokens = .error (.parse e) ∧
      compileTokens (openTokens.map (Token.rename (Equiv.swap "a" "bb"))) = .error (.parse e') ∧
      e.found.pos = ⟨1, 13⟩ ∧ e'.found.pos = ⟨1, 14⟩ := by
  refine ⟨?_, (Equiv.swap "a" "bb").injective,
    swap_reserved (by unfold IsReservedWord; decide) (by unfold IsReservedWord; decide), ?_⟩
  · intro t member
    simp only [openTokens, List.mem_cons, List.not_mem_nil, or_false] at member
    rcases member with rfl | rfl | rfl
    · simp
    · simp
    · exact ⟨fun _ => ⟨"a", rfl⟩, fun never => by cases never⟩
  · have failed : parse openTokens =
        .error ⟨.token (.keyword .beginWord), ⟨.eof, "t.spl", ⟨1, 13⟩, ""⟩, "main num V_a"⟩ := by
      decide +kernel
    have failed' : parse (openTokens.map (Token.rename (Equiv.swap "a" "bb"))) =
        .error ⟨.token (.keyword .beginWord), ⟨.eof, "t.spl", ⟨1, 14⟩, ""⟩, "main num V_bb"⟩ := by
      decide +kernel
    exact ⟨_, _, compileTokens_of_error failed, compileTokens_of_error failed', rfl, rfl⟩

end SplBasic
