import Mathlib.Logic.Function.Basic
import SplBasic.Proofs.ProgramNames

/-!
# Relabelling tokens

A `Relabelling` changes what the tokens of a program say without changing what they mean: kinds and
literals stay, bare names are exchanged one for one with reserved words left alone, and places are
moved. `relabel` applies it to every layer of a program.

* `respell` : a marked name with another bare name behind its mark,
* `Relabelling.spell_injective`, `Relabelling.isReserved_spell`, `Relabelling.main_spell` : what
  resolving asks of a spelling has the same answer before and behind a relabelling.
-/

namespace SplBasic

/-! ## Spellings -/

/-- A spelling with another bare name behind its mark. What has no mark stays as it is. -/
def respell (r : String → String) (spelling : String) : String :=
  match spelling.toList with
  | 'V' :: '_' :: cs => "V_" ++ r (String.ofList cs)
  | 'F' :: '_' :: cs => "F_" ++ r (String.ofList cs)
  | _ => spelling

@[simp] theorem respell_mark (r : String → String) (kind : SymbolKind) (bare : String) :
    respell r (kind.mark ++ bare) = kind.mark ++ r bare := by
  cases kind with
  | «variable» => simp [respell, SymbolKind.mark]
  | function => simp [respell, SymbolKind.mark]

@[simp] theorem bareName_mark (kind : SymbolKind) (bare : String) :
    bareName (kind.mark ++ bare) = bare := by
  cases kind with
  | «variable» => simp [bareName, SymbolKind.mark]
  | function => simp [bareName, SymbolKind.mark]

/-- The spelling has no mark in front. -/
def Unmarked (spelling : String) : Prop :=
  ∀ (kind : SymbolKind) (bare : String), spelling ≠ kind.mark ++ bare

/-- Every spelling is a bare name behind a mark, or has no mark. -/
theorem marked_or_unmarked (spelling : String) :
    (∃ (kind : SymbolKind) (bare : String), spelling = kind.mark ++ bare) ∨ Unmarked spelling := by
  by_cases marked : ∃ (kind : SymbolKind) (bare : String), spelling = kind.mark ++ bare
  · exact .inl marked
  · exact .inr fun kind bare same => marked ⟨kind, bare, same⟩

namespace Unmarked

variable {spelling : String}

/-- Unmarked words do not start with a mark. -/
theorem toList_ne (unmarked : Unmarked spelling) (kind : SymbolKind) (cs : List Char) :
    spelling.toList ≠ kind.mark.toList ++ cs := by
  intro chars
  apply unmarked kind (String.ofList cs)
  apply String.toList_injective
  simpa using chars

/-- Unmarked words are left as they are. -/
theorem respell_eq (unmarked : Unmarked spelling) (r : String → String) :
    respell r spelling = spelling := by
  unfold respell
  split
  · rename_i cs chars
    exact absurd chars (unmarked.toList_ne .variable cs)
  · rename_i cs chars
    exact absurd chars (unmarked.toList_ne .function cs)
  · rfl

end Unmarked

/-- The mark tells the kind. -/
theorem mark_append_inj {kind kind' : SymbolKind} {bare bare' : String}
    (same : kind.mark ++ bare = kind'.mark ++ bare') : kind = kind' ∧ bare = bare' := by
  have bares := congrArg bareName same
  rw [bareName_mark, bareName_mark] at bares
  refine ⟨?_, bares⟩
  have chars := congrArg String.toList same
  cases kind with
  | «variable» =>
    cases kind' with
    | «variable» => rfl
    | function => simp [SymbolKind.mark] at chars
  | function =>
    cases kind' with
    | «variable» => simp [SymbolKind.mark] at chars
    | function => rfl

/-- Respelling keeps words apart if the respelling of bare names does. -/
theorem respell_injective {r : String → String} (injective : Function.Injective r) :
    Function.Injective (respell r) := by
  intro s s' same
  -- a mark is kept and never made, so both spellings have the same one or none
  rcases marked_or_unmarked s with ⟨kind, bare, rfl⟩ | unmarked
  · rcases marked_or_unmarked s' with ⟨kind', bare', rfl⟩ | unmarked'
    · rw [respell_mark, respell_mark] at same
      rcases mark_append_inj same with ⟨rfl, bareSame⟩
      rw [injective bareSame]
    · rw [respell_mark, unmarked'.respell_eq] at same
      exact absurd same.symm (unmarked' kind _)
  · rcases marked_or_unmarked s' with ⟨kind', bare', rfl⟩ | unmarked'
    · rw [respell_mark, unmarked.respell_eq] at same
      exact absurd same (unmarked kind' _)
    · rw [unmarked.respell_eq, unmarked'.respell_eq] at same
      exact same

/-! ## Relabellings -/

/-- A change of tokens that keeps kinds and literals. -/
structure Relabelling where
  /-- What becomes of a bare name. -/
  bare : String → String
  /-- What becomes of a place. -/
  place : Position → Position
  /-- What becomes of a token. -/
  token : Token → Token
  bare_injective : Function.Injective bare
  bare_reserved : ∀ word, isReserved word = true → bare word = word
  kind_token : ∀ t, (token t).kind = t.kind
  pos_token : ∀ t, (token t).pos = place t.pos
  lexeme_name : ∀ t, t.isName = true → (token t).lexeme = respell bare t.lexeme
  lexeme_literal : ∀ t, t.kind = .numLit ∨ t.kind = .textLit → (token t).lexeme = t.lexeme

namespace Relabelling

variable (ρ : Relabelling)

/-- The relabelling that changes nothing. -/
def refl : Relabelling where
  bare := id
  place := id
  token := id
  bare_injective := Function.injective_id
  bare_reserved := fun _ _ => rfl
  kind_token := fun _ => rfl
  pos_token := fun _ => rfl
  lexeme_name := by
    intro t _
    rcases marked_or_unmarked t.lexeme with ⟨kind, bare, same⟩ | unmarked
    · rw [id, same, respell_mark, id]
    · rw [id, unmarked.respell_eq]
  lexeme_literal := fun _ _ => rfl

/-- What becomes of a spelling. -/
def spell (spelling : String) : String :=
  respell ρ.bare spelling

theorem spell_injective : Function.Injective ρ.spell :=
  respell_injective ρ.bare_injective

@[simp] theorem spell_inj {s s' : String} : ρ.spell s = ρ.spell s' ↔ s = s' :=
  ρ.spell_injective.eq_iff

@[simp] theorem spell_mark (kind : SymbolKind) (bare : String) :
    ρ.spell (kind.mark ++ bare) = kind.mark ++ ρ.bare bare :=
  respell_mark ρ.bare kind bare

theorem spell_unmarked {s : String} (unmarked : Unmarked s) : ρ.spell s = s :=
  unmarked.respell_eq ρ.bare

/-- Relabelling neither makes nor takes reserved words. -/
theorem isReserved_bare (word : String) : isReserved (ρ.bare word) = isReserved word := by
  cases reserved : isReserved word with
  | true => rw [ρ.bare_reserved word reserved, reserved]
  | false =>
    by_contra becomes
    have reserved' : isReserved (ρ.bare word) = true := by simpa using becomes
    -- a reserved word stays, so it is the image of itself only
    have fixed : ρ.bare word = word := ρ.bare_injective (ρ.bare_reserved _ reserved')
    rw [fixed, reserved] at reserved'
    cases reserved'

/-- A name is reserved behind the relabelling if it is before. -/
@[simp] theorem isReserved_spell (s : String) :
    isReserved (bareName (ρ.spell s)) = isReserved (bareName s) := by
  rcases marked_or_unmarked s with ⟨kind, bare, rfl⟩ | unmarked
  · rw [spell_mark, bareName_mark, bareName_mark, isReserved_bare]
  · rw [ρ.spell_unmarked unmarked]

/-- A name is that of the main block behind the relabelling if it is before. -/
@[simp] theorem main_spell (s : String) : bareName (ρ.spell s) = "main" ↔ bareName s = "main" := by
  have fixed : ρ.bare "main" = "main" := ρ.bare_reserved "main" (by decide)
  rcases marked_or_unmarked s with ⟨kind, bare, rfl⟩ | unmarked
  · rw [spell_mark, bareName_mark, bareName_mark]
    constructor
    · intro same
      exact ρ.bare_injective (same.trans fixed.symm)
    · intro same
      rw [same, fixed]
  · rw [ρ.spell_unmarked unmarked]

/-- The spelling can be compared across marks: exchanging the mark and relabelling commute. -/
def Fits (s : String) : Prop :=
  ∀ kind : SymbolKind, ρ.spell (kind.mark ++ bareName s) = kind.mark ++ bareName (ρ.spell s)

/-- Marked words fit whatever they are. -/
theorem fits_mark (kind : SymbolKind) (bare : String) : ρ.Fits (kind.mark ++ bare) := by
  intro kind'
  rw [bareName_mark, spell_mark, spell_mark, bareName_mark]

def nameToken (t : Token) : Token :=
  { ρ.token t with lexeme := ρ.spell t.lexeme }

def literalToken (t : Token) : Token :=
  { ρ.token t with lexeme := t.lexeme }

theorem token_of_name {t : Token} (isName : t.isName = true) : ρ.token t = ρ.nameToken t := by
  rw [nameToken, spell, ← ρ.lexeme_name t isName]

theorem token_of_literal {t : Token} (isLiteral : t.kind = .numLit ∨ t.kind = .textLit) :
    ρ.token t = ρ.literalToken t := by
  rw [literalToken, ← ρ.lexeme_literal t isLiteral]

end Relabelling

/-! ## Relabelled programs -/

section

variable (ρ : Relabelling)

namespace Name

/-- The name read from the relabelled token, with its text respelt alike. -/
def relabel (n : Name) : Name :=
  ⟨ρ.nameToken n.token, ρ.spell n.text, n.tag⟩

@[simp] theorem source_relabel (n : Name) : (n.relabel ρ).source = ρ.spell n.source := rfl

@[simp] theorem text_relabel (n : Name) : (n.relabel ρ).text = ρ.spell n.text := rfl

@[simp] theorem pos_relabel (n : Name) : (n.relabel ρ).pos = ρ.place n.pos :=
  ρ.pos_token n.token

/-- A name that was just read is relabelled by relabelling its token. -/
theorem ofToken_relabel {t : Token} (isName : t.isName = true) :
    (ofToken t).relabel ρ = ofToken (ρ.token t) := by
  rw [ρ.token_of_name isName]
  rfl

end Name

/-- The literal read from the relabelled token. Its lexeme stays. -/
def Literal.relabel (l : Literal) : Literal :=
  ⟨ρ.literalToken l.token, l.type, l.tag⟩

/-- What the relabelling makes of the parts of a program. Tags stay. -/
def Relabelling.change : Change :=
  ⟨ρ.token, Name.relabel ρ, Name.relabel ρ, Literal.relabel ρ, id⟩

/-- The relabelled program. It tells the text of the relabelled tokens. -/
def Program.relabel (p : Program) : Program :=
  { p.map ρ.change with source := ⟨p.source.tokens.map ρ.token⟩ }

def NameUse.relabel : NameUse → NameUse :=
  NameUse.mapNames (Name.relabel ρ) (Name.relabel ρ)

end

end SplBasic
