import Mathlib.Computability.Language
import Mathlib.Data.List.TakeWhile
import SplBasic.Proofs.SourceTokens

/-!
# The lexical grammar

What a text has to be made of, said without a scanner:

* `Lexeme.spellings` : the spellings of each kind of token, as languages over characters,
* `Lexeme.continues` : the characters that may not follow a lexeme, since they would belong to it.

The recognizers of lexemes are proved to decide these languages.
-/

namespace SplBasic

open Computability

namespace Lexeme

/-! ## Spellings -/

/-- The words of one character that `accept` takes. -/
def oneOf (accept : Char → Bool) : Language Char :=
  {word | ∃ c, accept c = true ∧ word = [c]}

/-- The language of one fixed word. -/
def spelled (word : String) : Language Char :=
  {word.toList}

/-- `[0-9]` -/
def digit : Language Char :=
  oneOf Char.isDigit

/-- `[1-9]` -/
def positiveDigit : Language Char :=
  oneOf fun c => c.isDigit && c != '0'

/-- `-?` -/
def optionalSign : Language Char :=
  1 + spelled "-"

/-- `[1-9][0-9]*` -/
def positiveWhole : Language Char :=
  positiveDigit * digit∗

/-- `(0|[1-9][0-9]*)\.[0-9]*[1-9]` -/
def decimal : Language Char :=
  (spelled "0" + positiveWhole) * (spelled "." * (digit∗ * positiveDigit))

/-- `0 | -?[1-9][0-9]* | -?(0|[1-9][0-9]*)\.[0-9]*[1-9]` -/
def number : Language Char :=
  spelled "0" + optionalSign * positiveWhole + optionalSign * decimal

/-- `[a-z][a-z0-9]*` -/
def bareNames : Language Char :=
  oneOf Char.isLower * (oneOf fun c => c.isLower || c.isDigit)∗

/-- A quote, characters other than quotes and line feeds, a quote. -/
def quotedText : Language Char :=
  spelled "\"" * ((oneOf fun c => c != '"' && c != '\n')∗ * spelled "\"")

/-- The spellings of the tokens of a kind; `grt` is a second spelling of `gt`. No text spells trivia
or an end mark. -/
def spellings : TokenKind → Language Char
  | .punctuation sign => {[sign.symbol]}
  | .keyword word => spelled word.spelling
  | .operator op => {word | word = op.spelling.toList ∨ op = .binary .gt ∧ word = "grt".toList}
  | .varName => spelled "V_" * bareNames
  | .funName => spelled "F_" * bareNames
  | .numLit => number
  | .textLit => quotedText
  | .trivia => 0
  | .eof => 0

/-- The characters that may not follow a lexeme of a kind: letters, digits and underscores behind
words, digits and points behind numbers. -/
def continues : TokenKind → Char → Bool
  | .keyword _, c => c.isAlphanum || c == '_'
  | .operator _, c => c.isAlphanum || c == '_'
  | .varName, c => c.isAlphanum || c == '_'
  | .funName, c => c.isAlphanum || c == '_'
  | .numLit, c => c.isDigit || c == '.'
  | _, _ => false

/-! ## Membership -/

theorem mem_spellings_operator {op : Operator} {word : List Char} :
    word ∈ spellings (.operator op) ↔
      word = op.spelling.toList ∨ op = .binary .gt ∧ word = "grt".toList :=
  Iff.rfl

theorem mem_spelled {fixed : String} {word : List Char} :
    word ∈ spelled fixed ↔ word = fixed.toList :=
  Iff.rfl

/-- Repeating a choice of characters gives the words of such characters. -/
theorem mem_kstar_oneOf {accept : Char → Bool} {word : List Char} :
    word ∈ (oneOf accept)∗ ↔ ∀ c ∈ word, accept c = true := by
  constructor
  · rintro ⟨parts, rfl, each⟩ c member
    rcases List.mem_flatten.1 member with ⟨part, partMember, inPart⟩
    rcases each part partMember with ⟨d, accepted, rfl⟩
    rw [List.mem_singleton.1 inPart]
    exact accepted
  · intro all
    refine ⟨word.map fun c => [c], ?_, ?_⟩
    · rw [← List.flatMap_def, List.flatMap_singleton']
    · intro part member
      rcases List.mem_map.1 member with ⟨c, inWord, rfl⟩
      exact ⟨c, all c inWord, rfl⟩

/-- A choice of characters in front of a language fixes the first character of its words. -/
theorem mem_oneOf_mul {accept : Char → Bool} {rest : Language Char} {word : List Char} :
    word ∈ oneOf accept * rest ↔ ∃ c cs, accept c = true ∧ cs ∈ rest ∧ word = c :: cs := by
  constructor
  · rintro ⟨_, ⟨c, accepted, rfl⟩, cs, member, rfl⟩
    exact ⟨c, cs, accepted, member, rfl⟩
  · rintro ⟨c, cs, accepted, member, rfl⟩
    exact ⟨[c], ⟨c, accepted, rfl⟩, cs, member, rfl⟩

/-- A fixed word in front of a language is the front of its words. -/
theorem mem_spelled_mul {fixed : String} {rest : Language Char} {word : List Char} :
    word ∈ spelled fixed * rest ↔ ∃ cs ∈ rest, word = fixed.toList ++ cs := by
  constructor
  · rintro ⟨_, rfl, cs, member, rfl⟩
    exact ⟨cs, member, rfl⟩
  · rintro ⟨cs, member, rfl⟩
    exact ⟨fixed.toList, rfl, cs, member, rfl⟩

/-- A sign may stand in front of the words of a language. -/
theorem mem_optionalSign_mul {rest : Language Char} {word : List Char} :
    word ∈ optionalSign * rest ↔ word ∈ rest ∨ ∃ cs ∈ rest, word = '-' :: cs := by
  rw [optionalSign, add_mul, one_mul, Language.mem_add, mem_spelled_mul]
  rfl

/-! ## Numbers -/

/-- The lexer's test for whole parts accepts zero and what starts with a positive digit. -/
theorem isWholePart_iff {digits : List Char} :
    isWholePart digits = true ↔ digits ∈ spelled "0" + positiveWhole := by
  have positive : digits.head? ≠ some '0' ∧ digits ≠ [] ∧ digits.all Char.isDigit = true ↔
      digits ∈ positiveWhole := by
    cases digits with
    | nil => simp [positiveWhole, positiveDigit, mem_oneOf_mul]
    | cons c cs =>
      simp only [positiveWhole, positiveDigit, digit, mem_oneOf_mul, mem_kstar_oneOf]
      constructor
      · rintro ⟨notZero, _, all⟩
        simp only [List.all_cons, Bool.and_eq_true, List.all_eq_true] at all
        refine ⟨c, cs, ?_, all.2, rfl⟩
        simpa [all.1] using notZero
      · rintro ⟨_, _, accepted, all, ⟨⟩⟩
        simp only [Bool.and_eq_true, bne_iff_ne, ne_eq] at accepted
        simpa [accepted.1, accepted.2] using all
  rw [Language.mem_add, ← positive, mem_spelled]
  simp [isWholePart, and_assoc]

/-- The lexer's test for fractions accepts digits that do not end in zero. -/
theorem isFraction_iff {digits : List Char} :
    isFraction digits = true ↔ digits ∈ digit∗ * positiveDigit := by
  simp only [isFraction, Bool.and_eq_true, bne_iff_ne, ne_eq, List.all_eq_true]
  constructor
  · rintro ⟨⟨notEmpty, all⟩, last⟩
    -- the last digit is split off, as in the pattern
    refine ⟨digits.dropLast, ?_, [digits.getLast notEmpty], ?_, List.dropLast_append_getLast _⟩
    · exact mem_kstar_oneOf.2 fun c member => all c (List.dropLast_subset digits member)
    · refine ⟨digits.getLast notEmpty, ?_, rfl⟩
      rw [List.getLast?_eq_getLast_of_ne_nil notEmpty] at last
      simpa [all _ (List.getLast_mem notEmpty)] using last
  · rintro ⟨front, frontDigits, _, ⟨c, accepted, rfl⟩, rfl⟩
    simp only [Bool.and_eq_true, bne_iff_ne, ne_eq] at accepted
    have all := mem_kstar_oneOf.1 frontDigits
    refine ⟨⟨by simp, ?_⟩, by simpa using accepted.2⟩
    intro d member
    rcases List.mem_append.1 member with inFront | inLast
    · exact all d inFront
    · rw [List.mem_singleton.1 inLast]
      exact accepted.1

/-- A whole part starts with a digit and goes on with digits. -/
theorem exists_digits_of_whole {word : List Char} (whole : word ∈ spelled "0" + positiveWhole) :
    ∃ c cs, word = c :: cs ∧ ∀ d ∈ c :: cs, d.isDigit = true := by
  rcases whole with zero | positive
  · exact ⟨'0', [], mem_spelled.1 zero, by simp⟩
  · rcases mem_oneOf_mul.1 positive with ⟨c, cs, accepted, all, rfl⟩
    refine ⟨c, cs, rfl, ?_⟩
    intro d member
    rcases List.mem_cons.1 member with rfl | later
    · exact (Bool.and_eq_true_iff.1 accepted).1
    · exact mem_kstar_oneOf.1 all d later

/-- The digits of a whole part hold no point. -/
theorem ne_point_of_whole {digits : List Char} (whole : digits ∈ spelled "0" + positiveWhole) :
    ∀ c ∈ digits, (c != '.') = true := by
  intro c member
  rcases exists_digits_of_whole whole with ⟨_, _, rfl, all⟩
  rw [bne_iff_ne]
  rintro rfl
  exact absurd (all '.' member) (by decide)

/-- A numeral is a whole part or a decimal. -/
theorem isNumeral_iff {cs : List Char} :
    isNumeral cs = true ↔ cs ∈ spelled "0" + positiveWhole ∨ cs ∈ decimal := by
  -- the recognizer splits at the first point, and the whole part of a decimal holds none
  have whole := List.takeWhile_append_dropWhile (p := (· != '.')) (l := cs)
  simp only [isNumeral, Bool.and_eq_true, isWholePart_iff]
  constructor
  · rintro ⟨wholePart, fraction⟩
    cases behind : cs.dropWhile (· != '.') with
    | nil =>
      rw [behind, List.append_nil] at whole
      exact .inl (whole ▸ wholePart)
    | cons point digits =>
      have isPoint : point = '.' := by
        have stops := List.head?_dropWhile_not (· != '.') cs
        simpa [behind] using stops
      rw [behind, isPoint] at whole
      rw [behind] at fraction
      exact .inr
        ⟨_, wholePart, _, mem_spelled_mul.2 ⟨digits, isFraction_iff.1 fraction, rfl⟩, whole⟩
  · rintro (wholePart | ⟨wholePart, isWhole, _, fraction, rfl⟩)
    · have all := ne_point_of_whole wholePart
      rw [List.takeWhile_eq_self_iff.2 all, List.dropWhile_eq_nil_iff.2 all]
      exact ⟨wholePart, rfl⟩
    · rcases mem_spelled_mul.1 fraction with ⟨digits, isFraction, rfl⟩
      have all := ne_point_of_whole isWhole
      have atPoint : ".".toList ++ digits = '.' :: digits := rfl
      simp only [atPoint, List.takeWhile_append_of_pos all, List.dropWhile_append_of_pos all]
      simpa using ⟨isWhole, isFraction_iff.2 isFraction⟩

/-- A decimal starts with a digit and is not a single character. -/
theorem exists_digit_of_decimal {word : List Char} (isDecimal : word ∈ decimal) :
    ∃ c d cs, word = c :: d :: cs ∧ c.isDigit = true := by
  rcases isDecimal with ⟨_, whole, _, fraction, rfl⟩
  rcases exists_digits_of_whole whole with ⟨c, cs, rfl, all⟩
  rcases mem_spelled_mul.1 fraction with ⟨digits, _, rfl⟩
  cases cs with
  | nil => exact ⟨c, '.', digits, rfl, all c (by simp)⟩
  | cons d ds => exact ⟨c, d, ds ++ (".".toList ++ digits), rfl, all c (by simp)⟩

/-- Zero is the one numeral that takes no sign. -/
theorem isNumber_iff {cs : List Char} : isNumber cs = true ↔ cs ∈ number := by
  have unsigned : isNumeral cs = true ↔ (cs ∈ spelled "0" ∨ cs ∈ positiveWhole) ∨ cs ∈ decimal :=
    isNumeral_iff
  simp only [number, Language.mem_add, mem_optionalSign_mul]
  -- a sign in front is either taken off by both sides or there is none
  by_cases signed : ∃ ds, cs = '-' :: ds
  · rcases signed with ⟨ds, rfl⟩
    have notNumeral : ¬ isNumeral ('-' :: ds) = true := by
      rw [isNumeral_iff]
      rintro (whole | isDecimal)
      · rcases exists_digits_of_whole whole with ⟨_, _, ⟨⟩, all⟩
        exact absurd (all '-' (by simp)) (by decide)
      · rcases exists_digit_of_decimal isDecimal with ⟨_, _, _, ⟨⟩, isDigit⟩
        exact absurd isDigit (by decide)
    have positive : ds ∈ positiveWhole → ds ≠ ['0'] := by
      rintro member rfl
      rcases mem_oneOf_mul.1 member with ⟨_, _, accepted, _, ⟨⟩⟩
      exact absurd accepted (by decide)
    have decimal : ds ∈ decimal → ds ≠ ['0'] := by
      rintro member rfl
      rcases exists_digit_of_decimal member with ⟨_, _, _, ⟨⟩, _⟩
    have numeral : isNumeral ds = true ↔
        (ds = ['0'] ∨ ds ∈ positiveWhole) ∨ ds ∈ Lexeme.decimal :=
      isNumeral_iff
    simp only [isNumber, Bool.and_eq_true, bne_iff_ne, ne_eq, numeral]
    simp only [List.cons.injEq, true_and, exists_eq_right']
    grind
  · have plain : isNumber cs = isNumeral cs := by
      unfold isNumber
      split
      · exact absurd ⟨_, rfl⟩ signed
      · rfl
    rw [plain, unsigned]
    grind

/-! ## Names and texts -/

/-- The lexer's test for bare names accepts a small letter in front of small letters and digits. -/
theorem isBareName_iff {cs : List Char} : isBareName cs = true ↔ cs ∈ bareNames := by
  cases cs with
  | nil => simp [isBareName, bareNames, mem_oneOf_mul]
  | cons c cs =>
    simp only [isBareName, bareNames, mem_oneOf_mul, mem_kstar_oneOf, Bool.and_eq_true,
      List.all_eq_true]
    constructor
    · rintro ⟨first, all⟩
      exact ⟨c, cs, first, all, rfl⟩
    · rintro ⟨_, _, first, all, ⟨⟩⟩
      exact ⟨first, all⟩

/-- The lexer's test for variables accepts a mark in front of a bare name. -/
theorem isVarName_iff {cs : List Char} : isVarName cs = true ↔ cs ∈ spellings .varName := by
  rw [spellings, mem_spelled_mul]
  constructor
  · intro named
    unfold isVarName at named
    split at named
    · exact ⟨_, isBareName_iff.1 named, rfl⟩
    · cases named
  · rintro ⟨bare, isBare, rfl⟩
    exact isBareName_iff.2 isBare

/-- The lexer's test for functions accepts a mark in front of a bare name. -/
theorem isFunName_iff {cs : List Char} : isFunName cs = true ↔ cs ∈ spellings .funName := by
  rw [spellings, mem_spelled_mul]
  constructor
  · intro named
    unfold isFunName at named
    split at named
    · exact ⟨_, isBareName_iff.1 named, rfl⟩
    · cases named
  · rintro ⟨bare, isBare, rfl⟩
    exact isBareName_iff.2 isBare

/-- A quoted text is a quote, text characters and a quote. -/
theorem mem_quotedText {word : List Char} :
    word ∈ quotedText ↔
      ∃ body, (∀ c ∈ body, isTextChar c = true) ∧ word = '"' :: (body ++ ['"']) := by
  rw [quotedText, mem_spelled_mul]
  constructor
  · rintro ⟨_, ⟨body, all, _, rfl, rfl⟩, rfl⟩
    exact ⟨body, mem_kstar_oneOf.1 all, rfl⟩
  · rintro ⟨body, all, rfl⟩
    exact ⟨body ++ ['"'], ⟨body, mem_kstar_oneOf.2 all, ['"'], rfl, rfl⟩, rfl⟩

/-- The lexer's test for texts accepts the quoted texts. -/
theorem isText_iff {cs : List Char} : isText cs = true ↔ cs ∈ quotedText := by
  rw [mem_quotedText]
  constructor
  · intro quoted
    unfold isText at quoted
    split at quoted
    · rename_i inner
      simp only [Bool.and_eq_true, beq_iff_eq, List.all_eq_true] at quoted
      rcases List.getLast?_eq_some_iff.1 quoted.1 with ⟨body, rfl⟩
      exact ⟨body, by simpa using quoted.2, rfl⟩
    · cases quoted
  · rintro ⟨body, all, rfl⟩
    simpa [isText] using all

/-! ## Words with a fixed meaning -/

/-- The kinds of the words with a fixed meaning. -/
def IsFixedWord : TokenKind → Prop
  | .keyword _ => True
  | .operator _ => True
  | _ => False

/-- The table of reserved words has each word once, so it is read in both directions. -/
theorem ofWord?_eq_some_iff {word : String} {kind : TokenKind} :
    TokenKind.ofWord? word = some kind ↔ (word, kind) ∈ TokenKind.reservedWords := by
  constructor
  · intro found
    rcases List.lookup_eq_some_iff.1 found with ⟨before, after, split, _⟩
    simp [split]
  · have all : ∀ entry ∈ TokenKind.reservedWords, TokenKind.ofWord? entry.1 = some entry.2 := by
      decide
    exact all (word, kind)

/-- The table of reserved words lists the spellings of keywords and operators. -/
theorem ofWord?_ofList_iff {cs : List Char} {kind : TokenKind} :
    TokenKind.ofWord? (String.ofList cs) = some kind ↔ IsFixedWord kind ∧ cs ∈ spellings kind := by
  have same (word : String) : String.ofList cs = word ↔ cs = word.toList := by
    constructor
    · rintro rfl
      simp
    · rintro rfl
      simp
  rw [ofWord?_eq_some_iff]
  cases kind with
  | keyword word =>
    cases word <;>
      simp [TokenKind.reservedWords, Keyword.all, Operator.all, IsFixedWord, spellings, mem_spelled,
        same]
  | operator op =>
    rw [mem_spellings_operator]
    rcases op with op | op <;> cases op <;>
      simp [TokenKind.reservedWords, Keyword.all, Operator.all, IsFixedWord, same]
  | _ => simp [TokenKind.reservedWords, IsFixedWord]

/-- The kinds that words have: those with a fixed meaning, and names. -/
def IsWord (kind : TokenKind) : Prop :=
  IsFixedWord kind ∨ kind = .varName ∨ kind = .funName

/-- No reserved word has the shape of a name. -/
theorem ofWord?_eq_none_of_name {cs : List Char}
    (named : isVarName cs = true ∨ isFunName cs = true) :
    TokenKind.ofWord? (String.ofList cs) = none := by
  have all : ∀ entry ∈ TokenKind.reservedWords,
      isVarName entry.1.toList = false ∧ isFunName entry.1.toList = false := by
    decide
  cases found : TokenKind.ofWord? (String.ofList cs) with
  | none => rfl
  | some kind =>
    have none := all _ (ofWord?_eq_some_iff.1 found)
    simp only [String.toList_ofList] at none
    simp [none] at named

/-- The marks differ, so no word names both a variable and a function. -/
theorem isFunName_eq_false_of_isVarName {cs : List Char} (named : isVarName cs = true) :
    isFunName cs = false := by
  unfold isVarName at named
  split at named
  · rfl
  · cases named

/-- A word is classified as the one kind that it is a spelling of. -/
theorem classifyWord_eq_ok_iff {cs : List Char} {kind : TokenKind} :
    classifyWord cs = .ok kind ↔ IsWord kind ∧ cs ∈ spellings kind := by
  constructor
  · intro spells
    unfold classifyWord at spells
    -- reserved words are tried first, then variables, then functions
    split at spells
    · rename_i found
      cases spells
      have fixed := ofWord?_ofList_iff.1 found
      exact ⟨.inl fixed.1, fixed.2⟩
    · split at spells
      · cases spells
        exact ⟨.inr (.inl rfl), isVarName_iff.1 ‹_›⟩
      · split at spells
        · cases spells
          exact ⟨.inr (.inr rfl), isFunName_iff.1 ‹_›⟩
        · cases spells
  · rintro ⟨fixed | rfl | rfl, member⟩
    · have found := ofWord?_ofList_iff.2 ⟨fixed, member⟩
      simp [classifyWord, found]
    · have named := isVarName_iff.2 member
      simp [classifyWord, ofWord?_eq_none_of_name (.inl named), named]
    · have named := isFunName_iff.2 member
      have notVariable : isVarName cs = false := by
        cases isVariable : isVarName cs with
        | false => rfl
        | true => exact absurd named (by simp [isFunName_eq_false_of_isVarName isVariable])
      simp [classifyWord, ofWord?_eq_none_of_name (.inr named), named, notVariable]

/-! ## First characters -/

/-- The characters that a lexeme of a kind can start with. -/
def Opens : TokenKind → Char → Prop
  | .punctuation sign, c => c = sign.symbol
  | .numLit, c => startsNumber c = true
  | .textLit, c => c = '"'
  | .trivia, _ => False
  | .eof, _ => False
  | _, c => startsWord c = true

/-- Words of all kinds start alike. -/
theorem opens_of_isWord {kind : TokenKind} {c : Char} (isWord : IsWord kind) :
    Opens kind c ↔ startsWord c = true := by
  rcases isWord with fixed | rfl | rfl
  · cases kind with
    | keyword word => exact Iff.rfl
    | operator op => exact Iff.rfl
    | _ => exact fixed.elim
  · exact Iff.rfl
  · exact Iff.rfl

/-- Words are made of word characters. -/
theorem wordChars_of_spelling {kind : TokenKind} {word : List Char} (isWord : IsWord kind)
    (spelt : word ∈ spellings kind) :
    ∃ c cs, word = c :: cs ∧ startsWord c = true ∧ ∀ d ∈ cs, isWordChar d = true := by
  have named (mark : Char) (bare : List Char) (marks : startsWord mark = true)
      (isBare : bare ∈ bareNames) :
      ∃ c cs, mark :: '_' :: bare = c :: cs ∧ startsWord c = true ∧
        ∀ d ∈ cs, isWordChar d = true := by
    refine ⟨mark, '_' :: bare, rfl, marks, ?_⟩
    intro d member
    rcases List.mem_cons.1 member with rfl | inBare
    · rfl
    · have bareChar : d.isLower = true ∨ d.isDigit = true := by
        rcases mem_oneOf_mul.1 isBare with ⟨c, cs, first, all, rfl⟩
        rcases List.mem_cons.1 inBare with rfl | later
        · exact .inl first
        · simpa using mem_kstar_oneOf.1 all d later
      rcases bareChar with small | isDigit
      · have letter : (d.isUpper || d.isLower) = true := by rw [small, Bool.or_true]
        have isAlpha : d.isAlpha = true := letter
        simp [isWordChar, Char.isAlphanum, isAlpha]
      · simp [isWordChar, Char.isAlphanum, isDigit]
  -- words with a fixed meaning are checked one by one, names by their pattern
  rcases isWord with fixed | rfl | rfl
  · have all : ∀ entry ∈ TokenKind.reservedWords, entry.1.toList.head?.any startsWord = true ∧
        entry.1.toList.tail.all isWordChar = true := by
      decide
    have found := ofWord?_eq_some_iff.1 (ofWord?_ofList_iff.2 ⟨fixed, spelt⟩)
    rcases all _ found with ⟨first, rest⟩
    rw [String.toList_ofList] at first rest
    cases word with
    | nil => cases first
    | cons c cs => exact ⟨c, cs, rfl, first, List.all_eq_true.1 rest⟩
  · rcases mem_spelled_mul.1 spelt with ⟨bare, isBare, rfl⟩
    exact named 'V' bare rfl isBare
  · rcases mem_spelled_mul.1 spelt with ⟨bare, isBare, rfl⟩
    exact named 'F' bare rfl isBare

/-- Numbers are made of number characters. -/
theorem numberChars_of_spelling {word : List Char} (spelt : word ∈ number) :
    ∃ c cs, word = c :: cs ∧ startsNumber c = true ∧ ∀ d ∈ cs, isNumberChar d = true := by
  have digitChar (d : Char) (isDigit : d.isDigit = true) : isNumberChar d = true := by
    simp [isNumberChar, isDigit]
  have fractionChars {digits : List Char} (fraction : digits ∈ digit∗ * positiveDigit) :
      ∀ d ∈ digits, isNumberChar d = true := by
    have all := (Bool.and_eq_true_iff.1 (Bool.and_eq_true_iff.1 (isFraction_iff.2 fraction)).1).2
    exact fun d member => digitChar d (List.all_eq_true.1 all d member)
  -- all but the sign: a digit, then digits and points
  have unsigned {word : List Char} (numeral : isNumeral word = true) :
      ∃ c cs, word = c :: cs ∧ c.isDigit = true ∧ ∀ d ∈ cs, isNumberChar d = true := by
    rcases isNumeral_iff.1 numeral with whole | ⟨_, whole, _, fraction, rfl⟩
    · rcases exists_digits_of_whole whole with ⟨c, cs, rfl, all⟩
      exact ⟨c, cs, rfl, all c (by simp), fun d member => digitChar d (all d (by simp [member]))⟩
    · rcases exists_digits_of_whole whole with ⟨c, cs, rfl, all⟩
      rcases mem_spelled_mul.1 fraction with ⟨digits, isFraction, rfl⟩
      refine ⟨c, cs ++ '.' :: digits, rfl, all c (by simp), ?_⟩
      intro d member
      rcases List.mem_append.1 member with inWhole | inFraction
      · exact digitChar d (all d (by simp [inWhole]))
      · rcases List.mem_cons.1 inFraction with rfl | later
        · rfl
        · exact fractionChars isFraction d later
  have judged := isNumber_iff.2 spelt
  unfold isNumber at judged
  split at judged
  · rename_i inner
    rcases unsigned (Bool.and_eq_true_iff.1 judged).1 with ⟨c, cs, rfl, isDigit, rest⟩
    refine ⟨'-', c :: cs, rfl, rfl, ?_⟩
    intro d member
    rcases List.mem_cons.1 member with rfl | later
    · exact digitChar d isDigit
    · exact rest d later
  · rcases unsigned judged with ⟨c, cs, rfl, isDigit, rest⟩
    exact ⟨c, cs, rfl, by simp [startsNumber, isDigit], rest⟩

/-- A lexeme starts with a character that opens its kind. -/
theorem exists_opens_of_spelling {kind : TokenKind} {word : List Char}
    (spelt : word ∈ spellings kind) : ∃ c cs, word = c :: cs ∧ Opens kind c := by
  have ofWord (isWord : IsWord kind) : ∃ c cs, word = c :: cs ∧ Opens kind c := by
    rcases wordChars_of_spelling isWord spelt with ⟨c, cs, rfl, opens, _⟩
    exact ⟨c, cs, rfl, (opens_of_isWord isWord).2 opens⟩
  cases kind with
  | punctuation sign => exact ⟨sign.symbol, [], spelt, rfl⟩
  | keyword fixed => exact ofWord (.inl trivial)
  | operator op => exact ofWord (.inl trivial)
  | varName => exact ofWord (.inr (.inl rfl))
  | funName => exact ofWord (.inr (.inr rfl))
  | numLit =>
    rcases numberChars_of_spelling spelt with ⟨c, cs, rfl, opens, _⟩
    exact ⟨c, cs, rfl, opens⟩
  | textLit =>
    rcases mem_quotedText.1 spelt with ⟨body, _, rfl⟩
    exact ⟨'"', body ++ ['"'], rfl, rfl⟩
  | trivia => exact spelt.elim
  | eof => exact spelt.elim

/-- The first character of a spelling opens its kind. -/
theorem opens_of_spelling {kind : TokenKind} {c : Char} {cs : List Char}
    (spelt : c :: cs ∈ spellings kind) : Opens kind c := by
  rcases exists_opens_of_spelling spelt with ⟨_, _, ⟨⟩, opens⟩
  exact opens

/-- Words, numbers, texts and signs are told apart by their first characters. -/
theorem cases_of_opens {kind : TokenKind} {c : Char} (opens : Opens kind c) :
    (IsWord kind ∧ startsWord c = true) ∨ (kind = .numLit ∧ startsNumber c = true) ∨
      (kind = .textLit ∧ c = '"') ∨ ∃ sign, kind = .punctuation sign ∧ c = sign.symbol := by
  cases kind with
  | punctuation sign => exact .inr (.inr (.inr ⟨sign, rfl, opens⟩))
  | keyword word => exact .inl ⟨.inl trivial, opens⟩
  | operator op => exact .inl ⟨.inl trivial, opens⟩
  | varName => exact .inl ⟨.inr (.inl rfl), opens⟩
  | funName => exact .inl ⟨.inr (.inr rfl), opens⟩
  | numLit => exact .inr (.inl ⟨rfl, opens⟩)
  | textLit => exact .inr (.inr (.inl ⟨rfl, opens⟩))
  | trivia => exact opens.elim
  | eof => exact opens.elim

/-- Letters are those from `A` to `Z` and from `a` to `z`. -/
theorem isAlpha_iff_toNat {c : Char} :
    c.isAlpha = true ↔
      (65 ≤ c.toNat ∧ c.toNat ≤ 90) ∨ (97 ≤ c.toNat ∧ c.toNat ≤ 122) := by
  have tests : c.isAlpha = (decide (c.val ≥ 'A'.val ∧ c.val ≤ 'Z'.val) ||
      (decide (c.val ≥ 'a'.val) && decide (c.val ≤ 'z'.val))) := rfl
  rw [tests, Bool.or_eq_true, Bool.and_eq_true, decide_eq_true_eq, decide_eq_true_eq,
    decide_eq_true_eq]
  exact Iff.rfl

/-- Letters, digits and underscores lie between `0` and `z`. -/
theorem toNat_bounds_of_isWordChar {c : Char} (isChar : isWordChar c = true) :
    48 ≤ c.toNat ∧ c.toNat ≤ 122 := by
  simp only [isWordChar, Char.isAlphanum, Bool.or_eq_true, isAlpha_iff_toNat,
    Char.isDigit_iff_toNat, beq_iff_eq] at isChar
  rcases isChar with (letters | digits) | rfl
  · omega
  · have : 48 ≤ c.toNat ∧ c.toNat ≤ 57 := digits
    omega
  · decide

/-- What a word starts with may also stand inside it. -/
theorem isWordChar_of_startsWord {c : Char} (opens : startsWord c = true) :
    isWordChar c = true := by
  simp only [startsWord, Bool.or_eq_true] at opens
  rcases opens with letter | underscore
  · simp [isWordChar, Char.isAlphanum, letter]
  · simp [isWordChar, underscore]

/-- Words and numbers start differently. -/
theorem startsNumber_eq_false_of_startsWord {c : Char} (opens : startsWord c = true) :
    startsNumber c = false := by
  cases number : startsNumber c with
  | false => rfl
  | true =>
    simp only [startsNumber, Bool.or_eq_true, beq_iff_eq, Char.isDigit_iff_toNat] at number
    rcases number with digits | rfl
    · simp only [startsWord, Bool.or_eq_true, isAlpha_iff_toNat, beq_iff_eq] at opens
      have : 48 ≤ c.toNat ∧ c.toNat ≤ 57 := digits
      rcases opens with letters | rfl
      · omega
      · exact absurd this (by decide)
    · exact absurd opens (by decide)

/-- Punctuation opens nothing else. -/
theorem symbol_opens_nothing (sign : Punctuation) :
    sign.symbol ≠ '"' ∧ startsNumber sign.symbol = false ∧ startsWord sign.symbol = false ∧
      Punctuation.ofSymbol? sign.symbol = some sign := by
  cases sign <;> decide

/-! ## Chunks -/

/-- A front of a list is what `takeWhile` takes if the next element ends it. -/
theorem takeWhile_append_eq_left_iff {p : Char → Bool} {cs rest : List Char} :
    (cs ++ rest).takeWhile p = cs ↔
      (∀ c ∈ cs, p c = true) ∧ ∀ c ∈ rest.head?, p c = false := by
  constructor
  · intro taken
    have all : ∀ c ∈ cs, p c = true := by
      rw [← taken]
      exact fun c member => List.mem_takeWhile_imp member
    refine ⟨all, ?_⟩
    rw [List.takeWhile_append_of_pos all, List.append_right_eq_self] at taken
    cases rest with
    | nil => simp
    | cons c cs => simpa using taken
  · rintro ⟨all, ends⟩
    rw [List.takeWhile_append_of_pos all, List.append_right_eq_self]
    cases rest with
    | nil => rfl
    | cons c cs => simp [ends c rfl]

/-- Of the words, the chunks are those that no word character follows. -/
theorem continues_of_isWord {kind : TokenKind} (isWord : IsWord kind) (c : Char) :
    continues kind c = isWordChar c := by
  rcases isWord with fixed | rfl | rfl
  · cases kind with
    | keyword word => rfl
    | operator op => rfl
    | _ => exact fixed.elim
  · rfl
  · rfl

variable {c : Char} {cs rest : List Char} {kind : TokenKind}

/-- A text ends at its closing quote, so nothing behind it matters. -/
theorem chunk_text_iff :
    chunkTail '"' (cs ++ rest) = cs ∧ classify '"' cs = .ok kind ↔
      '"' :: cs ∈ spellings kind ∧ ∀ d ∈ rest.head?, continues kind d = false := by
  constructor
  · rintro ⟨-, spells⟩
    by_cases isText : isText ('"' :: cs) = true
    · simp only [classify, isText, if_true, Except.ok.injEq] at spells
      subst spells
      exact ⟨isText_iff.1 isText, fun _ _ => rfl⟩
    · simp [classify, isText] at spells
  · rintro ⟨spelt, -⟩
    -- only texts are opened by a quote
    rcases cases_of_opens (opens_of_spelling spelt) with ⟨_, opens⟩ | ⟨_, opens⟩ | ⟨rfl, _⟩ |
      ⟨sign, _, isSign⟩
    · exact absurd opens (by decide)
    · exact absurd opens (by decide)
    · refine ⟨?_, by simp [classify, isText_iff.2 spelt]⟩
      rcases mem_quotedText.1 spelt with ⟨body, all, same⟩
      cases same
      have atQuote : body ++ ['"'] ++ rest = body ++ '"' :: rest := by simp
      rw [atQuote]
      simp [chunkTail, List.takeWhile_append_of_pos all, List.dropWhile_append_of_pos all,
        isTextChar, closingQuote]
    · exact absurd isSign.symm (symbol_opens_nothing sign).1

/-- A number ends where its digits end. -/
theorem chunk_number_iff (notQuote : c ≠ '"') (opens : startsNumber c = true) :
    chunkTail c (cs ++ rest) = cs ∧ classify c cs = .ok kind ↔
      c :: cs ∈ spellings kind ∧ ∀ d ∈ rest.head?, continues kind d = false := by
  have chunk : chunkTail c (cs ++ rest) = (cs ++ rest).takeWhile isNumberChar := by
    simp [chunkTail, notQuote, opens]
  rw [chunk, takeWhile_append_eq_left_iff]
  constructor
  · rintro ⟨⟨_, ends⟩, spells⟩
    by_cases judged : isNumber (c :: cs) = true
    · simp only [classify, notQuote, opens, judged, if_true, if_false, Except.ok.injEq] at spells
      subst spells
      exact ⟨isNumber_iff.1 judged, ends⟩
    · simp [classify, notQuote, opens, judged] at spells
  · rintro ⟨spelt, ends⟩
    -- only numbers are opened like this
    rcases cases_of_opens (opens_of_spelling spelt) with ⟨_, isWord⟩ | ⟨rfl, _⟩ | ⟨_, isQuote⟩ |
      ⟨sign, _, rfl⟩
    · exact absurd opens (by simp [startsNumber_eq_false_of_startsWord isWord])
    · rcases numberChars_of_spelling spelt with ⟨_, _, ⟨⟩, _, all⟩
      exact ⟨⟨all, ends⟩, by simp [classify, notQuote, opens, isNumber_iff.2 spelt]⟩
    · exact absurd isQuote notQuote
    · exact absurd opens (by simp [(symbol_opens_nothing sign).2.1])

/-- A word ends where its characters end. -/
theorem chunk_word_iff (notQuote : c ≠ '"') (notNumber : startsNumber c = false)
    (opens : startsWord c = true) :
    chunkTail c (cs ++ rest) = cs ∧ classify c cs = .ok kind ↔
      c :: cs ∈ spellings kind ∧ ∀ d ∈ rest.head?, continues kind d = false := by
  have chunk : chunkTail c (cs ++ rest) = (cs ++ rest).takeWhile isWordChar := by
    simp [chunkTail, notQuote, notNumber, opens]
  have judge : classify c cs = classifyWord (c :: cs) := by
    simp [classify, notQuote, notNumber, opens]
  rw [chunk, judge, takeWhile_append_eq_left_iff, classifyWord_eq_ok_iff]
  constructor
  · rintro ⟨⟨_, ends⟩, isWord, spelt⟩
    refine ⟨spelt, ?_⟩
    intro d next
    rw [continues_of_isWord isWord]
    exact ends d next
  · rintro ⟨spelt, ends⟩
    -- the first character leaves only the kinds of words
    rcases cases_of_opens (opens_of_spelling spelt) with ⟨isWord, _⟩ | ⟨_, isNumber⟩ |
      ⟨_, isQuote⟩ | ⟨sign, _, rfl⟩
    · rcases wordChars_of_spelling isWord spelt with ⟨_, _, ⟨⟩, _, all⟩
      refine ⟨⟨all, ?_⟩, isWord, spelt⟩
      intro d next
      rw [← continues_of_isWord isWord]
      exact ends d next
    · exact absurd isNumber (by simp [notNumber])
    · exact absurd isQuote notQuote
    · exact absurd opens (by simp [(symbol_opens_nothing sign).2.2.1])

/-- A sign stands alone. -/
theorem chunk_sign_iff (notQuote : c ≠ '"') (notNumber : startsNumber c = false)
    (notWord : startsWord c = false) :
    chunkTail c (cs ++ rest) = cs ∧ classify c cs = .ok kind ↔
      c :: cs ∈ spellings kind ∧ ∀ d ∈ rest.head?, continues kind d = false := by
  have chunk : chunkTail c (cs ++ rest) = [] := by
    simp [chunkTail, notQuote, notNumber, notWord]
  rw [chunk]
  constructor
  · rintro ⟨rfl, spells⟩
    cases found : Punctuation.ofSymbol? c with
    | none => simp [classify, notQuote, notNumber, notWord, found] at spells
    | some sign =>
      have isSign : sign.symbol = c := by
        simpa using List.find?_some found
      simp only [classify, notQuote, notNumber, notWord, found, if_false, Except.ok.injEq,
        Bool.false_eq_true] at spells
      subst spells isSign
      exact ⟨rfl, fun _ _ => rfl⟩
  · rintro ⟨spelt, -⟩
    -- the first character leaves only the signs, which are spelt with one character
    rcases cases_of_opens (opens_of_spelling spelt) with ⟨_, isWord⟩ | ⟨_, isNumber⟩ |
      ⟨_, isQuote⟩ | ⟨sign, rfl, isSign⟩
    · exact absurd isWord (by simp [notWord])
    · exact absurd isNumber (by simp [notNumber])
    · exact absurd isQuote notQuote
    · have alone : cs = [] := (List.cons.inj spelt).2
      subst isSign alone
      exact ⟨rfl, by simp [classify, notQuote, notNumber, notWord, symbol_opens_nothing]⟩

/-- What is read as one chunk and judged to be a token is a spelling that does not go on. -/
theorem chunk_iff :
    chunkTail c (cs ++ rest) = cs ∧ classify c cs = .ok kind ↔
      c :: cs ∈ spellings kind ∧ ∀ d ∈ rest.head?, continues kind d = false := by
  by_cases isQuote : c = '"'
  · subst isQuote
    exact chunk_text_iff
  cases isNumber : startsNumber c with
  | true => exact chunk_number_iff isQuote isNumber
  | false =>
    cases isWord : startsWord c with
    | true => exact chunk_word_iff isQuote isNumber isWord
    | false => exact chunk_sign_iff isQuote isNumber isWord

/-! ## Blanks -/

/-- Blanks lie outside this range. -/
theorem isBlank_eq_false_of_bounds (bounds : 33 ≤ c.toNat ∧ c.toNat ≤ 122) :
    Text.isBlank c = false := by
  simp only [Text.isBlank, Text.blankRanges, List.any_cons, List.any_nil, Bool.or_false,
    Bool.or_eq_false_iff, Bool.and_eq_false_iff, decide_eq_false_iff_not]
  omega

theorem isBlank_eq_false_of_isWordChar (isChar : isWordChar c = true) : Text.isBlank c = false := by
  have bounds := toNat_bounds_of_isWordChar isChar
  exact isBlank_eq_false_of_bounds ⟨by omega, bounds.2⟩

theorem isBlank_eq_false_of_isDigit (isDigit : c.isDigit = true) : Text.isBlank c = false :=
  isBlank_eq_false_of_isWordChar (by simp [isWordChar, Char.isAlphanum, isDigit])

theorem isBlank_eq_false_of_startsNumber (opens : startsNumber c = true) :
    Text.isBlank c = false := by
  simp only [startsNumber, Bool.or_eq_true, beq_iff_eq] at opens
  rcases opens with isDigit | rfl
  · exact isBlank_eq_false_of_isDigit isDigit
  · decide

/-- Lexemes do not start with blanks. -/
theorem isBlank_eq_false_of_spelling (spelt : c :: cs ∈ spellings kind) :
    Text.isBlank c = false := by
  rcases cases_of_opens (opens_of_spelling spelt) with ⟨_, isWord⟩ | ⟨_, isNumber⟩ | ⟨_, rfl⟩ |
    ⟨sign, _, rfl⟩
  · exact isBlank_eq_false_of_isWordChar (isWordChar_of_startsWord isWord)
  · exact isBlank_eq_false_of_startsNumber isNumber
  · decide
  · cases sign <;> decide

/-! ## Lexemes on a line -/

/-- A lexeme is a quoted text, or holds neither quotes nor blanks. -/
theorem quoted_or_visible_of_spelling {word : List Char} (spelt : word ∈ spellings kind) :
    word ∈ quotedText ∨ ∀ c ∈ word, c ≠ '"' ∧ Text.isBlank c = false := by
  have wordChar {c : Char} (isChar : isWordChar c = true) : c ≠ '"' ∧ Text.isBlank c = false := by
    refine ⟨?_, isBlank_eq_false_of_isWordChar isChar⟩
    rintro rfl
    cases isChar
  rcases exists_opens_of_spelling spelt with ⟨c, cs, rfl, opens⟩
  -- words, numbers, texts and signs, told apart by their first character
  rcases cases_of_opens opens with ⟨isWord, _⟩ | ⟨rfl, _⟩ | ⟨rfl, _⟩ | ⟨sign, rfl, _⟩
  · right
    rcases wordChars_of_spelling isWord spelt with ⟨_, _, ⟨⟩, first, later⟩
    exact List.forall_mem_cons.2
      ⟨wordChar (isWordChar_of_startsWord first), fun d member => wordChar (later d member)⟩
  · right
    rcases numberChars_of_spelling spelt with ⟨_, _, ⟨⟩, first, later⟩
    have digit {d : Char} (isDigit : d.isDigit = true) : d ≠ '"' ∧ Text.isBlank d = false :=
      wordChar (by simp [isWordChar, Char.isAlphanum, isDigit])
    simp only [startsNumber, isNumberChar, Bool.or_eq_true, beq_iff_eq] at first later
    refine List.forall_mem_cons.2 ⟨?_, fun d member => ?_⟩
    · rcases first with isDigit | rfl
      · exact digit isDigit
      · decide
    · rcases later d member with isDigit | rfl
      · exact digit isDigit
      · decide
  · exact .inl spelt
  · right
    have alone : c :: cs = [sign.symbol] := spelt
    rw [alone, List.forall_mem_singleton]
    cases sign <;> decide

/-- No lexeme reaches over the end of a line. -/
theorem not_mem_feed_of_spelling {word : List Char} (spelt : word ∈ spellings kind) :
    '\n' ∉ word := by
  intro feed
  rcases quoted_or_visible_of_spelling spelt with quoted | visible
  · rcases mem_quotedText.1 quoted with ⟨body, inside, rfl⟩
    simp only [List.mem_cons, List.mem_append, List.not_mem_nil, or_false] at feed
    rcases feed with quote | inBody | quote
    · cases quote
    · cases inside _ inBody
    · cases quote
  · exact absurd (visible _ feed).2 (by decide)

end Lexeme

end SplBasic
