import SplBasic.Proofs.DerivationTrees
import SplBasic.Proofs.RepeatedPasses
import SplBasic.Proofs.UnambiguousTerms

/-!
# Trees are told apart by their listings

The listing of a parse tree has one node a line, indented by its depth. Nothing but the places of
tokens is lost in it: two programs that were read from texts, whatever passes were run on them, have
the same listing exactly if they have the same tree but for places (`render_eq_iff_unplaced_eq`).

* `Mark.unplaced_eq_of_text_eq` : the text of a node tells what the node is,
* `Forest.eq_of_levels_append_eq` : nodes in preorder with their depths make up one forest only,
* `HasLines.unique` : a text is cut into lines in one way only,
* `ParseTree.Unbroken` : trees whose nodes stand on one line each. The trees of programs are such
  trees (`Session.unbroken_parseTree`), since no lexeme reaches over the end of a line.
-/

namespace SplBasic

/-! ## Nodes -/

def nodeLabels : List String :=
  TokenKind.all.map TokenKind.label ++ GrammarSymbol.all.map GrammarSymbol.label

/-- No two labels are alike. -/
theorem nodup_nodeLabels : nodeLabels.Nodup := by
  decide +kernel

theorem TokenKind.mem_all (kind : TokenKind) : kind ∈ all := by
  cases kind with
  | punctuation sign => cases sign <;> decide
  | keyword word => cases word <;> decide
  | operator op =>
    have listed : operator op ∈ Operator.all.map operator := List.mem_map_of_mem op.mem_all
    exact List.mem_append_left _ (List.mem_append_right _ listed)
  | _ => decide

/-- The label of a token tells its kind. -/
theorem TokenKind.label_injective {kind kind' : TokenKind} (same : kind.label = kind'.label) :
    kind = kind' :=
  List.inj_on_of_nodup_map (List.nodup_append.1 nodup_nodeLabels).1 kind.mem_all kind'.mem_all same

/-- The label of a symbol tells the symbol. -/
theorem GrammarSymbol.label_injective {s s' : GrammarSymbol} (same : s.label = s'.label) : s = s' :=
  List.inj_on_of_nodup_map (List.nodup_append.1 nodup_nodeLabels).2.1 s.mem_all s'.mem_all same

/-- No token is labelled like a symbol. -/
theorem TokenKind.label_ne_label (kind : TokenKind) (s : GrammarSymbol) : kind.label ≠ s.label :=
  (List.nodup_append.1 nodup_nodeLabels).2.2 _ (List.mem_map_of_mem kind.mem_all) _
    (List.mem_map_of_mem s.mem_all)

namespace Ty

theorem ofName?_name (tag : Ty) : ofName? tag.name = some tag := by
  cases tag with
  | unknown => rfl
  | num => rfl
  | text => rfl
  | void => rfl
  | bool => rfl

/-- The name of a tag tells the tag. -/
theorem name_injective : Function.Injective Ty.name := by
  intro tag tag' same
  have read : ofName? tag.name = ofName? tag'.name := congrArg ofName? same
  rwa [ofName?_name, ofName?_name, Option.some.injEq] at read

end Ty

namespace Mark

/-- The node without the place of its token. -/
def unplaced : Mark → Mark
  | terminal token => terminal token.unplaced
  | nonterminal symbol tag => nonterminal symbol tag

/-- The first word of a node in listings. -/
def label : Mark → String
  | terminal token => token.kind.label
  | nonterminal symbol _ => symbol.label

/-- What stands behind the first word of a node. -/
def details : Mark → String
  | terminal token => " " ++ token.lexeme
  | nonterminal _ .unknown => ""
  | nonterminal _ tag => " : " ++ tag.name

/-- Places are not shown. -/
theorem text_unplaced (m : Mark) : m.unplaced.text = m.text := by
  cases m with
  | terminal token => rfl
  | nonterminal symbol tag => rfl

/-- The text of a node starts with its label. -/
theorem text_eq (m : Mark) : m.text = m.label ++ m.details := by
  rcases m with token | ⟨symbol, tag⟩
  · simp only [text, label, details, String.append_assoc]
  · cases tag with
    | unknown => simp [text, label, details]
    | num => simp [text, label, details, String.append_assoc]
    | text => simp [text, label, details, String.append_assoc]
    | void => simp [text, label, details, String.append_assoc]
    | bool => simp [text, label, details, String.append_assoc]

theorem label_mem (m : Mark) : m.label ∈ nodeLabels := by
  cases m with
  | terminal token =>
    exact List.mem_append_left _ (List.mem_map_of_mem token.kind.mem_all)
  | nonterminal symbol tag =>
    exact List.mem_append_right _ (List.mem_map_of_mem symbol.mem_all)

/-- Labels have no blank in them, so the label of a node ends at the first one. -/
theorem notBlank_of_mem_label (m : Mark) : ∀ c ∈ m.label.toList, (c != ' ') = true := by
  have all : (nodeLabels.all fun label => label.toList.all (· != ' ')) = true := by decide +kernel
  exact List.all_eq_true.1 (List.all_eq_true.1 all _ m.label_mem)

theorem exists_first (m : Mark) : ∃ c cs, m.label.toList = c :: cs := by
  have all : (nodeLabels.all fun label => !label.toList.isEmpty) = true := by decide +kernel
  have notEmpty := List.all_eq_true.1 all _ m.label_mem
  cases chars : m.label.toList with
  | nil => simp [chars] at notEmpty
  | cons c cs => exact ⟨c, cs, rfl⟩

/-- A tag is shown if it is known. -/
theorem details_nonterminal (symbol : GrammarSymbol) (tag : Ty) :
    (nonterminal symbol tag).details = if tag = .unknown then "" else " : " ++ tag.name := by
  cases tag with
  | unknown => rfl
  | num => rfl
  | text => rfl
  | void => rfl
  | bool => rfl

/-- What follows the label starts with a blank. -/
theorem blank_of_mem_details (m : Mark) : ∀ c ∈ m.details.toList.head?, (c != ' ') = false := by
  cases m with
  | terminal token => simp [details]
  | nonterminal symbol tag =>
    rw [details_nonterminal]
    split
    · simp
    · simp

/-- What stands behind the first word of an inner node tells its tag. -/
theorem tag_eq_of_details_eq {symbol symbol' : GrammarSymbol} {tag tag' : Ty}
    (same : (nonterminal symbol tag).details = (nonterminal symbol' tag').details) :
    tag = tag' := by
  rw [details_nonterminal, details_nonterminal] at same
  by_cases unknown : tag = .unknown
  · by_cases unknown' : tag' = .unknown
    · rw [unknown, unknown']
    · simp [unknown, unknown'] at same
  · by_cases unknown' : tag' = .unknown
    · simp [unknown, unknown'] at same
    · rw [if_neg unknown, if_neg unknown', String.append_right_inj] at same
      exact Ty.name_injective same

/-- The text of a node tells what the node is, but for the place of its token. -/
theorem unplaced_eq_of_text_eq {m m' : Mark} (same : m.text = m'.text) :
    m.unplaced = m'.unplaced := by
  -- the label reaches up to the first blank
  have chars : m.label.toList ++ m.details.toList = m'.label.toList ++ m'.details.toList := by
    rw [← String.toList_append, ← String.toList_append, ← text_eq, ← text_eq, same]
  rcases eq_of_append_eq_of_ends m.notBlank_of_mem_label m.blank_of_mem_details
    m'.notBlank_of_mem_label m'.blank_of_mem_details chars with ⟨labels, rests⟩
  have labels : m.label = m'.label := String.toList_injective labels
  have rests : m.details = m'.details := String.toList_injective rests
  cases m with
  | terminal token =>
    cases m' with
    | terminal token' =>
      have kinds : token.kind = token'.kind := TokenKind.label_injective labels
      have lexemes : token.lexeme = token'.lexeme := by simpa [details] using rests
      simp only [unplaced, Token.unplaced, kinds, lexemes]
    | nonterminal symbol tag => exact absurd labels (token.kind.label_ne_label symbol)
  | nonterminal symbol tag =>
    cases m' with
    | terminal token => exact absurd labels.symm (token.kind.label_ne_label symbol)
    | nonterminal symbol' tag' =>
      have symbols : symbol = symbol' := GrammarSymbol.label_injective labels
      rw [symbols, tag_eq_of_details_eq rests]

end Mark

/-! ## Forests by depth -/

namespace Forest

variable {α β : Type}

/-- The nodes in preorder, each with its depth. -/
def levels (depth : Nat) (f : Forest α) : List (Nat × α) :=
  (f.outline depth).map fun (d, a, _) => (d, a)

/-- A root stands in front of its children, which are one deeper, and of its neighbours. -/
@[simp] theorem levels_cons (depth : Nat) (root : α) (children rest : Forest α) :
    (cons root children rest).levels depth =
      (depth, root) :: (children.levels (depth + 1) ++ rest.levels depth) := by
  simp [levels, outline]

/-- Changing nodes keeps their depths. -/
theorem levels_map (g : α → β) (depth : Nat) (f : Forest α) :
    (f.map g).levels depth = (f.levels depth).map (Prod.map id g) := by
  induction f generalizing depth with
  | nil => rfl
  | cons root children rest ihChildren ihRest =>
    simp only [map, levels_cons, ihChildren, ihRest, List.map_cons, List.map_append, Prod.map, id]

theorem snd_mem_of_mem_levels {f : Forest α} {depth : Nat} {node : Nat × α}
    (member : node ∈ f.levels depth) : node.2 ∈ f.toList := by
  induction f generalizing depth with
  | nil => cases member
  | cons root children rest ihChildren ihRest =>
    rw [levels_cons, List.mem_cons, List.mem_append] at member
    rw [toList, List.mem_cons, List.mem_append]
    rcases member with rfl | below | behind
    · exact .inl rfl
    · exact .inr (.inl (ihChildren below))
    · exact .inr (.inr (ihRest behind))

/-- What follows a forest at some depth, if anything, is less deep. -/
def Shallower (depth : Nat) (rest : List (Nat × α)) : Prop :=
  ∀ node ∈ rest.head?, node.1 < depth

/-- What follows the nodes of a forest at some depth is not deeper than them. -/
theorem Shallower.levels_append {depth : Nat} {rest : List (Nat × α)}
    (shallower : Shallower depth rest) (f : Forest α) :
    Shallower (depth + 1) (f.levels depth ++ rest) := by
  intro node first
  cases f with
  | nil => exact Nat.lt_succ_of_lt (shallower node first)
  | cons root children others =>
    rw [levels_cons, List.cons_append, List.head?_cons, Option.mem_some_iff] at first
    rw [← first]
    exact Nat.lt_succ_self depth

/-- A shallower rest is no root at this depth. -/
theorem Shallower.ne_levels_cons {depth : Nat} {rest later : List (Nat × α)}
    (shallower : Shallower depth rest) (root : α) (children others : Forest α) :
    rest ≠ (cons root children others).levels depth ++ later := by
  intro same
  rw [same, levels_cons] at shallower
  exact Nat.lt_irrefl depth (shallower (depth, root) rfl)

/-- Nodes in preorder with their depths make up one forest only. -/
theorem eq_of_levels_append_eq {f g : Forest α} {depth : Nat} {rest rest' : List (Nat × α)}
    (shallower : Shallower depth rest) (shallower' : Shallower depth rest')
    (same : f.levels depth ++ rest = g.levels depth ++ rest') : f = g ∧ rest = rest' := by
  induction f generalizing g depth rest rest' with
  | nil =>
    cases g with
    | nil => exact ⟨rfl, same⟩
    | cons root children others => exact absurd same (shallower.ne_levels_cons root children others)
  | cons root children others ihChildren ihOthers =>
    cases g with
    | nil => exact absurd same.symm (shallower'.ne_levels_cons root children others)
    | cons root' children' others' =>
      simp only [levels_cons, List.cons_append, List.append_assoc, List.cons.injEq, Prod.mk.injEq,
        true_and] at same
      rcases same with ⟨rfl, below⟩
      -- the children end at the first node that is no deeper than the root
      rcases ihChildren (shallower.levels_append others) (shallower'.levels_append others')
        below with ⟨rfl, behind⟩
      rcases ihOthers shallower shallower' behind with ⟨rfl, rests⟩
      exact ⟨rfl, rests⟩

/-- A forest is told by the depths of its nodes in preorder. -/
theorem levels_injective {f g : Forest α} {depth : Nat} (same : f.levels depth = g.levels depth) :
    f = g := by
  have shallower : Shallower depth ([] : List (Nat × α)) := by
    intro node first
    cases first
  exact (eq_of_levels_append_eq shallower shallower (congrArg (· ++ []) same)).1

end Forest

/-! ## Lines -/

/-- A text is cut into lines in one way only. -/
theorem HasLines.unique {text : String} {lines lines' : List String} (has : HasLines text lines)
    (has' : HasLines text lines') : lines = lines' := by
  have notFeed {line : String} (unbroken : Unbroken line) :
      ∀ c ∈ line.toList, (c != '\n') = true := by
    intro c member
    apply bne_iff_ne.2
    rintro rfl
    exact unbroken member
  have feed (u : List Char) : ∀ c ∈ ('\n' :: u).head?, (c != '\n') = false := by simp
  have whole := has.whole.symm.trans has'.whole
  have unbroken := has.unbroken
  have unbroken' := has'.unbroken
  -- what is left to say is about the two lists of lines only, so the induction takes them apart
  -- together
  clear has has'
  induction lines generalizing lines' with
  | nil =>
    cases lines' with
    | nil => rfl
    | cons line rest' => simpa using congrArg String.toList whole
  | cons line rest ih =>
    cases lines' with
    | nil => simpa using congrArg String.toList whole
    | cons line' rest' =>
      rcases List.forall_mem_cons.1 unbroken with ⟨first, later⟩
      rcases List.forall_mem_cons.1 unbroken' with ⟨first', later'⟩
      have chars : line.toList ++ '\n' :: (String.join (rest.map (· ++ "\n"))).toList =
          line'.toList ++ '\n' :: (String.join (rest'.map (· ++ "\n"))).toList := by
        simpa [String.join_cons] using congrArg String.toList whole
      -- both first lines end at the first line feed of the text
      rcases eq_of_append_eq_of_ends (notFeed first) (feed _) (notFeed first') (feed _) chars with
        ⟨lines, behind⟩
      rw [String.toList_injective lines,
        ih (String.toList_injective (List.cons.inj behind).2) later later']

namespace ParseTree

def unplaced (d : ParseTree) : ParseTree :=
  d.map Mark.unplaced

/-- Every node of the tree stands on one line. -/
def Unbroken (d : ParseTree) : Prop :=
  ∀ m ∈ d.toList, SplBasic.Unbroken m.text

/-- The line of a node at some depth. -/
def line (node : Nat × Mark) : String :=
  Text.spaces (2 * node.1) ++ node.2.text

theorem line_unplaced (node : Nat × Mark) : line (Prod.map id Mark.unplaced node) = line node := by
  simp only [line, Prod.map, id, Mark.text_unplaced]

/-- The listing of a tree has one line for each node. -/
theorem render_eq (d : ParseTree) :
    d.render = String.join (((d.levels 0).map line).map (· ++ "\n")) := by
  simp only [render, Forest.levels, List.map_map]
  rfl

/-- If no node is broken over two lines, these are the lines of the listing. -/
theorem hasLines_render {d : ParseTree} (unbroken : d.Unbroken) :
    HasLines d.render ((d.levels 0).map line) := by
  refine ⟨d.render_eq, ?_⟩
  rw [List.forall_mem_map]
  intro node member
  have spaces (n : Nat) : SplBasic.Unbroken (Text.spaces n) := by
    simp [SplBasic.Unbroken, Text.spaces]
  exact unbroken_append.2 ⟨spaces _, unbroken _ (Forest.snd_mem_of_mem_levels member)⟩

/-- A line tells the depth of its node, and the node but for its place. -/
theorem eq_of_line_eq {node node' : Nat × Mark} (same : line node = line node') :
    Prod.map id Mark.unplaced node = Prod.map id Mark.unplaced node' := by
  rcases node with ⟨depth, m⟩
  rcases node' with ⟨depth', m'⟩
  have blanks (n : Nat) : ∀ c ∈ (Text.spaces n).toList, (c == ' ') = true := by
    simp [Text.spaces]
  -- the indentation ends at the label, which does not start with a blank
  have ends (m : Mark) : ∀ c ∈ m.text.toList.head?, (c == ' ') = false := by
    rcases m.exists_first with ⟨c, cs, chars⟩
    have notBlank := m.notBlank_of_mem_label c (chars ▸ List.mem_cons_self)
    intro d first
    rw [m.text_eq, String.toList_append, chars, List.cons_append, List.head?_cons,
      Option.mem_some_iff] at first
    rw [← first]
    simpa using notBlank
  have chars : (Text.spaces (2 * depth)).toList ++ m.text.toList =
      (Text.spaces (2 * depth')).toList ++ m'.text.toList := by
    rw [← String.toList_append, ← String.toList_append]
    exact congrArg String.toList same
  rcases eq_of_append_eq_of_ends (blanks _) (ends m) (blanks _) (ends m') chars with
    ⟨indentations, texts⟩
  have widths : 2 * depth = 2 * depth' := by
    simpa [Text.spaces] using congrArg List.length indentations
  have depths : depth = depth' := by omega
  have marks := Mark.unplaced_eq_of_text_eq (String.toList_injective texts)
  simp only [Prod.map, id, depths, marks]

/-- The listing of a tree tells the tree but for places. -/
theorem unplaced_eq_of_render_eq {d e : ParseTree} (unbroken : d.Unbroken) (unbroken' : e.Unbroken)
    (same : d.render = e.render) : d.unplaced = e.unplaced := by
  have lines : (d.levels 0).map line = (e.levels 0).map line := by
    apply (hasLines_render unbroken).unique
    rw [same]
    exact hasLines_render unbroken'
  -- the lines agree one for one, so the nodes do
  rw [← List.forall₂_eq_eq_eq, List.forall₂_map_left_iff, List.forall₂_map_right_iff] at lines
  have nodes : (d.levels 0).map (Prod.map id Mark.unplaced) =
      (e.levels 0).map (Prod.map id Mark.unplaced) := by
    rw [← List.forall₂_eq_eq_eq, List.forall₂_map_left_iff, List.forall₂_map_right_iff]
    exact lines.imp fun _ _ => eq_of_line_eq
  have levels : d.unplaced.levels 0 = e.unplaced.levels 0 := by
    calc d.unplaced.levels 0
        = (d.levels 0).map (Prod.map id Mark.unplaced) := Forest.levels_map _ _ _
      _ = (e.levels 0).map (Prod.map id Mark.unplaced) := nodes
      _ = e.unplaced.levels 0 := (Forest.levels_map _ _ _).symm
  exact Forest.levels_injective levels

/-- The listing of a tree does not show places. -/
theorem render_unplaced (d : ParseTree) : d.unplaced.render = d.render := by
  have lines : (d.unplaced.levels 0).map line = (d.levels 0).map line := by
    rw [unplaced, Forest.levels_map, List.map_map]
    exact List.map_congr_left fun node _ => line_unplaced node
  rw [render_eq, render_eq, lines]

end ParseTree

/-! ## Tags are not at the leaves -/

theorem ParseTree.yield_symbol (s : GrammarSymbol) (d : ParseTree) : (symbol s d).yield = d.yield :=
  yield_tagged s .unknown d

open ParseTree (yield_append)

theorem Change.word_untag (token : Token) : Change.untag.word token = token := rfl

theorem Brackets.map_untag (brackets : Brackets) : brackets.map .untag = brackets := rfl

/-- The leaves are the same with or without tags; tags stand at inner nodes. -/
theorem Atom.yield_content_untag (a : Atom) : (a.map .untag).content.yield = a.content.yield := by
  cases a with
  | name n => rfl
  | literal l => rfl

theorem Atom.yield_untag (a : Atom) : (a.map .untag).parseTree.yield = a.parseTree.yield := by
  simp only [parseTree, ParseTree.yield_tagged, a.yield_content_untag]

/-- Whatever role an expression has, its leaves do not depend on tags. -/
theorem Expr.yield_untag (role : GrammarSymbol) (e : Expr) :
    ((e.map .untag).parseTreeAs role).yield = (e.parseTreeAs role).yield := by
  induction e generalizing role with
  | atom a => exact a.yield_untag
  | unary op token operand tag ih =>
    simp only [map, Change.word_untag, parseTreeAs, ParseTree.yield_tagged, yield_append, ih]
  | binary op token left right tag ihLeft ihRight =>
    simp only [map, Change.word_untag, parseTreeAs, ParseTree.yield_tagged, yield_append, ihLeft,
      ihRight]

theorem Call.yield_untag (c : Call) : (c.map .untag).parseTree.yield = c.parseTree.yield := by
  simp only [map, parseTree, Triple.map, ParseTree.yield_tagged, yield_append, Atom.yield_untag]
  rfl

theorem Term.yield_untag (value : Term) :
    (value.map .untag).parseTree.yield = value.parseTree.yield := by
  rw [parseTree, parseTree, ParseTree.yield_tagged, ParseTree.yield_tagged]
  cases value with
  | expr e =>
    cases e with
    | atom a => exact a.yield_content_untag
    | unary op token operand tag => exact Expr.yield_untag .operation _
    | binary op token left right tag => exact Expr.yield_untag .operation _
  | call c => exact c.yield_untag

theorem SimpleCommand.yield_untag (command : SimpleCommand) :
    (command.map .untag).content.yield = command.content.yield := by
  cases command with
  | skip keyword => rfl
  | halt keyword => rfl
  | print keyword value =>
    simp only [map, Change.word_untag, content, yield_append, value.yield_untag]
  | giveBack keyword value =>
    simp only [map, Change.word_untag, content, yield_append, value.yield_untag]
  | read target keyword => rfl
  | assign target value =>
    simp only [map, content, ParseTree.yield_symbol, yield_append, value.yield_untag]
    rfl
  | call c => exact c.yield_untag

/-- The leaves of commands do not depend on tags. -/
theorem Commands.yield_untag (cs : Commands) :
    (cs.map .untag).parseTree.yield = cs.parseTree.yield := by
  induction cs with
  | nil => rfl
  | simple command tag rest ih =>
    simp only [map, parseTree, ParseTree.yield_symbol, ParseTree.yield_tagged, yield_append,
      command.yield_untag, ih]
  | ifThen keyword condition brackets body tag rest ihBody ihRest =>
    simp only [map, Change.word_untag, Brackets.map_untag, parseTree, ParseTree.yield_symbol,
      ParseTree.yield_tagged, Brackets.parseTree, yield_append, condition.yield_untag, ihBody,
      ihRest]
  | ifThenElse keyword condition thenBrackets thenBody elseBrackets elseBody tag rest ihThen ihElse
      ihRest =>
    simp only [map, Change.word_untag, Brackets.map_untag, parseTree, ParseTree.yield_symbol,
      ParseTree.yield_tagged, Brackets.parseTree, yield_append, condition.yield_untag, ihThen,
      ihElse, ihRest]

theorem yield_globalsTree_untag (globals : List VarDecl) :
    (globalsTree (globals.map (VarDecl.map .untag))).yield = (globalsTree globals).yield := by
  induction globals with
  | nil => rfl
  | cons decl rest ih =>
    cases rest with
    | nil => rfl
    | cons next rest =>
      simp only [List.map_cons, globalsTree, ParseTree.yield_symbol, yield_append] at ih ⊢
      rw [ih]
      rfl

theorem Block.yield_untag (block : Block) :
    (block.map .untag).parseTree.yield = block.parseTree.yield := by
  simp only [map, Brackets.map_untag, parseTree, Brackets.parseTree, ParseTree.yield_symbol,
    yield_append, Commands.yield_untag]

/-- Nor do those of functions, at any depth. -/
theorem yield_functionsTree_untag (functions : Forest FunctionDecl) :
    (functionsTree (functions.map (FunctionDecl.map .untag))).yield =
      (functionsTree functions).yield := by
  induction functions with
  | nil => rfl
  | cons f inner rest ihInner ihRest =>
    simp only [Forest.map, functionsTree, FunctionDecl.parseTree, FunctionDecl.map,
      ParseTree.yield_symbol, yield_append, Block.yield_untag, ihInner, ihRest]
    rfl

/-- The leaves of a program do not depend on tags. -/
theorem Program.yield_untag (p : Program) : p.untag.parseTree.yield = p.parseTree.yield := by
  simp only [untag, map, Change.word_untag, parseTree, ParseTree.yield_symbol, yield_append,
    Block.yield_untag, yield_globalsTree_untag, yield_functionsTree_untag]

/-! ## Names are unique names or spelt as in the source -/

/-- The name has a unique name as its text, or the one that it was read with. -/
def Name.Spelt (n : Name) : Prop :=
  n.Numbered ∨ n.text = n.source

namespace ScopeTree

variable {n : Name}

/-- Settling a variable gives it a unique name or leaves its text alone. -/
theorem spelt_settleVariable (tree : ScopeTree) (scope : Nat) (spelt : n.Spelt) :
    (tree.settleVariable scope n).Spelt := by
  unfold settleVariable
  split
  · exact spelt
  · exact .inl ⟨.variable, tree.count .variable + 1, rfl⟩

end ScopeTree

namespace Program

variable {p : Program}

theorem spelt_bindFunction (scope : Nat) {n : Name} (spelt : n.Spelt) :
    (p.scopeTree.bindFunction scope n).Spelt := by
  unfold ScopeTree.bindFunction
  split
  · next d entry =>
    have found := (Option.filter_eq_some_iff.1 entry).1
    exact .inl (numbered_of_declaration (List.mem_of_find?_eq_some found) rfl)
  · exact spelt

/-- A used name gets the unique name of a declaration or keeps its text. -/
theorem spelt_bindUse (scope : Nat) {use : NameUse} (spelt : use.kinded.name.Spelt) :
    (use.mapNames (p.scopeTree.bindVariable scope)
      (p.scopeTree.bindCallee scope)).kinded.name.Spelt := by
  cases found : p.scopeTree.referent scope use with
  | some d =>
    exact .inl (numbered_of_declaration (ScopeTree.mem_of_referent found)
      (ScopeTree.text_of_referent found))
  | none =>
    cases use with
    | «variable» name =>
      rw [NameUse.mapNames, ScopeTree.bindVariable, found]
      exact spelt
    | callee name =>
      rw [NameUse.mapNames, ScopeTree.bindCallee, found]
      exact spelt

theorem spelt_bindBlock (scope : Nat) {block : Block}
    (spelt : ∀ n ∈ block.commands.uses.map NameUse.kinded, n.name.Spelt) :
    ∀ n ∈ (p.scopeTree.bindBlock scope block).commands.uses.map NameUse.kinded, n.name.Spelt := by
  rw [ScopeTree.uses_bindBlock, List.forall_mem_map, List.forall_mem_map]
  intro use used
  exact spelt_bindUse scope (spelt _ (List.mem_map_of_mem used))

/-- All names of a bound function are spelt so, too. -/
theorem spelt_bindDecl (before : ScopeTree) {f : Placed FunctionDecl}
    (spelt : ∀ n ∈ f.value.names, n.name.Spelt) :
    ∀ n ∈ (p.scopeTree.bindDecl before f).names, n.name.Spelt := by
  simp only [FunctionDecl.names, List.forall_mem_append, List.forall_mem_cons] at spelt ⊢
  rcases spelt with ⟨⟨own, entries⟩, uses⟩
  refine ⟨⟨spelt_bindFunction f.outer own, ?_⟩, spelt_bindBlock f.own uses⟩
  rw [List.forall_mem_map] at entries
  rw [ScopeTree.entries_bindDecl, List.map_map, List.forall_mem_map]
  rintro ⟨tree, entry⟩ site
  exact tree.spelt_settleVariable f.own (entries entry (mem_of_mem_along site))

/-- Resolving gives unique names to some names and leaves the others as they are. -/
theorem spelt_bindNames (spelt : ∀ n ∈ p.names, n.name.Spelt) :
    ∀ n ∈ (p.bindNames p.scopeTree).names, n.name.Spelt := by
  have uses : ∀ n ∈ p.block.commands.uses.map NameUse.kinded, n.name.Spelt := by
    intro n used
    exact spelt n (List.mem_append_left _ (List.mem_append_right _ used))
  rw [names, List.forall_mem_append, List.forall_mem_append]
  refine ⟨⟨?_, spelt_bindBlock ScopeTree.global uses⟩, ?_⟩
  · simp only [bindNames, List.map_map, List.forall_mem_map]
    rintro ⟨tree, decl⟩ site
    exact tree.spelt_settleVariable ScopeTree.global
      (spelt _ (global_mem_names (mem_of_mem_along site)))
  · intro n member
    rcases List.mem_flatMap.1 member with ⟨g, isFunction, isName⟩
    simp only [bindNames, Forest.toList_map] at isFunction
    rcases List.mem_map.1 isFunction with ⟨⟨before, f⟩, site, rfl⟩
    rcases mem_sites.1 site with ⟨earlier, later, split, _⟩
    have isPlaced : f ∈ p.placed.toList := by
      rw [split]
      exact List.mem_append_right _ List.mem_cons_self
    have own : ∀ m ∈ f.value.names, m.name.Spelt := by
      intro m listed
      exact spelt m (mem_names_of_function isPlaced listed)
    exact spelt_bindDecl before own n isName

end Program

/-! ## Trees of programs that were read from texts -/

/-- Tokens on one line stay so if names get unique names. -/
theorem Respelt.unbroken {ts ts' : List Token} {names : List KindedName}
    (respelt : Respelt ts names ts') (unbroken : ∀ t ∈ ts, Unbroken t.lexeme)
    (spelt : ∀ n ∈ names, n.name.Spelt) : ∀ t ∈ ts', Unbroken t.lexeme := by
  induction respelt with
  | nil => exact unbroken
  | other _ _ ih =>
    rcases List.forall_mem_cons.1 unbroken with ⟨first, later⟩
    exact List.forall_mem_cons.2 ⟨first, ih later spelt⟩
  | @name n ts ts' names _ _ ih =>
    rcases List.forall_mem_cons.1 unbroken with ⟨first, later⟩
    rcases List.forall_mem_cons.1 spelt with ⟨here, others⟩
    refine List.forall_mem_cons.2 ⟨?_, ih later others⟩
    rcases here with numbered | asRead
    · exact numbered.unbroken
    · show Unbroken n.name.text
      rw [asRead]
      exact first

/-- If the tokens at the leaves stand on one line, all nodes do. -/
theorem ParseTree.unbroken_of_yield {d : ParseTree}
    (leaves : ∀ t ∈ d.yield, SplBasic.Unbroken t.lexeme) : d.Unbroken := by
  have labels : (nodeLabels.all fun label => decide (SplBasic.Unbroken label)) = true := by
    decide +kernel
  intro m member
  -- the first word of a line is one of finitely many labels
  have label : SplBasic.Unbroken m.label :=
    of_decide_eq_true (List.all_eq_true.1 labels _ m.label_mem)
  rw [m.text_eq, unbroken_append]
  refine ⟨label, ?_⟩
  cases m with
  | terminal token =>
    have isLeaf : token ∈ d.yield := List.mem_filterMap.2 ⟨_, member, rfl⟩
    exact unbroken_append.2 ⟨by decide, leaves token isLeaf⟩
  | nonterminal symbol tag =>
    cases tag with
    | unknown => exact (by decide : SplBasic.Unbroken "")
    | num => exact (by decide : SplBasic.Unbroken (" : " ++ Ty.num.name))
    | text => exact (by decide : SplBasic.Unbroken (" : " ++ Ty.text.name))
    | void => exact (by decide : SplBasic.Unbroken (" : " ++ Ty.void.name))
    | bool => exact (by decide : SplBasic.Unbroken (" : " ++ Ty.bool.name))

/-- Without a resolving pass only tags are changed. -/
theorem Session.untag_run_of_not_mem {passes : List Pass} (unresolved : .resolve ∉ passes)
    (s : Session) : (s.run passes).program.untag = s.program.untag := by
  induction passes generalizing s with
  | nil => rfl
  | cons pass passes ih =>
    rcases not_or.1 (List.mem_cons.not.1 unresolved) with ⟨isOther, later⟩
    cases pass with
    | resolve => exact absurd rfl isOther
    | typecheck =>
      calc ((s.step .typecheck).run passes).program.untag
          = (s.step .typecheck).program.untag := ih later _
        _ = s.program.untag := Program.untag_annotate _ _

/-- Whatever passes are run on a program that was read from a text, the nodes of its tree stand on
one line each. -/
theorem Session.unbroken_parseTree {text file : String} {tokens : List Token} {p : Program}
    (read : tokenize text file = .ok tokens) (parsed : parse tokens = .ok p) (passes : List Pass) :
    ((start p).run passes).program.parseTree.Unbroken := by
  have spelt : p.SpeltBy (significant tokens) := spelt_of_parse parsed
  have shown : ∀ t ∈ (significant tokens).filter Token.isShown, Unbroken t.lexeme := by
    intro t member
    have isToken := (significant_sublist tokens).subset (List.mem_filter.1 member).1
    exact Lexeme.not_mem_feed_of_spelling (spelling_of_tokenize read t isToken)
  have texts : ∀ n ∈ p.names, n.name.Spelt := fun n member => .inr (spelt.text n member)
  apply ParseTree.unbroken_of_yield
  rw [← Program.yield_untag]
  -- up to tags the program is the parsed one, or the one behind the first resolving
  by_cases member : .resolve ∈ passes
  · have resolved : (p.bindNames p.scopeTree).asRead = p :=
      (p.asRead_bindNames p.scopeTree).trans spelt.asRead
    have displays := Program.displays (resolved.symm ▸ spelt)
    rw [((behind_run p passes).resolved member).2, Program.yield_untag]
    exact displays.yield.unbroken shown (Program.spelt_bindNames texts)
  · have displays := Program.displays (spelt.asRead.symm ▸ spelt)
    rw [untag_run_of_not_mem member, Program.yield_untag]
    exact displays.yield.unbroken shown texts

/-- Two programs that were read from texts, each behind any passes, have the same tree listing
exactly if they have the same tree but for the places of tokens. -/
theorem render_eq_iff_unplaced_eq {text file text' file' : String} {tokens tokens' : List Token}
    {p p' : Program} (read : tokenize text file = .ok tokens) (parsed : parse tokens = .ok p)
    (read' : tokenize text' file' = .ok tokens') (parsed' : parse tokens' = .ok p')
    (passes passes' : List Pass) :
    ((Session.start p).run passes).program.parseTree.render =
        ((Session.start p').run passes').program.parseTree.render ↔
      ((Session.start p).run passes).program.parseTree.unplaced =
        ((Session.start p').run passes').program.parseTree.unplaced := by
  constructor
  · intro same
    exact ParseTree.unplaced_eq_of_render_eq (Session.unbroken_parseTree read parsed passes)
      (Session.unbroken_parseTree read' parsed' passes') same
  · intro same
    rw [← ParseTree.render_unplaced, same, ParseTree.render_unplaced]

/-- Resolving gives both variables the same name, so the trees of two texts that differ in names and
places are listed alike. -/
theorem render_eq_iff_unplaced_eq_oneGlobal :
    ∃ tokens tokens' p p', tokenize "main num V_x begin end" "a.spl" = .ok tokens ∧
      parse tokens = .ok p ∧ tokenize "main\nnum V_y,begin end" "b.spl" = .ok tokens' ∧
      parse tokens' = .ok p' ∧ p.main.file = "a.spl" ∧ p'.main.file = "b.spl" ∧
      ((Session.start p).run [.resolve]).program.parseTree.unplaced =
        ((Session.start p').run [.typecheck, .resolve]).program.parseTree.unplaced := by
  let listing := "PROG\n  Main main\n  GLOBVARS\n    Num num\n    VName v1\n"
    ++ "  ALGO\n    Begin begin\n    INSTRUC\n    End end\n  FUNCTIONS\n"
  have first : (readProgram? "main num V_x begin end" "a.spl").any (fun p =>
      p.main.file = "a.spl" &&
        ((Session.start p).run [.resolve]).program.parseTree.render = listing) = true := by
    decide +kernel
  have second : (readProgram? "main\nnum V_y,begin end" "b.spl").any (fun p =>
      p.main.file = "b.spl" &&
        ((Session.start p).run [.typecheck, .resolve]).program.parseTree.render = listing) =
          true := by
    decide +kernel
  rcases exists_of_readProgram? first with ⟨tokens, p, read, parsed, shown⟩
  rcases exists_of_readProgram? second with ⟨tokens', p', read', parsed', shown'⟩
  simp only [Bool.and_eq_true, decide_eq_true_eq] at shown shown'
  refine ⟨tokens, tokens', p, p', read, parsed, read', parsed', shown.1, shown'.1, ?_⟩
  exact (render_eq_iff_unplaced_eq read parsed read' parsed' [.resolve] [.typecheck, .resolve]).1
    (shown.2.trans shown'.2.symm)

end SplBasic
