import SplBasic.Proofs.ScopeWalk

/-!
# Scope trees as histories

A scope tree answers questions about the changes that were made to it. A history lists those changes
with the numbers they were answered with, oldest first, and says by itself which scopes lie around a
scope (`Ancestry`), which declaration is the latest of its sort (`Latest`) and which one a name
means (`Nearest`). Names can be declared any number of times.

* `ScopeTree.Follows.apply`, `ScopeTree.Follows.run` : what one change and a run of changes keep,
* `ScopeTree.follows_history` : every tree follows its history,
* `nestedBy_and_answers_history` : the scopes are nested as they were opened, and what is looked up
  is what the history says.
-/

namespace SplBasic

/-! ## Changes and events -/

/-- A change to a scope tree. -/
inductive ScopeChange
  | addScope (parent : Nat) (name : String)
  | declare (scope : Nat) (symbol : Symbol)
  deriving DecidableEq, Repr

/-- A change that was made, with the number it was answered with. -/
inductive ScopeEvent
  | opened (scope parent : Nat) (name : String)
  | declared (d : Declaration)
  deriving DecidableEq, Repr

def ScopeChange.scope : ScopeChange → Nat
  | .addScope parent _ => parent
  | .declare scope _ => scope

def ScopeEvent.declaration? : ScopeEvent → Option Declaration
  | .opened _ _ _ => none
  | .declared d => some d

theorem ScopeEvent.declaration?_eq_some_iff {e : ScopeEvent} {d : Declaration} :
    e.declaration? = some d ↔ e = .declared d := by
  cases e with
  | opened id parent name => simp [declaration?]
  | declared d' => simp [declaration?]

namespace ScopeTree

def apply (tree : ScopeTree) : ScopeChange → ScopeTree
  | .addScope parent name => (tree.addScope parent name).2
  | .declare scope symbol => (tree.declare scope symbol).2

/-- A change with the number that it is answered with: scopes and declarations are counted apart. -/
def event (tree : ScopeTree) : ScopeChange → ScopeEvent
  | .addScope parent name => .opened (tree.addScope parent name).1 parent name
  | .declare scope symbol => .declared ⟨(tree.declare scope symbol).1, scope, symbol⟩

def run (tree : ScopeTree) (changes : List ScopeChange) : ScopeTree :=
  changes.foldl apply tree

/-- What the changes were answered with. -/
def history (tree : ScopeTree) (changes : List ScopeChange) : List ScopeEvent :=
  (along apply tree changes).map fun site => site.1.event site.2

/-- Every change is made in a scope that is there by then. -/
def InRange (tree : ScopeTree) (changes : List ScopeChange) : Prop :=
  ∀ site ∈ along apply tree changes, site.2.scope < site.1.scopes.length

instance (tree : ScopeTree) (changes : List ScopeChange) : Decidable (tree.InRange changes) :=
  inferInstanceAs (Decidable (∀ site ∈ along apply tree changes, _))

end ScopeTree

/-! ## What a history says -/

/-- The numbers of a scope and of the scopes around it, from the inside out. -/
inductive Ancestry (events : List ScopeEvent) : Nat → List Nat → Prop
  | global : Ancestry events ScopeTree.global [ScopeTree.global]
  | opened {scope parent : Nat} {name : String} {outer : List Nat} :
      .opened scope parent name ∈ events → Ancestry events parent outer →
        Ancestry events scope (scope :: outer)

/-- The last declaration of a sort. -/
def Latest (events : List ScopeEvent) (sort : Declaration → Prop) (d : Declaration) : Prop :=
  ∃ earlier later, events = earlier ++ .declared d :: later ∧ sort d ∧
    ∀ other, .declared other ∈ later → ¬ sort other

/-- The latest declaration of a sort is of that sort. -/
theorem Latest.holds {events : List ScopeEvent} {sort : Declaration → Prop} {d : Declaration} :
    Latest events sort d → sort d
  | ⟨_, _, _, fits, _⟩ => fits

/-- Declares a name in a scope. -/
def Declaration.Binds (d : Declaration) (scope : Nat) (name : String) : Prop :=
  d.scope = scope ∧ d.symbol.name = name

instance (d : Declaration) (scope : Nat) (name : String) : Decidable (d.Binds scope name) :=
  inferInstanceAs (Decidable (_ ∧ _))

/-- The last declaration of a name in the first scope of a path that has any. -/
def Nearest (events : List ScopeEvent) (path : List Nat) (name : String) (d : Declaration) : Prop :=
  ∃ inside outside, path = inside ++ d.scope :: outside ∧
    (∀ scope ∈ inside, ∀ other, .declared other ∈ events → ¬ other.Binds scope name) ∧
    Latest events (·.Binds d.scope name) d

namespace ScopeTree

/-- The scopes of a tree are nested as they were opened. -/
structure NestedBy (tree : ScopeTree) (events : List ScopeEvent) : Prop where
  /-- The scopes are the global one and those that were opened. -/
  scope_cases {scope : Nat} : scope < tree.scopes.length →
    scope = global ∨ ∃ parent name, .opened scope parent name ∈ events
  global : tree.scope? global = some ⟨global, "global", 0, none⟩ ∧
    ∀ other, global ∉ tree.children other
  /-- An opened scope is younger than its parent, one level deeper, and listed once, there. -/
  opened {scope parent : Nat} {name : String} : .opened scope parent name ∈ events →
    parent < scope ∧ tree.scope? scope = some ⟨scope, name, tree.level parent + 1, some parent⟩ ∧
      ∀ other, (tree.children other).count scope = if other = parent then 1 else 0
  increasing (scope : Nat) : (tree.children scope).Pairwise (· < ·)

/-- What is looked up in a tree is what the events say. -/
structure Answers (tree : ScopeTree) (events : List ScopeEvent) : Prop where
  declaration?_iff {d : Declaration} : tree.declaration? d.id = some d ↔ .declared d ∈ events
  exists_ancestry {scope : Nat} : scope < tree.scopes.length → ∃ path, Ancestry events scope path
  lookup_iff {scope : Nat} {path : List Nat} (around : Ancestry events scope path) (name : String)
    (d : Declaration) : tree.lookup scope name = some d ↔ Nearest events path name d
  lookup_none_iff {scope : Nat} {path : List Nat} (around : Ancestry events scope path)
    (name : String) : tree.lookup scope name = none ↔
      ∀ s ∈ path, ∀ d, .declared d ∈ events → ¬ d.Binds s name
  /-- The nearest declaration counts, of whatever kind it is. -/
  lookupVariable_iff {scope : Nat} {name : String} {d : Declaration} :
    tree.lookupVariable scope name = some d ↔
      tree.lookup scope name = some d ∧ d.symbol.kind = .variable
  lookupFunction_iff {scope : Nat} {name : String} {d : Declaration} :
    tree.lookupFunction scope name = some d ↔
      tree.lookup scope name = some d ∧ d.symbol.kind = .function
  /-- Climbing from parent to parent comes to an end, with the same answer. -/
  climbs {scope : Nat} (there : scope < tree.scopes.length) (name : String) :
    tree.nearestId? name scope = some ((tree.lookup scope name).map Declaration.id)
  byUnique?_iff {unique : String} {d : Declaration} :
    tree.byUnique? unique = some d ↔ Latest events (·.symbol.unique = unique) d

/-! ## Opening a scope -/

section AddScope

variable (tree : ScopeTree) (parent : Nat) (name : String) (s : Nat)

/-- The scope that is opened next. -/
def nextScope : Scope :=
  ⟨tree.scopes.length, name, tree.level parent + 1, some parent⟩

/-- Only the new scope is added. -/
theorem scope?_addScope : (tree.addScope parent name).2.scope? s =
    if s = tree.scopes.length then some (tree.nextScope parent name) else tree.scope? s := by
  by_cases same : s = tree.scopes.length
  · simp [scope?, addScope, nextScope, same]
  · simp [scope?, addScope, same, Ne.symm same]

/-- The chain of the new scope goes on with the one of its parent. -/
theorem chain_addScope : (tree.addScope parent name).2.chain s =
    if s = tree.scopes.length then tree.nextScope parent name :: tree.chain parent
    else tree.chain s := by
  by_cases same : s = tree.scopes.length
  · simp [chain, addScope, scopeChain, nextScope, same]
  · simp [chain, addScope, scopeChain, same, Ne.symm same]

/-- The new scope is one level deeper than its parent. -/
theorem level_addScope : (tree.addScope parent name).2.level s =
    if s = tree.scopes.length then tree.level parent + 1 else tree.level s := by
  rw [level, scope?_addScope]
  split
  · rfl
  · rfl

end AddScope

/-! ## Trees that follow a history -/

/-- The tree is numbered without gaps and remembers the events in their order. -/
structure Follows (tree : ScopeTree) (events : List ScopeEvent) : Prop where
  numbered : tree.scopes.reverse.map Scope.id = List.range tree.scopes.length
  indexed : tree.Indexed
  declared : tree.declarations.reverse = events.filterMap ScopeEvent.declaration?
  scope_cases : ∀ s ∈ tree.scopes, s ∈ initial.scopes ∨
    ∃ parent name, .opened s.id parent name ∈ events
  top : tree.scope? global = some ⟨global, "global", 0, none⟩ ∧ tree.chain global = initial.scopes
  opened : ∀ scope parent name, .opened scope parent name ∈ events →
    parent < scope ∧ scope < tree.scopes.length ∧
      tree.scope? scope = some ⟨scope, name, tree.level parent + 1, some parent⟩ ∧
      tree.chain scope = ⟨scope, name, tree.level parent + 1, some parent⟩ :: tree.chain parent

namespace Follows

variable {tree : ScopeTree} {events : List ScopeEvent}

/-- At the start nothing has happened. -/
theorem initial : ScopeTree.initial.Follows [] where
  numbered := rfl
  indexed := Indexed.initial
  declared := rfl
  scope_cases := fun _ member => .inl member
  top := ⟨rfl, rfl⟩
  opened := by simp

/-- Declaring a symbol is one more event. -/
theorem declare (follows : tree.Follows events) (scope : Nat) (symbol : Symbol) :
    (tree.declare scope symbol).2.Follows
      (events ++ [.declared ⟨tree.declarations.length, scope, symbol⟩]) where
  numbered := follows.numbered
  indexed := follows.indexed.declare scope symbol
  declared := by
    simp [ScopeTree.declare, follows.declared, ScopeEvent.declaration?]
  scope_cases := by
    intro s member
    simpa using follows.scope_cases s member
  top := follows.top
  opened := by
    intro s parent name member
    exact follows.opened s parent name (by simpa using member)

/-- Opening a scope is one more event; the new scope is the last child of its parent. -/
theorem addScope (follows : tree.Follows events) {parent : Nat}
    (there : parent < tree.scopes.length) (name : String) :
    (tree.addScope parent name).2.Follows (events ++ [.opened tree.scopes.length parent name]) where
  numbered := by
    simp [ScopeTree.addScope, follows.numbered, List.range_succ]
  indexed := follows.indexed
  declared := by
    simp [ScopeTree.addScope, follows.declared, ScopeEvent.declaration?]
  scope_cases := by
    intro s member
    rcases List.mem_cons.1 member with rfl | older
    · exact .inr ⟨parent, name, List.mem_append_right _ List.mem_cons_self⟩
    · rcases follows.scope_cases s older with isGlobal | ⟨outer, called, wasOpened⟩
      · exact .inl isGlobal
      · exact .inr ⟨outer, called, List.mem_append_left _ wasOpened⟩
  top := by
    have other : global ≠ tree.scopes.length := by
      simp only [global]
      omega
    rw [scope?_addScope, chain_addScope, if_neg other, if_neg other]
    exact follows.top
  opened := by
    intro s outer called member
    have length : (tree.addScope parent name).2.scopes.length = tree.scopes.length + 1 := rfl
    -- what is known of older scopes stays, as chains lead to older scopes only
    have level {t : Nat} (older : t < tree.scopes.length) :
        (tree.addScope parent name).2.level t = tree.level t := by
      rw [level_addScope, if_neg (by omega)]
    have chain {t : Nat} (older : t < tree.scopes.length) :
        (tree.addScope parent name).2.chain t = tree.chain t := by
      rw [chain_addScope, if_neg (by omega)]
    rcases List.mem_append.1 member with before | new
    · rcases follows.opened s outer called before with ⟨older, isThere, found, path⟩
      rw [scope?_addScope, if_neg (by omega), level (by omega), chain (by omega), chain (by omega)]
      exact ⟨older, by omega, found, path⟩
    · cases List.mem_singleton.1 new
      rw [scope?_addScope, if_pos rfl, chain_addScope, if_pos rfl, level there, chain there]
      exact ⟨there, by omega, rfl, rfl⟩

/-- One change in a scope that is there adds its event. -/
theorem apply (follows : tree.Follows events) {c : ScopeChange}
    (there : c.scope < tree.scopes.length) : (tree.apply c).Follows (events ++ [tree.event c]) := by
  cases c with
  | addScope parent name => exact follows.addScope there name
  | declare scope symbol => exact follows.declare scope symbol

/-- A run of changes adds its history. -/
theorem run (follows : tree.Follows events) {changes : List ScopeChange}
    (inRange : tree.InRange changes) :
    (tree.run changes).Follows (events ++ tree.history changes) := by
  induction changes generalizing tree events with
  | nil => simpa [ScopeTree.run, history, along] using follows
  | cons c changes ih =>
    have first : c.scope < tree.scopes.length := inRange (tree, c) (by simp [along])
    have rest : (tree.apply c).InRange changes := fun site member =>
      inRange site (List.mem_cons_of_mem _ member)
    simpa [ScopeTree.run, history, along] using ih (follows.apply first) rest

/-! ## Nesting -/

/-- No two scopes share a number. -/
theorem distinct (follows : tree.Follows events) : (tree.scopes.map Scope.id).Nodup := by
  have nodup : (tree.scopes.reverse.map Scope.id).Nodup := follows.numbered ▸ List.nodup_range
  rwa [List.map_reverse, List.nodup_reverse] at nodup

/-- The parent of a scope is the only one that lists it. -/
theorem mem_children_iff (follows : tree.Follows events) {scope other : Nat} {s : Scope}
    (found : tree.scope? scope = some s) : scope ∈ tree.children other ↔ s.parent = some other := by
  have here : s ∈ tree.scopes := List.mem_of_find?_eq_some found
  have isScope : s.id = scope := by simpa using List.find?_some found
  simp only [children, List.mem_map, List.mem_filter, List.mem_reverse, decide_eq_true_eq]
  constructor
  · rintro ⟨t, ⟨member, isParent⟩, sameId⟩
    have again : tree.scope? t.id = some t := scope?_eq_some follows.distinct member
    rw [sameId, found] at again
    cases again
    exact isParent
  · intro isParent
    exact ⟨s, ⟨here, isParent⟩, isScope⟩

/-- Children are listed in the order in which they were opened. -/
theorem increasing (follows : tree.Follows events) (scope : Nat) :
    (tree.children scope).Pairwise (· < ·) := by
  have all : (tree.scopes.reverse.map Scope.id).Pairwise (· < ·) := by
    rw [follows.numbered]
    exact List.pairwise_lt_range
  exact all.sublist (List.filter_sublist.map _)

/-- Each scope is listed once, by its parent. -/
theorem count_children (follows : tree.Follows events) {scope : Nat} {s : Scope}
    (found : tree.scope? scope = some s) (other : Nat) :
    (tree.children other).count scope = if s.parent = some other then 1 else 0 := by
  have nodup : (tree.children other).Nodup := (follows.increasing other).imp Nat.ne_of_lt
  split
  · next isParent =>
    exact List.count_eq_one_of_mem nodup ((follows.mem_children_iff found).2 isParent)
  · next isNot =>
    exact List.count_eq_zero_of_not_mem fun member =>
      isNot ((follows.mem_children_iff found).1 member)

/-- Each scope is the global one or has been opened. -/
theorem scope_cases_of_lt (follows : tree.Follows events) {scope : Nat}
    (there : scope < tree.scopes.length) :
    scope = global ∨ ∃ parent name, .opened scope parent name ∈ events := by
  have member : scope ∈ tree.scopes.reverse.map Scope.id := by
    rw [follows.numbered]
    exact List.mem_range.2 there
  rcases List.mem_map.1 member with ⟨s, isIn, rfl⟩
  rcases follows.scope_cases s (List.mem_reverse.1 isIn) with isGlobal | isOpened
  · exact .inl (congrArg Scope.id (List.mem_singleton.1 isGlobal))
  · exact .inr isOpened

/-- The scopes are nested as the events tell. -/
theorem nestedBy (follows : tree.Follows events) : tree.NestedBy events where
  scope_cases := follows.scope_cases_of_lt
  global := by
    refine ⟨follows.top.1, fun other member => ?_⟩
    cases (follows.mem_children_iff follows.top.1).1 member
  opened := by
    intro scope parent name isOpened
    rcases follows.opened scope parent name isOpened with ⟨younger, _, found, _⟩
    refine ⟨younger, found, fun other => ?_⟩
    rw [follows.count_children found other]
    simp [eq_comm]
  increasing := follows.increasing

/-! ## Looking up -/

/-- Every scope is reached from the global one by opening scopes. -/
theorem exists_ancestry (follows : tree.Follows events) {scope : Nat}
    (there : scope < tree.scopes.length) : ∃ path, Ancestry events scope path := by
  -- a parent is older than its child
  induction scope using Nat.strongRecOn with
  | _ scope ih =>
    rcases follows.scope_cases_of_lt there with rfl | ⟨parent, name, isOpened⟩
    · exact ⟨_, .global⟩
    · have younger : parent < scope := (follows.opened _ _ _ isOpened).1
      rcases ih parent younger (by omega) with ⟨outer, around⟩
      exact ⟨_, .opened isOpened around⟩

/-- The chain of a scope is its ancestry. -/
theorem map_id_chain (follows : tree.Follows events) {scope : Nat} {path : List Nat}
    (around : Ancestry events scope path) : (tree.chain scope).map Scope.id = path := by
  induction around with
  | global =>
    rw [follows.top.2]
    rfl
  | opened isOpened _ ih =>
    rw [(follows.opened _ _ _ isOpened).2.2.2, List.map_cons, ih]

/-- Each scope with ancestors leads up to the global one. -/
theorem rooted (follows : tree.Follows events) {scope : Nat} {path : List Nat}
    (around : Ancestry events scope path) : tree.Rooted scope := by
  induction around with
  | global => exact .top (s := ⟨global, "global", 0, none⟩) follows.top.1 rfl follows.top.2
  | @opened scope parent name _ isOpened _ ih =>
    rcases follows.opened _ _ _ isOpened with ⟨younger, _, found, chain⟩
    exact .inner (s := ⟨scope, name, tree.level parent + 1, some parent⟩) found rfl younger chain ih

/-- Declarations are the declared ones among the events. -/
theorem mem_declarations_iff (follows : tree.Follows events) {d : Declaration} :
    d ∈ tree.declarations ↔ .declared d ∈ events := by
  rw [← List.mem_reverse, follows.declared, List.mem_filterMap]
  simp [ScopeEvent.declaration?_eq_some_iff]

/-- Going through the declarations from the newest on finds the last one of a sort. -/
theorem find?_eq_some_iff (follows : tree.Follows events) {sort : Declaration → Prop}
    [DecidablePred sort] {d : Declaration} :
    tree.declarations.find? (fun other => sort other) = some d ↔ Latest events sort d := by
  -- what the tree has in front of the found declaration are the events behind it, backwards
  rw [← List.reverse_reverse tree.declarations, follows.declared, List.find?_eq_some_iff_append]
  constructor
  · rintro ⟨fits, newer, older, split, hidden⟩
    have cut : events.filterMap ScopeEvent.declaration? = older.reverse ++ d :: newer.reverse := by
      rw [← List.reverse_reverse (List.filterMap _ _), split]
      simp
    rcases List.filterMap_eq_append_iff.1 cut with ⟨before, _, rfl, _, behind⟩
    rcases List.filterMap_eq_cons_iff.1 behind with ⟨opened, e, later, rfl, _, isHere, isLater⟩
    cases ScopeEvent.declaration?_eq_some_iff.1 isHere
    refine ⟨before ++ opened, later, by simp, of_decide_eq_true fits, fun other member => ?_⟩
    have isNewer : other ∈ newer := by
      rw [← List.mem_reverse, ← isLater, List.mem_filterMap]
      exact ⟨_, member, rfl⟩
    simpa using hidden other isNewer
  · rintro ⟨earlier, later, rfl, fits, hidden⟩
    refine ⟨decide_eq_true fits, (later.filterMap ScopeEvent.declaration?).reverse,
      (earlier.filterMap ScopeEvent.declaration?).reverse, by simp [ScopeEvent.declaration?], ?_⟩
    intro other member
    rcases List.mem_filterMap.1 (List.mem_reverse.1 member) with ⟨e, isLater, declares⟩
    cases ScopeEvent.declaration?_eq_some_iff.1 declares
    simpa using hidden other isLater

/-- In one scope, the first declaration of a name is found. -/
theorem lookupLocal_eq_find? (scope : Nat) (name : String) :
    tree.lookupLocal scope name = tree.declarations.find? fun d => d.Binds scope name := by
  rw [lookupLocal]
  congr 1
  funext d
  exact (Bool.decide_and _ _).symm

theorem lookupLocal_eq_none_iff (follows : tree.Follows events) {scope : Nat} {name : String} :
    tree.lookupLocal scope name = none ↔ ∀ d, .declared d ∈ events → ¬ d.Binds scope name := by
  simp [lookupLocal_eq_find?, follows.mem_declarations_iff]

/-- A name is looked up in one scope after the other, from the inside outwards. -/
theorem lookup_eq_findSome?_path (follows : tree.Follows events) {scope : Nat} {path : List Nat}
    (around : Ancestry events scope path) (name : String) :
    tree.lookup scope name = path.findSome? fun s => tree.lookupLocal s name := by
  rw [lookup_eq_findSome?, ← follows.map_id_chain around, List.findSome?_map]
  rfl

/-- A name means its last declaration in the nearest scope that has one. -/
theorem lookup_eq_some_iff (follows : tree.Follows events) {scope : Nat} {path : List Nat}
    (around : Ancestry events scope path) (name : String) (d : Declaration) :
    tree.lookup scope name = some d ↔ Nearest events path name d := by
  rw [follows.lookup_eq_findSome?_path around, List.findSome?_eq_some_iff]
  constructor
  · rintro ⟨inside, here, outside, isPath, found, unknown⟩
    rw [lookupLocal_eq_find?] at found
    have latest : Latest events (·.Binds here name) d := follows.find?_eq_some_iff.1 found
    obtain rfl : d.scope = here := latest.holds.1
    exact ⟨inside, outside, isPath,
      fun s member => follows.lookupLocal_eq_none_iff.1 (unknown s member), latest⟩
  · rintro ⟨inside, outside, isPath, unknown, latest⟩
    refine ⟨inside, d.scope, outside, isPath, ?_, ?_⟩
    · rw [lookupLocal_eq_find?]
      exact follows.find?_eq_some_iff.2 latest
    · exact fun s member => follows.lookupLocal_eq_none_iff.2 (unknown s member)

/-- A name is not found if no scope around it declares it. -/
theorem lookup_eq_none_iff (follows : tree.Follows events) {scope : Nat} {path : List Nat}
    (around : Ancestry events scope path) (name : String) :
    tree.lookup scope name = none ↔ ∀ s ∈ path, ∀ d, .declared d ∈ events → ¬ d.Binds s name := by
  rw [follows.lookup_eq_findSome?_path around, List.findSome?_eq_none_iff]
  simp only [follows.lookupLocal_eq_none_iff]

theorem declaration?_eq_some_iff (follows : tree.Follows events) {d : Declaration} :
    tree.declaration? d.id = some d ↔ .declared d ∈ events := by
  rw [← follows.mem_declarations_iff]
  exact ⟨List.mem_of_find?_eq_some, follows.indexed.declaration?_eq_some⟩

/-- The tree answers as the events tell. -/
theorem answers (follows : tree.Follows events) : tree.Answers events where
  declaration?_iff := follows.declaration?_eq_some_iff
  exists_ancestry := follows.exists_ancestry
  lookup_iff := follows.lookup_eq_some_iff
  lookup_none_iff := follows.lookup_eq_none_iff
  lookupVariable_iff := by simp [lookupVariable, lookupKind, Option.filter_eq_some_iff]
  lookupFunction_iff := by simp [lookupFunction, lookupKind, Option.filter_eq_some_iff]
  climbs := by
    intro scope there name
    rcases follows.exists_ancestry there with ⟨path, around⟩
    exact (follows.rooted around).nearestId?_eq name
  byUnique?_iff := follows.find?_eq_some_iff

end Follows

/-- Every tree that is grown from the global scope follows its history. -/
theorem follows_history {changes : List ScopeChange} (inRange : initial.InRange changes) :
    (initial.run changes).Follows (initial.history changes) :=
  Follows.initial.run inRange

end ScopeTree

/-- After any changes in scopes that are there, the scopes are nested as they were opened, and what
is looked up is what the history of the changes says. -/
theorem nestedBy_and_answers_history {changes : List ScopeChange}
    (inRange : ScopeTree.initial.InRange changes) :
    (ScopeTree.initial.run changes).NestedBy (ScopeTree.initial.history changes) ∧
      (ScopeTree.initial.run changes).Answers (ScopeTree.initial.history changes) :=
  have follows := ScopeTree.follows_history inRange
  ⟨follows.nestedBy, follows.answers⟩

/-- Two scopes, one in the other, a variable that the outer one declares twice, a function of that
name around them, and a unique name that is used twice. -/
def rebindingChanges : List ScopeChange :=
  let symbol (unique : String) (kind : SymbolKind) : Symbol := ⟨"x", unique, kind, .num, 0, .start⟩
  [.declare 0 (symbol "f1" .function), .addScope 0 "outer", .declare 1 (symbol "v1" .variable),
    .addScope 1 "inner", .declare 1 (symbol "v1" .variable)]

/-- The innermost scope sees the last of the three declarations, and so does the unique name. -/
theorem answers_rebindingChanges :
    ScopeTree.initial.InRange rebindingChanges ∧
      (ScopeTree.initial.run rebindingChanges).NestedBy
        (ScopeTree.initial.history rebindingChanges) ∧
      ∃ d, d.id = 2 ∧ Nearest (ScopeTree.initial.history rebindingChanges) [2, 1, 0] "x" d ∧
        Latest (ScopeTree.initial.history rebindingChanges) (·.symbol.unique = "v1") d := by
  have inRange : ScopeTree.initial.InRange rebindingChanges := by decide
  rcases nestedBy_and_answers_history inRange with ⟨nested, answers⟩
  have outer : .opened 1 0 "outer" ∈ ScopeTree.initial.history rebindingChanges := by decide
  have inner : .opened 2 1 "inner" ∈ ScopeTree.initial.history rebindingChanges := by decide
  have innermost : Ancestry (ScopeTree.initial.history rebindingChanges) 2 [2, 1, 0] :=
    .opened inner (.opened outer .global)
  refine ⟨inRange, nested, ⟨2, 1, "x", "v1", .variable, .num, 0, .start⟩, rfl, ?_, ?_⟩
  · exact (answers.lookup_iff innermost _ _).1 (by decide)
  · exact answers.byUnique?_iff.1 (by decide)

end SplBasic
