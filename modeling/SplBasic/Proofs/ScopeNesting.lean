import SplBasic.Proofs.UniqueNames

/-!
# Scopes nested like functions

Hoisting opens one scope for every function. In the order in which they are opened these are the
scopes that `Forest.scopesFrom` reads off the functions, and so the scopes of a program are nested
as its functions are.

* `ScopeTree.Mirrors` : the scopes of a tree from a given number on are those of a forest of
  functions, with their names, depths, parents and children,
* `Program.scopes_hoisted_eq` : all scopes of a program, oldest first,
* `Program.mirrors_hoisted` : they mirror its functions.
-/

namespace SplBasic

/-! ## Scopes read off a forest -/

namespace Forest

/-- The scopes of a forest of functions in preorder, numbered from `next` on. The forest stands in
the scope `outer`, and its own functions have the given depth. -/
def scopesFrom (outer level next : Nat) : Forest FunctionDecl → List Scope
  | nil => []
  | cons f inner rest =>
    ⟨next, f.name.source, level, some outer⟩ :: (inner.scopesFrom next (level + 1) (next + 1)
      ++ rest.scopesFrom outer level (next + 1 + inner.size))

/-- The numbers of the roots of a forest that is numbered in preorder from `next` on. -/
def rootNumbers (next : Nat) : Forest FunctionDecl → List Nat
  | nil => []
  | cons _ inner rest => next :: rest.rootNumbers (next + 1 + inner.size)

variable (forest : Forest FunctionDecl) (outer level next : Nat)

@[simp] theorem length_scopesFrom : (forest.scopesFrom outer level next).length = forest.size := by
  induction forest generalizing outer level next with
  | nil => rfl
  | cons f inner rest ihInner ihRest => simp [scopesFrom, size, ihInner, ihRest]

/-- The scopes of a forest are numbered in preorder. -/
theorem map_id_scopesFrom :
    (forest.scopesFrom outer level next).map Scope.id = List.range' next forest.size := by
  induction forest generalizing outer level next with
  | nil => rfl
  | cons f inner rest ihInner ihRest =>
    calc ((cons f inner rest).scopesFrom outer level next).map Scope.id
        = next :: ((inner.scopesFrom next (level + 1) (next + 1)).map Scope.id
            ++ (rest.scopesFrom outer level (next + 1 + inner.size)).map Scope.id) := by
          rw [scopesFrom, List.map_cons, List.map_append]
      _ = next :: (List.range' (next + 1) inner.size
            ++ List.range' (next + 1 + inner.size) rest.size) := by
          rw [ihInner, ihRest]
      _ = List.range' next (cons f inner rest).size := by
          rw [List.range'_append_1, size, List.range'_succ]

theorem length_place : (forest.place outer next).toList.length = forest.size := by
  have lengths := congrArg List.length (forest.map_value_place outer next)
  simpa using lengths

/-- The parent of a scope of the forest is the scope around the forest or a scope of the forest. -/
theorem parent_of_mem_scopesFrom {s : Scope} (member : s ∈ forest.scopesFrom outer level next) :
    ∃ parent, s.parent = some parent ∧
      (parent = outer ∨ next ≤ parent ∧ parent < next + forest.size) := by
  induction forest generalizing outer level next with
  | nil => cases member
  | cons f inner rest ihInner ihRest =>
    simp only [scopesFrom, List.mem_cons, List.mem_append] at member
    simp only [size]
    rcases member with rfl | inside | behind
    · exact ⟨outer, rfl, .inl rfl⟩
    · rcases ihInner _ _ _ inside with ⟨parent, isParent, range⟩
      exact ⟨parent, isParent, .inr (by omega)⟩
    · rcases ihRest _ _ _ behind with ⟨parent, isParent, range⟩
      exact ⟨parent, isParent, by omega⟩

/-- Directly in the scope around a forest are the scopes of its roots. -/
theorem filter_scopesFrom (older : outer < next) :
    ((forest.scopesFrom outer level next).filter fun s => s.parent = some outer).map Scope.id =
      forest.rootNumbers next := by
  induction forest generalizing level next with
  | nil => rfl
  | cons f inner rest _ ihRest =>
    -- scopes inside `f` have parents from `next` on
    have noneInside :
        (inner.scopesFrom next (level + 1) (next + 1)).filter (fun s => s.parent = some outer) =
          [] := by
      refine List.filter_eq_nil_iff.2 fun s member => ?_
      rcases inner.parent_of_mem_scopesFrom _ _ _ member with ⟨parent, isParent, range⟩
      simp only [isParent, Option.some.injEq, decide_eq_true_eq]
      omega
    have behind := ihRest level (next + 1 + inner.size) (by omega)
    simp [scopesFrom, rootNumbers, noneInside, behind]

end Forest

/-! ## Trees that mirror a forest -/

namespace ScopeTree

/-- The scopes with the numbers from `next` on are those of a forest of functions in preorder. The
functions of the forest stand directly in the scope `outer`, at the given depth, and `own` are the
scopes of its roots. -/
inductive Mirrors (tree : ScopeTree) :
    (outer level next : Nat) → (own : List Nat) → Forest FunctionDecl → Prop
  | nil {outer level next : Nat} : Mirrors tree outer level next [] .nil
  | cons {outer level next : Nat} {own : List Nat} {f : FunctionDecl}
      {inner rest : Forest FunctionDecl} :
      tree.scope? next = some ⟨next, f.name.source, level, some outer⟩ →
        Mirrors tree next (level + 1) (next + 1) (tree.children next) inner →
        Mirrors tree outer level (next + 1 + inner.size) own rest →
        Mirrors tree outer level next (next :: own) (.cons f inner rest)

end ScopeTree

/-- The scope is not directly in a scope with a number from `first` on and below `last`. -/
def Scope.Outside (s : Scope) (first last : Nat) : Prop :=
  ∀ parent, s.parent = some parent → parent < first ∨ last ≤ parent

/-- What is outside of a range is outside of a smaller one. -/
theorem Scope.Outside.mono {s : Scope} {first last first' last' : Nat}
    (outside : s.Outside first last) (lower : first ≤ first') (upper : last' ≤ last) :
    s.Outside first' last' := by
  intro parent isParent
  have range := outside parent isParent
  omega

/-- Scopes of other functions lie outside. -/
theorem Forest.outside_of_mem_scopesFrom {forest : Forest FunctionDecl}
    {outer level next first last : Nat} {s : Scope}
    (member : s ∈ forest.scopesFrom outer level next) (around : outer < first ∨ last ≤ outer)
    (apart : next + forest.size ≤ first ∨ last ≤ next) : s.Outside first last := by
  intro parent isParent
  rcases forest.parent_of_mem_scopesFrom _ _ _ member with ⟨parent', isParent', range⟩
  cases isParent.symm.trans isParent'
  omega

namespace ScopeTree

variable {tree : ScopeTree}

theorem scope?_eq_some (distinct : (tree.scopes.map Scope.id).Nodup) {s : Scope}
    (member : s ∈ tree.scopes) : tree.scope? s.id = some s :=
  find?_eq_some_of_nodup distinct member

/-- If the scopes of a forest are among those of a tree, and no other scope is inside one of them,
then the tree mirrors the forest. -/
theorem mirrors_of_split (distinct : (tree.scopes.map Scope.id).Nodup)
    (forest : Forest FunctionDecl) {outer level next : Nat} {before behind : List Scope}
    (split : tree.scopes.reverse = before ++ forest.scopesFrom outer level next ++ behind)
    (older : outer < next) (outsideBefore : ∀ s ∈ before, s.Outside next (next + forest.size))
    (outsideBehind : ∀ s ∈ behind, s.Outside next (next + forest.size)) :
    tree.Mirrors outer level next (forest.rootNumbers next) forest := by
  induction forest generalizing outer level next before behind with
  | nil => exact .nil
  | cons f inner rest ihInner ihRest =>
    simp only [Forest.scopesFrom] at split
    simp only [Forest.size] at outsideBefore outsideBehind
    let scope : Scope := ⟨next, f.name.source, level, some outer⟩
    have opened : scope ∈ tree.scopes := by
      rw [← List.mem_reverse, split]
      simp [scope]
    have splitInner : tree.scopes.reverse =
        (before ++ [scope]) ++ inner.scopesFrom next (level + 1) (next + 1)
          ++ (rest.scopesFrom outer level (next + 1 + inner.size) ++ behind) := by
      simp [split, scope]
    have splitRest : tree.scopes.reverse =
        (before ++ scope :: inner.scopesFrom next (level + 1) (next + 1))
          ++ rest.scopesFrom outer level (next + 1 + inner.size) ++ behind := by
      simp [split, scope]
    have outsideScope {first last : Nat} (range : outer < first ∨ last ≤ outer) :
        scope.Outside first last := by
      rintro parent ⟨⟩
      exact range
    -- what stands before and behind `inner` lies outside of it, and outside of this scope too
    have outsideInner {s : Scope} (member : s ∈ before ++ [scope] ∨
        s ∈ rest.scopesFrom outer level (next + 1 + inner.size) ++ behind) :
        s.Outside next (next + 1 + inner.size) := by
      simp only [List.mem_append, List.mem_singleton] at member
      rcases member with (earlier | rfl) | later | later
      · exact (outsideBefore s earlier).mono (by omega) (by omega)
      · exact outsideScope (by omega)
      · exact Forest.outside_of_mem_scopesFrom later (by omega) (by omega)
      · exact (outsideBehind s later).mono (by omega) (by omega)
    have elsewhere {scopes : List Scope}
        (outside : ∀ s ∈ scopes, s.Outside next (next + 1 + inner.size)) :
        scopes.filter (fun s => s.parent = some next) = [] := by
      refine List.filter_eq_nil_iff.2 fun s member => ?_
      intro isParent
      have range := outside s member next (of_decide_eq_true isParent)
      omega
    have children : tree.children next = inner.rootNumbers (next + 1) := by
      rw [children, splitInner, List.filter_append, List.filter_append,
        elsewhere fun s member => outsideInner (.inl member),
        elsewhere fun s member => outsideInner (.inr member), List.nil_append, List.append_nil]
      exact inner.filter_scopesFrom next (level + 1) (next + 1) (Nat.lt_succ_self next)
    refine .cons (scope?_eq_some distinct opened) ?_ ?_
    · rw [children]
      refine ihInner splitInner (Nat.lt_succ_self next) ?_ ?_
      · exact fun s member => (outsideInner (.inl member)).mono (by omega) (by omega)
      · exact fun s member => (outsideInner (.inr member)).mono (by omega) (by omega)
    · refine ihRest splitRest (by omega) ?_ fun s member => ?_
      · intro s member
        rcases List.mem_append.1 member with earlier | here
        · exact (outsideBefore s earlier).mono (by omega) (by omega)
        · rcases List.mem_cons.1 here with rfl | inside
          · exact outsideScope (by omega)
          · exact Forest.outside_of_mem_scopesFrom inside (by omega) (by omega)
      · exact (outsideBehind s member).mono (by omega) (by omega)

/-! ## Hoisting -/

/-- Each function opens one scope. -/
theorem length_foldl_hoist (fs : List (Placed FunctionDecl)) (tree : ScopeTree) :
    (fs.foldl hoist tree).scopes.length = tree.scopes.length + fs.length := by
  induction fs generalizing tree with
  | nil => rfl
  | cons f fs ih =>
    rw [List.foldl_cons, ih, scopes_hoist, List.length_cons, List.length_cons]
    omega

/-- Scopes that are open stay as they are. -/
theorem scope?_foldl_hoist (fs : List (Placed FunctionDecl)) (tree : ScopeTree) {s : Nat}
    (isOpen : s < tree.scopes.length) : (fs.foldl hoist tree).scope? s = tree.scope? s := by
  induction fs generalizing tree with
  | nil => rfl
  | cons f fs ih =>
    have longer : (tree.hoist f).scopes.length = tree.scopes.length + 1 := by
      rw [scopes_hoist, List.length_cons]
    rw [List.foldl_cons, ih _ (by omega), scope?_hoist, if_neg (by omega)]

/-- Scopes that are open keep their level. -/
theorem level_foldl_hoist (fs : List (Placed FunctionDecl)) (tree : ScopeTree) {s : Nat}
    (isOpen : s < tree.scopes.length) : (fs.foldl hoist tree).level s = tree.level s := by
  rw [level, scope?_foldl_hoist fs tree isOpen, level]

/-- The scope of a function is one deeper than the scope it stands in. -/
theorem level_hoist (tree : ScopeTree) {next : Nat} (length : tree.scopes.length = next)
    (outer : Nat) (f : FunctionDecl) :
    (tree.hoist ⟨next, outer, f⟩).level next = tree.level outer + 1 := by
  rw [level, scope?_hoist, if_pos length]
  rfl

/-- Hoisting a forest opens its scopes in preorder. -/
theorem scopes_foldl_hoist_place (forest : Forest FunctionDecl) {outer next : Nat}
    (tree : ScopeTree) (length : tree.scopes.length = next) (older : outer < next) :
    ((forest.place outer next).toList.foldl hoist tree).scopes.reverse =
      tree.scopes.reverse ++ forest.scopesFrom outer (tree.level outer + 1) next := by
  induction forest generalizing outer next tree with
  | nil => simp [Forest.place, Forest.toList, Forest.scopesFrom]
  | cons f inner rest ihInner ihRest =>
    let scope : Scope := ⟨next, f.name.source, tree.level outer + 1, some outer⟩
    let opened := tree.hoist ⟨next, outer, f⟩
    let filled := (inner.place next (next + 1)).toList.foldl hoist opened
    have scopesOpened : opened.scopes = scope :: tree.scopes := by
      rw [scopes_hoist, length]
    have lengthOpened : opened.scopes.length = next + 1 := by
      rw [scopesOpened, List.length_cons, length]
    have scopesFilled : filled.scopes.reverse =
        opened.scopes.reverse ++ inner.scopesFrom next (tree.level outer + 1 + 1) (next + 1) := by
      rw [← tree.level_hoist length outer f]
      exact ihInner opened lengthOpened (Nat.lt_succ_self next)
    have lengthFilled : filled.scopes.length = next + 1 + inner.size := by
      rw [length_foldl_hoist, lengthOpened, Forest.length_place]
    -- the functions inside the first one open scopes of their own and leave the outer one alone
    have levelFilled : filled.level outer = tree.level outer :=
      level_foldl_hoist (⟨next, outer, f⟩ :: (inner.place next (next + 1)).toList) tree (by omega)
    have scopesRest : ((rest.place outer (next + 1 + inner.size)).toList.foldl hoist
        filled).scopes.reverse = filled.scopes.reverse
          ++ rest.scopesFrom outer (tree.level outer + 1) (next + 1 + inner.size) := by
      rw [← levelFilled]
      exact ihRest filled lengthFilled (by omega)
    calc (((Forest.cons f inner rest).place outer next).toList.foldl hoist tree).scopes.reverse
        = ((rest.place outer (next + 1 + inner.size)).toList.foldl hoist filled).scopes.reverse := by
          rw [Forest.place, Forest.toList, List.foldl_cons, List.foldl_append]
      _ = tree.scopes.reverse ++ [scope]
            ++ inner.scopesFrom next (tree.level outer + 1 + 1) (next + 1)
            ++ rest.scopesFrom outer (tree.level outer + 1) (next + 1 + inner.size) := by
          rw [scopesRest, scopesFilled, scopesOpened, List.reverse_cons]
      _ = tree.scopes.reverse
            ++ (Forest.cons f inner rest).scopesFrom outer (tree.level outer + 1) next := by
          simp [Forest.scopesFrom, scope]

end ScopeTree

namespace Program

/-- The scopes of a program, oldest first: the global one, then those of its functions in
preorder. -/
theorem scopes_hoisted_eq (p : Program) :
    p.hoisted.scopes.reverse = ⟨0, "global", 0, none⟩ :: p.functions.scopesFrom 0 1 1 :=
  ScopeTree.scopes_foldl_hoist_place p.functions .initial rfl Nat.zero_lt_one

/-- No two scopes share a number. -/
theorem distinct_hoisted (p : Program) : (p.hoisted.scopes.map Scope.id).Nodup := by
  have numbers : p.hoisted.scopes.reverse.map Scope.id = List.range' 0 (p.functions.size + 1) := by
    rw [p.scopes_hoisted_eq, List.map_cons, Forest.map_id_scopesFrom, List.range'_succ]
  rw [← List.nodup_reverse, ← List.map_reverse, numbers]
  exact List.nodup_range'

/-- The scopes of a program are nested like its functions. -/
theorem mirrors_hoisted (p : Program) :
    p.hoisted.Mirrors 0 1 1 (p.hoisted.children 0) p.functions := by
  have children : p.hoisted.children 0 = p.functions.rootNumbers 1 := by
    rw [ScopeTree.children, p.scopes_hoisted_eq]
    exact p.functions.filter_scopesFrom 0 1 1 Nat.zero_lt_one
  rw [children]
  have split : p.hoisted.scopes.reverse =
      [⟨0, "global", 0, none⟩] ++ p.functions.scopesFrom 0 1 1 ++ [] := by
    rw [p.scopes_hoisted_eq, List.append_nil, List.singleton_append]
  refine ScopeTree.mirrors_of_split p.distinct_hoisted p.functions split Nat.zero_lt_one ?_ ?_
  · intro s isGlobal parent isParent
    cases List.mem_singleton.1 isGlobal
    cases isParent
  · exact fun s member => absurd member List.not_mem_nil

end Program

end SplBasic
