/-!
# Forests

Ordered trees of any width, as first root, its children and the trees that follow. Nested function
declarations and parse trees have this shape.

* `toList` : the nodes in preorder, each before its children,
* `place` : the nodes numbered in preorder, each with the number of the node around it,
* `along` : the nodes with the state in which a preorder walk reaches them,
* `outline` : the nodes in preorder with depth and number of children.
-/

namespace SplBasic

/-- Each element with the state in which a walk from `s` reaches it. -/
def along {α σ : Type} (step : σ → α → σ) (s : σ) : List α → List (σ × α)
  | [] => []
  | a :: rest => (s, a) :: along step (step s a) rest

theorem along_append {α σ : Type} (step : σ → α → σ) (s : σ) (xs ys : List α) :
    along step s (xs ++ ys) = along step s xs ++ along step (xs.foldl step s) ys := by
  induction xs generalizing s with
  | nil => rfl
  | cons x xs ih => simp [along, ih]

/-- A sequence of trees. -/
inductive Forest (α : Type)
  | nil
  | cons (root : α) (children rest : Forest α)
  deriving DecidableEq, Repr

/-- A node with its number and the number of the node that directly encloses it. -/
structure Placed (α : Type) where
  own : Nat
  outer : Nat
  value : α
  deriving DecidableEq, Repr

namespace Forest

variable {α β σ : Type}

def node (root : α) (children : Forest α) : Forest α :=
  cons root children nil

def leaf (root : α) : Forest α :=
  node root nil

def append : Forest α → Forest α → Forest α
  | nil, g => g
  | cons root children rest, g => cons root children (append rest g)

instance : Append (Forest α) := ⟨append⟩

/-- The nodes in preorder. -/
def toList : Forest α → List α
  | nil => []
  | cons root children rest => root :: (children.toList ++ rest.toList)

def roots : Forest α → List α
  | nil => []
  | cons root _ rest => root :: rest.roots

def size : Forest α → Nat
  | nil => 0
  | cons _ children rest => children.size + rest.size + 1

def map (f : α → β) : Forest α → Forest β
  | nil => nil
  | cons root children rest => cons (f root) (children.map f) (rest.map f)

/-- Numbers the nodes in preorder from `next` on; `outer` is the number of what encloses the
forest. -/
def place (outer next : Nat) : Forest α → Forest (Placed α)
  | nil => nil
  | cons root children rest =>
    cons ⟨next, outer, root⟩ (children.place next (next + 1))
      (rest.place outer (next + 1 + children.size))

/-- A preorder walk from `s`: the state it ends in, and the nodes with the states it reaches them
in. -/
def walk (step : σ → α → σ) (s : σ) : Forest α → σ × Forest (σ × α)
  | nil => (s, nil)
  | cons root children rest =>
    let below := children.walk step (step s root)
    let after := rest.walk step below.1
    (after.1, cons (s, root) below.2 after.2)

/-- The nodes with the states in which a preorder walk from `s` reaches them. -/
def along (step : σ → α → σ) (s : σ) (f : Forest α) : Forest (σ × α) :=
  (f.walk step s).2

/-- The nodes in preorder, each with its depth and its number of children. -/
def outline (depth : Nat) : Forest α → List (Nat × α × Nat)
  | nil => []
  | cons root children rest =>
    (depth, root, children.roots.length) :: (children.outline (depth + 1) ++ rest.outline depth)

/-! ## Preorder views -/

@[simp] theorem toList_append (f g : Forest α) : (f ++ g).toList = f.toList ++ g.toList := by
  induction f with
  | nil => rfl
  | cons root children rest _ ih =>
    have unfolded : cons root children rest ++ g = cons root children (rest ++ g) := rfl
    simp [unfolded, toList, ih]

@[simp] theorem toList_map (h : α → β) (f : Forest α) : (f.map h).toList = f.toList.map h := by
  induction f with
  | nil => rfl
  | cons root children rest ihChildren ihRest => simp [map, toList, ihChildren, ihRest]

@[simp] theorem length_toList (f : Forest α) : f.toList.length = f.size := by
  induction f with
  | nil => rfl
  | cons root children rest ihChildren ihRest => simp [size, toList, ihChildren, ihRest]

/-- A walk ends where folding over the nodes in preorder ends. -/
theorem walk_fst (step : σ → α → σ) (s : σ) (f : Forest α) :
    (f.walk step s).1 = f.toList.foldl step s := by
  induction f generalizing s with
  | nil => rfl
  | cons root children rest ihChildren ihRest => simp [walk, toList, ihChildren, ihRest]

/-- The nodes of a walk in preorder are those of the walk over the preorder list. -/
theorem toList_along (step : σ → α → σ) (s : σ) (f : Forest α) :
    (f.along step s).toList = SplBasic.along step s f.toList := by
  unfold along
  induction f generalizing s with
  | nil => rfl
  | cons root children rest ihChildren ihRest =>
    simp [walk, toList, SplBasic.along, ihChildren, ihRest, along_append, walk_fst]

end Forest

end SplBasic
