/-!
# Rooted ordered trees

A tree is a value at its root and an ordered list of branches. `Tree.preorder` lists the values of
a tree in document order: the root, then each branch in turn.
-/

namespace LoopDirectives

universe u v

/-- A tree whose nodes carry values of the type `α`. -/
inductive Tree (α : Type u) : Type u where
  | node (value : α) (branches : List (Tree α))

namespace Tree

variable {α : Type u} {β : Type v}

def value : Tree α → α
  | node value _ => value

def branches : Tree α → List (Tree α)
  | node _ branches => branches

mutual

def map (f : α → β) : Tree α → Tree β
  | node value branches => node (f value) (mapAll f branches)

def mapAll (f : α → β) : List (Tree α) → List (Tree β)
  | [] => []
  | tree :: trees => map f tree :: mapAll f trees

end

mutual

def preorder : Tree α → List α
  | node value branches => value :: preorderAll branches

def preorderAll : List (Tree α) → List α
  | [] => []
  | tree :: trees => preorder tree ++ preorderAll trees

end

mutual

/-- Whether two trees have the same shape and values related by `related` at every place. -/
def agree (related : α → β → Bool) : Tree α → Tree β → Bool
  | node left leftBranches, node right rightBranches =>
    related left right && agreeAll related leftBranches rightBranches

def agreeAll (related : α → β → Bool) : List (Tree α) → List (Tree β) → Bool
  | [], [] => true
  | left :: lefts, right :: rights => agree related left right && agreeAll related lefts rights
  | _, _ => false

end

def size (tree : Tree α) : Nat :=
  tree.preorder.length

theorem mapAll_eq_map (f : α → β) (trees : List (Tree α)) : mapAll f trees = trees.map (map f) := by
  induction trees with
  | nil => rfl
  | cons tree trees ih => simp [mapAll, ih]

theorem preorderAll_eq_flatMap (trees : List (Tree α)) :
    preorderAll trees = trees.flatMap preorder := by
  induction trees with
  | nil => rfl
  | cons tree trees ih => simp [preorderAll, ih]

end Tree

end LoopDirectives
