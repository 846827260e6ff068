import BooleanSearch.Node.Traversal
import Mathlib.Data.List.Forall2

/-!
# Group levels and leaves

The depth of a tree is measured by a walk that carries the deepest group seen so far. It agrees
with the number of levels counted along the structure of the tree. The leaves that a walk collects
are those of the children of each group in turn.
-/

namespace BooleanSearch.Node

mutual

def levels : Node → Nat
  | leaf _ => 0
  | gap _ => 0
  | group _ xs => levelsAll xs + 1

def levelsAll : List Node → Nat
  | [] => 0
  | x :: xs => max (levels x) (levelsAll xs)

end

private def deepest (depth levels : Nat) : Nat := if levels = 0 then 0 else depth + levels

mutual

private theorem traverseFrom_measureDepth : ∀ (n : Node) (depth seen : Nat),
    traverseFrom measureDepth depth n seen = max seen (deepest depth n.levels)
  | leaf l, depth, seen => by simp [traverseFrom, measureDepth, levels, deepest]
  | gap k, depth, seen => by simp [traverseFrom, measureDepth, levels, deepest]
  | group c xs, depth, seen => by
    simp only [traverseFrom, measureDepth, if_true, levels]
    rw [traverseAll_measureDepth xs (depth + 1)]
    simp only [deepest]
    split <;> split <;> omega

private theorem traverseAll_measureDepth : ∀ (xs : List Node) (depth seen : Nat),
    traverseAll measureDepth depth xs seen = max seen (deepest depth (levelsAll xs))
  | [], depth, seen => by simp [traverseAll, levelsAll, deepest]
  | x :: xs, depth, seen => by
    rw [traverseAll, traverseFrom_measureDepth x, traverseAll_measureDepth xs, levelsAll]
    simp only [deepest]
    split <;> split <;> split <;> omega

end

/-- The measured depth of a tree is its number of group levels. -/
theorem depth_eq_levels (n : Node) : n.depth = n.levels := by
  rw [depth, traverse, traverseFrom_measureDepth]
  simp only [deepest]
  split <;> omega

theorem levelsAll_le_iff {xs : List Node} {m : Nat} :
    levelsAll xs ≤ m ↔ ∀ x ∈ xs, x.levels ≤ m := by
  induction xs with
  | nil => simp [levelsAll]
  | cons x xs ih => rw [levelsAll, Nat.max_le, ih, List.forall_mem_cons]

@[simp] theorem depth_leaf (l : Leaf) : (leaf l).depth = 0 := rfl

theorem depth_group_le_iff {c : Connective} {xs : List Node} {m : Nat} :
    (group c xs).depth ≤ m + 1 ↔ ∀ x ∈ xs, x.depth ≤ m := by
  simp only [depth_eq_levels, levels, Nat.add_le_add_iff_right]
  exact levelsAll_le_iff

theorem depth_group_pos (c : Connective) (xs : List Node) : 0 < (group c xs).depth := by
  rw [depth_eq_levels, levels]
  exact Nat.succ_pos _

mutual

private theorem traverseFrom_collectLeaves : ∀ (n : Node) (depth : Nat) (found : List Node),
    traverseFrom collectLeaves depth n found = found ++ n.leafPlaces
  | leaf l, depth, found => rfl
  | gap k, depth, found => by cases k <;> simp [leafPlaces, traverse, traverseFrom, collectLeaves]
  | group c xs, depth, found => by
    simp only [leafPlaces, traverse, traverseFrom, collectLeaves, if_true]
    rw [traverseAll_collectLeaves xs, traverseAll_collectLeaves xs, List.nil_append]

private theorem traverseAll_collectLeaves : ∀ (xs : List Node) (depth : Nat) (found : List Node),
    traverseAll collectLeaves depth xs found = found ++ xs.flatMap leafPlaces
  | [], depth, found => by simp [traverseAll]
  | x :: xs, depth, found => by
    rw [traverseAll, traverseFrom_collectLeaves x, traverseAll_collectLeaves xs, List.flatMap_cons,
      List.append_assoc]

end

@[simp] theorem leaves_leaf (l : Leaf) : (leaf l).leaves = [l] := rfl

theorem leaves_group (c : Connective) (xs : List Node) :
    (group c xs).leaves = xs.flatMap leaves := by
  have hplaces : (group c xs).leafPlaces = xs.flatMap leafPlaces := by
    simp only [leafPlaces, traverse, traverseFrom, collectLeaves, if_true]
    exact traverseAll_collectLeaves xs 1 []
  rw [leaves, hplaces, List.filterMap_flatMap]
  rfl

mutual

/-- The nodes of a tree whose root lies at `depth`, each with its own depth: first the root, then
the nodes below it from left to right. -/
def preorder (depth : Nat) : Node → List (Node × Nat)
  | leaf l => [(leaf l, depth)]
  | gap k => [(gap k, depth)]
  | group c xs => (group c xs, depth) :: preorderAll (depth + 1) xs

def preorderAll (depth : Nat) : List Node → List (Node × Nat)
  | [] => []
  | x :: xs => preorder depth x ++ preorderAll depth xs

end

theorem preorderAll_eq_flatMap (depth : Nat) (xs : List Node) :
    preorderAll depth xs = xs.flatMap (preorder depth) := by
  induction xs with
  | nil => rfl
  | cons x xs ih => rw [preorderAll, ih, List.flatMap_cons]

end BooleanSearch.Node
