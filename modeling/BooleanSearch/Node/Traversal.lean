import BooleanSearch.Node.Basic

/-!
# Walking a tree

A walk visits a node and then what lies below it, left to right. The visitor carries a state of
its own and decides at each group whether its children are visited too. A walk that is led into a
group that is lacking comes to no result.
-/

namespace BooleanSearch.Node

/-- Looks at a node at its nesting depth; the answer `false` skips the children of a group. -/
abbrev Visitor (σ : Type) := Node → Nat → σ → Bool × σ

mutual

def traverseFrom {σ : Type} (visit : Visitor σ) (depth : Nat) : Node → σ → σ
  | leaf l, s => (visit (leaf l) depth s).2
  | gap k, s => (visit (gap k) depth s).2
  | group c xs, s =>
    let seen := visit (group c xs) depth s
    if seen.1 then traverseAll visit (depth + 1) xs seen.2 else seen.2

def traverseAll {σ : Type} (visit : Visitor σ) (depth : Nat) : List Node → σ → σ
  | [], s => s
  | x :: xs, s => traverseAll visit depth xs (traverseFrom visit depth x s)

end

def traverse {σ : Type} (visit : Visitor σ) (n : Node) (s : σ) : σ := traverseFrom visit 0 n s

def lacksGroup : Node → Bool
  | gap .group => true
  | _ => false

def Visitor.noting {σ : Type} (visit : Visitor σ) : Visitor (σ × Bool) := fun n depth s =>
  let seen := visit n depth s.1
  (seen.1, seen.2, s.2 || (seen.1 && n.lacksGroup))

/-- Walks a tree from its root, unless the visitor asks for the children of a lacking group. -/
def traverse? {σ : Type} (visit : Visitor σ) (n : Node) (s : σ) : Option σ :=
  match traverse visit.noting n (s, false) with
  | (s, false) => some s
  | (_, true) => none

def collectLeaves : Visitor (List Node) := fun n _ found =>
  match n with
  | leaf l => (true, found ++ [leaf l])
  | gap .leaf => (true, found ++ [gap .leaf])
  | _ => (true, found)

def leafPlaces (n : Node) : List Node := traverse collectLeaves n []

def leafPlaces? (n : Node) : Option (List Node) := traverse? collectLeaves n []

def leaf? : Node → Option Leaf
  | leaf l => some l
  | _ => none

def leaves (n : Node) : List Leaf := n.leafPlaces.filterMap leaf?

def measureDepth : Visitor Nat := fun n depth deepest =>
  match n with
  | group _ _ => (true, max deepest (depth + 1))
  | _ => (true, deepest)

/-- The number of group levels; a leaf has none. -/
def depth (n : Node) : Nat := traverse measureDepth n 0

def depth? (n : Node) : Option Nat := traverse? measureDepth n 0

mutual

def hasGap (kinds : List Gap) : Node → Bool
  | leaf _ => false
  | gap k => kinds.contains k
  | group _ xs => hasGapAll kinds xs

def hasGapAll (kinds : List Gap) : List Node → Bool
  | [] => false
  | x :: xs => hasGap kinds x || hasGapAll kinds xs

end

def isComplete (n : Node) : Bool := !n.hasGap [.node, .leaf, .group]

end BooleanSearch.Node
