import BooleanSearch.Node.Basic

/-!
# The truth value of a tree

A truth assignment to leaves extends to trees. The later operands of a negated connective count
negated, the first one never does.
-/

namespace BooleanSearch

def Connective.combine : Connective → List Bool → Bool
  | _, [b] => b
  | and, bs => bs.all id
  | or, bs => bs.any id
  | andNot, b :: bs => b && bs.all (!·)
  | orNot, b :: bs => b || bs.any (!·)
  | _, _ => false

namespace Connective

@[simp] theorem combine_singleton (c : Connective) (b : Bool) : c.combine [b] = b := by
  cases c <;> rfl

theorem combine_and (b : Bool) (bs : List Bool) : and.combine (b :: bs) = (b && bs.all id) := by
  cases bs with
  | nil => simp
  | cons d bs => rfl

theorem combine_or (b : Bool) (bs : List Bool) : or.combine (b :: bs) = (b || bs.any id) := by
  cases bs with
  | nil => simp
  | cons d bs => rfl

theorem combine_andNot (b : Bool) (bs : List Bool) :
    andNot.combine (b :: bs) = (b && bs.all (!·)) := by
  cases bs with
  | nil => simp
  | cons d bs => rfl

theorem combine_orNot (b : Bool) (bs : List Bool) :
    orNot.combine (b :: bs) = (b || bs.any (!·)) := by
  cases bs with
  | nil => simp
  | cons d bs => rfl

end Connective

namespace Node

mutual

/-- The truth value of a tree. -/
def truth (v : Leaf → Bool) : Node → Bool
  | leaf l => v l
  | gap _ => false
  | group c xs => c.combine (truths v xs)

def truths (v : Leaf → Bool) : List Node → List Bool
  | [] => []
  | x :: xs => truth v x :: truths v xs

end

theorem truths_eq_map (v : Leaf → Bool) (xs : List Node) : truths v xs = xs.map (truth v) := by
  induction xs with
  | nil => rfl
  | cons x xs ih => rw [truths, List.map_cons, ih]

end Node

end BooleanSearch
