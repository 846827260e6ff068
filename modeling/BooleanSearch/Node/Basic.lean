import BooleanSearch.Connective

/-!
# Query trees

A query is a tree of leaves and groups. A tree assembled by hand may have gaps where no node was
given; a gap may still say which kind of node belongs there.
-/

namespace BooleanSearch

/-- A match condition. An empty field means that the value is free text. -/
structure Leaf (τ : Type := Text) where
  field : τ
  value : τ
  phrase : Bool := false
  deriving DecidableEq, Repr, Inhabited

def Leaf.hasField {α : Type} (l : Leaf (List α)) : Bool := !l.field.isEmpty

def Leaf.map {τ υ : Type} (f : τ → υ) (l : Leaf τ) : Leaf υ := ⟨f l.field, f l.value, l.phrase⟩

inductive Gap where
  | node
  | leaf
  | group
  deriving DecidableEq, Repr, Inhabited

/-- A node of a query tree. -/
inductive Node (τ : Type := Text) where
  | leaf (l : Leaf τ)
  | group (connective : Connective τ) (children : List (Node τ))
  | gap (kind : Gap)
  deriving Repr, Inhabited

namespace Node

variable {τ : Type}

/-- A single leaf as a tree of its own: a conjunction of one. -/
def term (l : Leaf τ) : Node τ := group .and [leaf l]

def isTerm : Node τ → Bool
  | group .and [leaf _] => true
  | group .and [gap .leaf] => true
  | _ => false

mutual

def map {υ : Type} (f : τ → υ) : Node τ → Node υ
  | leaf l => leaf (l.map f)
  | group c xs => group (c.map f) (mapAll f xs)
  | gap k => gap k

def mapAll {υ : Type} (f : τ → υ) : List (Node τ) → List (Node υ)
  | [] => []
  | x :: xs => map f x :: mapAll f xs

end

variable [DecidableEq τ]

mutual

def equal : Node τ → Node τ → Bool
  | leaf a, leaf b => a == b
  | group c xs, group d ys => c == d && equalAll xs ys
  | gap k, gap l => k == l
  | _, _ => false

def equalAll : List (Node τ) → List (Node τ) → Bool
  | [], [] => true
  | x :: xs, y :: ys => equal x y && equalAll xs ys
  | _, _ => false

end

mutual

theorem equal_iff : ∀ a b : Node τ, equal a b = true ↔ a = b
  | leaf a, b => by cases b <;> simp [equal]
  | group c xs, b => by
    cases b with
    | group d ys => simp [equal, equalAll_iff xs ys]
    | _ => simp [equal]
  | gap k, b => by cases b <;> simp [equal]

theorem equalAll_iff : ∀ xs ys : List (Node τ), equalAll xs ys = true ↔ xs = ys
  | [], ys => by cases ys <;> simp [equalAll]
  | x :: xs, ys => by
    cases ys with
    | nil => simp [equalAll]
    | cons y ys => simp [equalAll, equal_iff x y, equalAll_iff xs ys]

end

instance : DecidableEq (Node τ) := fun a b =>
  if h : equal a b = true then isTrue ((equal_iff a b).1 h)
  else isFalse fun e => h ((equal_iff a b).2 e)

end Node

end BooleanSearch
