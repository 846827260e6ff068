import BooleanSearch.Query.Leaf

/-!
# Grouping

Normalized text is split at its root connective, the first of the split order that occurs outside
brackets, and each segment becomes an operand of a group. Text without connective is a leaf.
-/

namespace BooleanSearch.Query

structure Rules where
  fieldMode : FieldMode
  maxDepth : Int

def operandText (t : Text) : Text := Segment.unwrapAll t.trim

/-- The connective at which a text is split, and its segments. -/
def rootSplit? (t : Text) : Option (Connective × List Text) :=
  Connective.splitOrder.findSome? fun c =>
    match Segment.splitPoints c t with
    | [] => none
    | p :: ps => some (c, Segment.cut t (p :: ps))

/-- The node of a text, given how its segments become nodes, if a group may still be made. -/
def nodeBy (rules : Rules) (inner : Option (Text → Except QueryError Node)) (t : Text) :
    Except QueryError Node :=
  let operand := operandText t
  if operand.isEmpty then .error .emptyOperand
  else
    match rootSplit? operand, inner with
    | none, _ => (readLeaf rules.fieldMode operand).map .leaf
    | some _, none => .error (.tooDeep rules.maxDepth)
    | some (c, segments), some inner => (segments.mapM inner).map (.group c)

def nodeOf (rules : Rules) : (levels : Nat) → Text → Except QueryError Node
  | 0 => nodeBy rules none
  | levels + 1 => nodeBy rules (some (nodeOf rules levels))

def Rules.levelsAt (rules : Rules) (depth : Int) : Nat := (rules.maxDepth - depth).toNat

def nodeAtDepth (rules : Rules) (depth : Int) (t : Text) : Except QueryError Node :=
  nodeOf rules (rules.levelsAt depth) t

end BooleanSearch.Query
