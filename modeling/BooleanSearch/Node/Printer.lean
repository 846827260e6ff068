import BooleanSearch.Node.Traversal
import BooleanSearch.Text.CharacterData

/-!
# Canonical text

The canonical text of a tree puts every group in brackets, with the uppercase keyword between
its operands. A gap is written as nothing; the separators around it stay.
-/

namespace BooleanSearch

def Leaf.render (l : Leaf) : Text :=
  (if l.hasField then l.field ++ [':'] else []) ++
    (if l.phrase then '"' :: (l.value ++ ['"']) else l.value)

namespace Node

mutual

/-- The canonical text of a tree. -/
def render [CharacterData] : Node → Text
  | leaf l => l.render
  | gap _ => []
  | group c xs => '(' :: (renderAll (' ' :: (c.keyword.upper ++ [' '])) xs ++ [')'])

def renderAll [CharacterData] (separator : Text) : List Node → Text
  | [] => []
  | [x] => render x
  | x :: y :: ys => render x ++ (separator ++ renderAll separator (y :: ys))

end

/-- The canonical text of a tree without gaps of a known kind; there is none for the others. -/
def render? [CharacterData] (n : Node) : Option Text :=
  if n.hasGap [.leaf, .group] then none else some n.render

end Node

end BooleanSearch
