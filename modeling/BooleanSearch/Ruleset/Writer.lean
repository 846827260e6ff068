import BooleanSearch.Json.Value
import BooleanSearch.Node.Basic

/-!
# Trees as rulesets

A ruleset is the JSON form of a tree that query builders exchange: a group is an object with a
condition and rules, a leaf one with a value, and with a field if it has one. The texts of the tree
are raw; that of a tree of characters is the special case without stray bytes.
-/

namespace BooleanSearch.Ruleset

inductive WriteError where
  | noNode
  | noLeaf
  | noGroup
  deriving DecidableEq, Repr

def WriteError.message : WriteError → String
  | noNode => "unsupported node <nil>"
  | noLeaf => "nil leaf"
  | noGroup => "nil group"

def columnSearch : RawText := raw "columnsearch"

def leafMembers [CharacterData] (l : Leaf RawText) : List (RawText × Json) :=
  (if l.hasField then
    [(raw "entity", Json.ofText columnSearch), (raw "field", Json.ofText l.field)]
  else []) ++
  ((raw "value", Json.ofText l.value) :: if l.phrase then [(raw "phrase", .bool true)] else [])

def condition : Connective RawText → RawText
  | .other word => word
  | c => .ofText (c.map RawText.shown).keyword

mutual

def toJson [CharacterData] : Node RawText → Except WriteError Json
  | .leaf l => .ok (.object (leafMembers l))
  | .gap .node => .error .noNode
  | .gap .leaf => .error .noLeaf
  | .gap .group => .error .noGroup
  | .group c xs => do
    let rules ← toJsonAll xs
    .ok (.object [(raw "condition", Json.ofText (condition c)), (raw "rules", .array rules)])

def toJsonAll [CharacterData] : List (Node RawText) → Except WriteError (List Json)
  | [] => .ok []
  | x :: xs => do
    let v ← toJson x
    let vs ← toJsonAll xs
    .ok (v :: vs)

end

/-- The written ruleset of a tree. Its root is a group, so a leaf is wrapped as a term. -/
def marshal [CharacterData] (n : Node RawText) : Except WriteError RawText :=
  (toJson (match n with
    | .leaf l => .term l
    | n => n)).map Json.write

def write [CharacterData] (n : Node) : Except WriteError Text :=
  (marshal (n.map .ofText)).map RawText.shown

end BooleanSearch.Ruleset
