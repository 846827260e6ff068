import BooleanSearch.Query.Error
import BooleanSearch.Query.Segment

/-!
# Reading a leaf

A fragment without connective is a leaf: a value, or a field and a value with a colon between
them. A value that begins and ends with a double quote is a phrase.
-/

namespace BooleanSearch

inductive FieldMode where
  | preserve
  | discard
  | other (code : Int)
  deriving DecidableEq, Repr

namespace FieldMode

def ofCode (code : Int) : FieldMode :=
  if code = 0 then preserve else if code = 1 then discard else other code

def code : FieldMode → Int
  | preserve => 0
  | discard => 1
  | other code => code

def isKnown : FieldMode → Bool
  | other _ => false
  | _ => true

end FieldMode

namespace Query

def unquote? (value : Text) : Option Text :=
  match value with
  | [] => none
  | c :: cs => if c = '"' ∧ cs.getLast? = some '"' then some cs.dropLast else none

/-- Splits a fragment into field and value; the field is empty if none is written. -/
def splitField (fragment : Text) : Except QueryError (Text × Text) :=
  match Segment.breakUnquoted? ':' fragment with
  | none => .ok ([], fragment)
  | some ([], value) => .error (.missingField value)
  | some (field, []) => .error (.missingValue field)
  | some (field, value) => .ok (field, value)

def leafOf (mode : FieldMode) (field value : Text) : Leaf :=
  let field := if mode = .preserve then field else []
  match unquote? value with
  | some inner => ⟨field, inner, true⟩
  | none => ⟨field, value, false⟩

/-- Reads a leaf from a fragment that holds no connective. -/
def readLeaf (mode : FieldMode) (fragment : Text) : Except QueryError Leaf := do
  if fragment.count '"' % 2 ≠ 0 then
    .error (.unterminatedQuote fragment)
  else if Segment.hasUnquoted '(' fragment || Segment.hasUnquoted ')' fragment then
    .error (.shapeless fragment)
  else
    let (field, value) ← splitField fragment
    let leaf := leafOf mode field value
    if leaf.value.trim.isEmpty then .error (.blankValue fragment) else .ok leaf

end Query

end BooleanSearch
