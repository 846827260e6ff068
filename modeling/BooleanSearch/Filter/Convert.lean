import BooleanSearch.Filter.Operand
import BooleanSearch.Node.Basic

/-!
# Trees as filters

A tree becomes a filter document. Conjunctions and disjunctions become operators, except that
plain conditions on distinct fields are merged into one document; the later operands of a negated
connective go under `$nor`. Free text is matched against the default fields; without any it is a
text search, of which a filter can hold one and which cannot be negated.
-/

namespace BooleanSearch.Filter

inductive FilterError where
  | noTree
  | noNode
  | noLeaf
  | emptyGroup
  | unknownConnective (word : Text)
  | badValue (field : Text) (cause : ValueError)
  | negatedText (value : Text)
  | repeatedText (value : Text)
  deriving DecidableEq, Repr

namespace FilterError

def textSearch : String := "free-text term needs default fields"

def isTextSearch : FilterError → Bool
  | negatedText _ => true
  | repeatedText _ => true
  | _ => false

def message [CharacterData] : FilterError → String
  | noTree => "nil node"
  | noNode => "unsupported node <nil>"
  | noLeaf => "nil leaf"
  | emptyGroup => "empty group"
  | unknownConnective word => Connective.unknownMessage word
  | badValue field cause => "field " ++ String.ofList field ++ ": " ++ cause.message
  | negatedText value => textSearch ++ ": " ++ value.quote ++ " is negated"
  | repeatedText value => textSearch ++ ": " ++ value.quote ++ " is a second free-text term"

end FilterError

def fieldFilter (l : Leaf) : Except FilterError Document :=
  if l.phrase then .ok (single l.field (.text l.value))
  else
    match readValue l.value with
    | .ok v => .ok (single l.field v)
    | .error e => .error (.badValue l.field e)

def leafCondition (l : Leaf) : Value :=
  if l.phrase then caselessValue (exactPattern l.value) else textCondition l.value

def defaultFieldFilter (fields : List Text) (l : Leaf) : Document :=
  match fields with
  | [field] => single field (leafCondition l)
  | fields => operator "$or" (fields.map fun field => single field (leafCondition l))

def textFilter (l : Leaf) : Document :=
  let search := if l.phrase then '"' :: (l.value ++ ['"']) else l.value
  single "$text".toList (.document (single "$search".toList (.text search)))

def freeTextFilter (fields : List Text) (negated used : Bool) (l : Leaf) :
    Except FilterError (Document × Bool) :=
  if !fields.isEmpty then .ok (defaultFieldFilter fields l, used)
  else if negated then .error (.negatedText l.value)
  else if used then .error (.repeatedText l.value)
  else .ok (textFilter l, true)

def isPlain : Document → Bool
  | [(key, _)] => key.head? != some '$'
  | _ => false

/-- Merges single conditions on distinct fields into the entries of one document. -/
def merge? : List Document → Option Document
  | [] => some []
  | d :: rest =>
    if isPlain d then
      (merge? rest).bind fun merged =>
        if d.any fun e => merged.any fun f => f.1 == e.1 then none else some (d ++ merged)
    else none

def conjunction (filters : List Document) : Document :=
  match merge? filters with
  | some merged => merged
  | none => operator "$and" filters

def combine (c : Connective) (first : Document) (rest : List Document) :
    Except FilterError Document :=
  match c with
  | .and => .ok (conjunction (first :: rest))
  | .or => .ok (operator "$or" (first :: rest))
  | .andNot => .ok (operator "$and" [first, operator "$nor" rest])
  | .orNot => .ok (operator "$or" (first :: rest.map fun d => operator "$nor" [d]))
  | .other word => .error (.unknownConnective word)

mutual

/-- The filter of a tree. Under a negated connective the sense of `negated` is turned over. The
flag `used` tells whether the text search has been used, before and after. -/
def convert (fields : List Text) (negated : Bool) :
    Node → (used : Bool) → Except FilterError (Document × Bool)
  | .leaf l, used =>
    if l.hasField then (fieldFilter l).map fun d => (d, used)
    else freeTextFilter fields negated used l
  | .gap .node, _ => .error .noNode
  | .gap .leaf, _ => .error .noLeaf
  | .gap .group, _ => .error .emptyGroup
  | .group _ [], _ => .error .emptyGroup
  | .group _ [x], used => convert fields negated x used
  | .group c (x :: y :: ys), used => do
    let (first, used) ← convert fields negated x used
    if c.isKnown then
      let (rest, used) ← convertAll fields (negated ^^ c.isNegated) (y :: ys) used
      let d ← combine c first rest
      .ok (d, used)
    else .error (.unknownConnective c.keyword)

def convertAll (fields : List Text) (negated : Bool) :
    List Node → (used : Bool) → Except FilterError (List Document × Bool)
  | [], used => .ok ([], used)
  | x :: xs, used => do
    let (d, used) ← convert fields negated x used
    let (rest, used) ← convertAll fields negated xs used
    .ok (d :: rest, used)

end

def ofTree (fields : List Text) (n : Node) : Except FilterError Document :=
  match n with
  | .gap .node => .error .noTree
  | n => (convert fields false n false).map (·.1)

end BooleanSearch.Filter
