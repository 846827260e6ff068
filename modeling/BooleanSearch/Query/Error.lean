import BooleanSearch.Node.Basic

/-!
# Parse failures

Each way in which a query can be refused is a cause of its own. A cause belongs to one kind,
which callers can test for, and is reported by the name of its kind followed by a detail.
-/

namespace BooleanSearch

/-- The kinds of failure that callers can tell apart, by their code. -/
inductive FailureKind where
  | generic
  | unbalancedBrackets
  | malformedOperatorPlacement
  | nestingTooDeep
  | other (code : Int)
  deriving DecidableEq, Repr

namespace FailureKind

def ofCode (code : Int) : FailureKind :=
  if code = 0 then generic
  else if code = 1 then unbalancedBrackets
  else if code = 2 then malformedOperatorPlacement
  else if code = 3 then nestingTooDeep
  else other code

def name : FailureKind → String
  | generic => "GenericParseFailure"
  | unbalancedBrackets => "UnbalancedBrackets"
  | malformedOperatorPlacement => "MalformedOperatorPlacement"
  | nestingTooDeep => "NestingTooDeep"
  | other _ => "GenericParseFailure"

def named : List FailureKind :=
  [generic, unbalancedBrackets, malformedOperatorPlacement, nestingTooDeep]

end FailureKind

def spelledChar (c : Char) : Text :=
  if c = Connective.and.symbol then "<<AND>>".toList
  else if c = Connective.andNot.symbol then "<<AND NOT>>".toList
  else if c = Connective.or.symbol then "<<OR>>".toList
  else if c = Connective.orNot.symbol then "<<OR NOT>>".toList
  else [c]

def Text.spelled (t : Text) : Text := t.flatMap spelledChar

/-- Why a query was refused. -/
inductive QueryError where
  /-- A closing bracket at this byte offset closes nothing. -/
  | unexpectedClosing (offset : Nat)
  /-- So many opening brackets are never closed. -/
  | unclosedOpening (count : Nat)
  | reservedCharacter
  | startsWithKeyword (c : Connective)
  | endsWithKeyword (c : Connective)
  | emptyQuery
  | emptyOperand
  | tooDeep (limit : Int)
  | unterminatedQuote (fragment : Text)
  /-- A fragment has a bracket in a place where none can be read. -/
  | shapeless (fragment : Text)
  | missingField (value : Text)
  | missingValue (field : Text)
  | blankValue (fragment : Text)
  /-- A failure that another query language reports under a kind of its choice. -/
  | reported (kind : FailureKind) (detail : Text)
  /-- An unforeseen failure, kept as the cause. -/
  | wrapped (cause : Text)
  deriving DecidableEq, Repr

namespace QueryError

def kind : QueryError → FailureKind
  | unexpectedClosing _ => .unbalancedBrackets
  | unclosedOpening _ => .unbalancedBrackets
  | startsWithKeyword _ => .malformedOperatorPlacement
  | endsWithKeyword _ => .malformedOperatorPlacement
  | tooDeep _ => .nestingTooDeep
  | reported kind _ => kind
  | _ => .generic

def detail [CharacterData] : QueryError → String
  | unexpectedClosing offset => "unexpected ')' at offset " ++ toString offset
  | unclosedOpening count => toString count ++ " unclosed '('"
  | reservedCharacter => "query contains a reserved character"
  | startsWithKeyword c => "query starts with " ++ String.ofList c.keyword
  | endsWithKeyword c => "query ends with " ++ String.ofList c.keyword
  | emptyQuery => "empty query"
  | emptyOperand => "empty operand"
  | tooDeep limit => "groups nest deeper than " ++ toString limit
  | unterminatedQuote fragment => "unterminated quote in " ++ fragment.spelled.quote
  | shapeless fragment =>
    "segment " ++ fragment.spelled.quote ++ " matches no leaf or group shape"
  | missingField value => "value " ++ value.quote ++ " has no field name"
  | missingValue field => "field " ++ field.quote ++ " has no value"
  | blankValue fragment => "empty phrase in " ++ fragment.quote
  | reported _ detail => String.ofList detail
  | wrapped cause => String.ofList cause

/-- The whole report: the name of the kind, and the detail if there is one. -/
def message [CharacterData] (e : QueryError) : String :=
  if e.detail = "" then e.kind.name else e.kind.name ++ ": " ++ e.detail

def isOf (e : QueryError) (kind : FailureKind) : Bool := e.kind = kind

def hasCause : QueryError → Bool
  | wrapped _ => true
  | _ => false

end QueryError

end BooleanSearch
