import BooleanSearch.Query.Parse

/-!
# Configuration

A configuration names the query language and the output format, and sets what parsing depends on.
Settings may be changed freely; they are checked when a parser is built.
-/

namespace BooleanSearch

/-- The settings of a parser. -/
structure Configuration where
  language : Text
  formatter : Text
  defaultFields : List Text
  fieldMode : FieldMode
  defaultConnective : Connective
  maxDepth : Int
  deriving DecidableEq, Repr

namespace Configuration

def standard : Configuration where
  language := "boolean".toList
  formatter := "text".toList
  defaultFields := []
  fieldMode := .preserve
  defaultConnective := .and
  maxDepth := 64

def blank : Configuration where
  language := []
  formatter := []
  defaultFields := []
  fieldMode := .preserve
  defaultConnective := .ofKeyword []
  maxDepth := 0

/-- Changes to some of the settings. -/
structure Update where
  language : Option Text := none
  formatter : Option Text := none
  defaultFields : Option (List Text) := none
  fieldMode : Option FieldMode := none
  defaultConnective : Option Connective := none
  maxDepth : Option Int := none
  deriving DecidableEq, Repr

def Update.isEmpty (u : Update) : Bool := u = {}

def update (c : Configuration) (u : Update) : Configuration where
  language := u.language.getD c.language
  formatter := u.formatter.getD c.formatter
  defaultFields := u.defaultFields.getD c.defaultFields
  fieldMode := u.fieldMode.getD c.fieldMode
  defaultConnective := u.defaultConnective.getD c.defaultConnective
  maxDepth := u.maxDepth.getD c.maxDepth

inductive Fault where
  | maxDepth (depth : Int)
  | unknownConnective (word : Text)
  | negatedConnective
  | fieldMode (code : Int)
  deriving DecidableEq, Repr

def Fault.message [CharacterData] : Fault → String
  | maxDepth depth => "max depth must be positive, got " ++ toString depth
  | unknownConnective word => "invalid default connective " ++ word.quote
  | negatedConnective => "default connective cannot be a negation"
  | fieldMode code => "invalid field mode " ++ toString code

/-- Checks the settings on which parsing depends. -/
def check (c : Configuration) : Except Fault Unit :=
  if c.maxDepth ≤ 0 then .error (.maxDepth c.maxDepth)
  else if !c.defaultConnective.isKnown then
    .error (.unknownConnective c.defaultConnective.keyword)
  else if c.defaultConnective.isNegated then .error .negatedConnective
  else if !c.fieldMode.isKnown then .error (.fieldMode c.fieldMode.code)
  else .ok ()

def settings (c : Configuration) : Query.Settings where
  fieldMode := c.fieldMode
  maxDepth := c.maxDepth
  implicit := c.defaultConnective

def parse (c : Configuration) (query : Text) : Except QueryError Node :=
  Query.parse c.settings query

end Configuration

end BooleanSearch
