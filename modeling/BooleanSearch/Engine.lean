import BooleanSearch.Catalog
import BooleanSearch.Ruleset.Reader

/-!
# Search engines

An engine is what is fixed when a parser is built: the output format and the default fields.
Parsing follows the configuration as it is at the time of the call.
-/

namespace BooleanSearch

/-- What is fixed when a parser is built. -/
structure Engine (L : Type := Language) (F : Type := OutputFormat) where
  language : L
  formatter : F
  fields : List Text
  deriving DecidableEq, Repr

inductive SearchError (E : Type := FormatError) where
  | parse (cause : QueryError)
  | format (name : Text) (cause : E)
  | filter (cause : Filter.FilterError)
  | ruleset (cause : Ruleset.ReadError)
  deriving DecidableEq, Repr

def SearchError.message [CharacterData] : SearchError → String
  | parse cause => cause.message
  | format name cause => "format " ++ String.ofList name ++ ": " ++ cause.message
  | filter cause => cause.message
  | ruleset cause => cause.message

def Language.parse (l : Language) (c : Configuration) (query : Text) : Except QueryError Node :=
  match l with
  | .boolean => c.parse query

theorem Language.parse_eq (l : Language) (c : Configuration) (query : Text) :
    l.parse c query = c.parse query := rfl

namespace Engine

variable {F E : Type}

def build {L : Type} (k : Catalog L F) (c : Option Configuration) :
    Except SetupError (Engine L F) := do
  k.verify c
  match c with
  | none => .error .noConfig
  | some c =>
    let language ← k.language c
    let formatter ← k.formatter c
    .ok ⟨language, formatter, c.defaultFields⟩

def standard : Engine := ⟨.boolean, .text, []⟩

theorem build_standard : build .standard (some .standard) = .ok standard := rfl

def parse (e : Engine) (c : Configuration) (query : Text) : Except QueryError Node :=
  e.language.parse c query

def format [Formatter F E] (e : Engine Language F) (c : Configuration) (query : Text) :
    Except (SearchError E) Text := do
  let n ← (e.language.parse c query).mapError .parse
  (Formatter.write e.formatter n).mapError (.format c.formatter)

def toFilter (e : Engine Language F) (c : Configuration) (query : Text) :
    Except SearchError Filter.Document := do
  let n ← (e.language.parse c query).mapError .parse
  (Filter.ofTree e.fields n).mapError .filter

end Engine

def rulesetText [CharacterData] (data : Text) : Except SearchError Text :=
  match Ruleset.read data with
  | .ok n => .ok n.render
  | .error e => .error (.ruleset e)

end BooleanSearch
