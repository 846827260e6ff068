import BooleanSearch.Filter.Printer
import BooleanSearch.Node.Printer
import BooleanSearch.Ruleset.Writer

/-!
# Output formats

A tree is written as canonical text, as a ruleset or as a filter.
-/

namespace BooleanSearch

/-- A format for trees. -/
inductive OutputFormat where
  | text
  | ruleset
  | filter (fields : List Text)
  deriving DecidableEq, Repr

inductive FormatError where
  /-- A leaf or a group is lacking, so that the tree has no canonical text. -/
  | incomplete
  | ruleset (cause : Ruleset.WriteError)
  | filter (cause : Filter.FilterError)
  deriving DecidableEq, Repr

def FormatError.isDefect : FormatError → Bool
  | incomplete => true
  | _ => false

def FormatError.message [CharacterData] : FormatError → String
  | incomplete => "incomplete tree"
  | ruleset cause => cause.message
  | filter cause => cause.message

def OutputFormat.write [CharacterData] (f : OutputFormat) (n : Node) : Except FormatError Text :=
  match f with
  | text => match n.render? with
    | some t => .ok t
    | none => .error .incomplete
  | ruleset => (Ruleset.write n).mapError .ruleset
  | filter fields => (Filter.write fields n).mapError .filter

/-- What writes trees, and how it fails. -/
class Formatter (F : Type) (E : outParam Type) where
  write : F → Node → Except E Text

instance [CharacterData] : Formatter OutputFormat FormatError := ⟨OutputFormat.write⟩

end BooleanSearch
