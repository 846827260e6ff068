import BooleanSearch.Node.Printer
import BooleanSearch.Query.Normalize
import BooleanSearch.Query.Trace

/-!
# Parsing a query

A query is normalized and grouped into a tree, whose root is always a group: a single leaf is
wrapped as a term.
-/

namespace BooleanSearch.Query

structure Settings extends Rules where
  implicit : Connective

/-- Wraps a leaf as a term, so that the root is a group. -/
def rooted {τ : Type} : Node τ → Node τ
  | .leaf l => .term l
  | n => n

def prepare (settings : Settings) (query : Text) : Except QueryError Text := do
  let normalized ← normalize settings.implicit query
  if normalized.isEmpty then .error .emptyQuery else .ok normalized

/-- Parses a query. -/
def parse (settings : Settings) (query : Text) : Except QueryError Node := do
  let normalized ← prepare settings query
  let root ← nodeAtDepth settings.toRules 0 normalized
  .ok (rooted root)

inductive Event where
  | normalized (query spelled : Text)
  | split (s : Split)
  deriving DecidableEq, Repr

/-- The events of a parse in order. A query that cannot be normalized leaves none. -/
def events (settings : Settings) (query : Text) : List Event :=
  match prepare settings query with
  | .error _ => []
  | .ok normalized =>
    .normalized query normalized.spelled ::
      (splits settings.toRules (settings.toRules.levelsAt 0) 0 normalized).map .split

end BooleanSearch.Query
