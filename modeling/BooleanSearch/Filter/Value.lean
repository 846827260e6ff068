import BooleanSearch.Calendar.Instant
import BooleanSearch.Decimal.Binary64
import BooleanSearch.Text.Basic

/-!
# Filter documents

A filter is a document: named values, some of which are documents again. The entries of a
document have no order of their own; sorting them by name gives each document one form.
-/

namespace BooleanSearch.Filter

/-- A value in a filter document. -/
inductive Value where
  | text (t : Text)
  | bool (b : Bool)
  | number (x : Binary64)
  | date (i : Instant)
  | document (entries : List (Text × Value))
  | array (items : List Value)
  deriving Repr

abbrev Document := List (Text × Value)

def single (key : Text) (v : Value) : Document := [(key, v)]

def operator (name : String) (filters : List Document) : Document :=
  single name.toList (.array (filters.map .document))

def insertEntry (e : Text × Value) : Document → Document
  | [] => [e]
  | f :: rest => if Text.le e.1 f.1 then e :: f :: rest else f :: insertEntry e rest

def sortEntries (d : Document) : Document := d.foldr insertEntry []

mutual

/-- Sorts every document in a value by name; the order of arrays stays. -/
def Value.sorted : Value → Value
  | .text t => .text t
  | .bool b => .bool b
  | .number x => .number x
  | .date i => .date i
  | .document entries => .document (sortEntries (sortedEntries entries))
  | .array items => .array (sortedItems items)

def sortedEntries : List (Text × Value) → List (Text × Value)
  | [] => []
  | (key, v) :: rest => (key, v.sorted) :: sortedEntries rest

def sortedItems : List Value → List Value
  | [] => []
  | v :: rest => v.sorted :: sortedItems rest

end

end BooleanSearch.Filter
