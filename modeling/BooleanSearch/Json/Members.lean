import BooleanSearch.Json.Value

/-!
# Members of an object

Members are looked up by key. Keys are first compared as written; only when none fits are the
escapes of all keys undone, and from then on keys are compared without escapes. Of repeated keys
the first counts.
-/

namespace BooleanSearch.Json

/-- The members of an object; `unescaped` tells whether the escapes of the keys are undone. -/
structure Members (α : Type) where
  entries : List (RawText × α)
  unescaped : Bool := false

namespace Members

variable {α : Type}

def find? (m : Members α) (key : RawText) : Option α :=
  (m.entries.find? fun e => e.1 == key).map (·.2)

def unescapeKeys (m : Members α) : Members α :=
  if m.unescaped then m else ⟨m.entries.map fun e => (unescape e.1, e.2), true⟩

/-- Looks a key up, and gives the members as they are for the next lookup. -/
def get (m : Members α) (key : RawText) : Option α × Members α :=
  match m.find? key with
  | some v => (some v, m)
  | none => (m.unescapeKeys.find? key, m.unescapeKeys)

end Members

end BooleanSearch.Json
