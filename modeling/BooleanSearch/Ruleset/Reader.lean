import BooleanSearch.Json.Members
import BooleanSearch.Json.Reader
import BooleanSearch.Node.Basic
import BooleanSearch.Ruleset.Writer

/-!
# Rulesets as trees

An object with a condition or with rules is a group, any other object a leaf. Conditions are read
in either case, and an underscore in them counts as a space.
-/

namespace BooleanSearch.Ruleset

/-- The way to a rule: its positions in the groups around it, from the outside in. -/
abbrev Path := List Nat

def Path.text (p : Path) : String :=
  "$" ++ String.join (p.map fun i => ".rules[" ++ toString i ++ "]")

inductive ReadError where
  | malformed (cause : Json.ReadError)
  | rootNotGroup
  | notObject (path : Path) (type : String)
  | unknownCondition (path : Path) (word : Text)
  | noRules (path : Path)
  | rulesNotArray (path : Path) (type : String)
  | emptyRules (path : Path)
  | blankValue (path : Path)
  | noField (path : Path)
  deriving DecidableEq, Repr

def ReadError.message [CharacterData] : ReadError → String
  | malformed cause => "invalid ruleset JSON: " ++ cause.message
  | rootNotGroup => "ruleset root must be an object with a condition"
  | notObject path type => path.text ++ ": expected object, got " ++ type
  | unknownCondition path word => path.text ++ ".condition: " ++ Connective.unknownMessage word
  | noRules path => path.text ++ ".rules: missing"
  | rulesNotArray path type =>
    path.text ++ ".rules: value doesn't contain array; it contains " ++ type
  | emptyRules path => path.text ++ ".rules: group has no rules"
  | blankValue path => path.text ++ ".value: empty value"
  | noField path => path.text ++ ".field: column search without a field"

structure Member where
  value : Json
  rules : Path → Except ReadError (List (Node RawText))

def textOf (m : Option Member) : RawText :=
  match m with
  | some m => m.value.text
  | none => []

def conditionWord [CharacterData] (t : RawText) : Text :=
  Text.upper (t.map fun p => if p = .char '_' then ' ' else p.shown)

def groupOfMembers [CharacterData] (m : Json.Members Member) (path : Path) :
    Except ReadError (Node RawText) :=
  let (condition, m) := m.get (raw "condition")
  let word := conditionWord (textOf condition)
  match Connective.parse? word with
  | none => .error (.unknownCondition path word)
  | some c =>
    match (m.get (raw "rules")).1 with
    | none => .error (.noRules path)
    | some rules =>
      match rules.rules path with
      | .error e => .error e
      | .ok [] => .error (.emptyRules path)
      | .ok (x :: xs) => .ok (.group (c.map .ofText) (x :: xs))

/-- Reads the members of a leaf. A field counts with the mark of a column search or without any
mark. -/
def leafOfMembers (m : Json.Members Member) (path : Path) : Except ReadError (Node RawText) :=
  let (value, m) := m.get (raw "value")
  let (phrase, m) := m.get (raw "phrase")
  let value := textOf value
  let phrase := phrase.any fun p => p.value.isTrue
  if value.trim.isEmpty then .error (.blankValue path)
  else
    let (field, m) := m.get (raw "field")
    let field := textOf field
    let entity := textOf (m.get (raw "entity")).1
    if entity = columnSearch ∧ field.isEmpty then .error (.noField path)
    else if entity = columnSearch ∨ entity.isEmpty then .ok (.leaf ⟨field, value, phrase⟩)
    else .ok (.leaf ⟨[], value, phrase⟩)

def nodeOfMembers [CharacterData] (m : Json.Members Member) (path : Path) :
    Except ReadError (Node RawText) :=
  let (condition, m) := m.get (raw "condition")
  if condition.isSome then groupOfMembers m path
  else
    let (rules, m) := m.get (raw "rules")
    if rules.isSome then groupOfMembers m path else leafOfMembers m path

mutual

def ofJson [CharacterData] : Json → Path → Except ReadError (Node RawText)
  | .object members, path => nodeOfMembers ⟨annotate members, false⟩ path
  | .null, path => .error (.notObject path Json.null.typeName)
  | .bool b, path => .error (.notObject path (Json.bool b).typeName)
  | .number n, path => .error (.notObject path (Json.number n).typeName)
  | .string s, path => .error (.notObject path (Json.string s).typeName)
  | .array items, path => .error (.notObject path (Json.array items).typeName)

def rulesOfJson [CharacterData] : Json → Path → Except ReadError (List (Node RawText))
  | .array items, path => rulesOfItems items path 0
  | .null, path => .error (.rulesNotArray path Json.null.typeName)
  | .bool b, path => .error (.rulesNotArray path (Json.bool b).typeName)
  | .number n, path => .error (.rulesNotArray path (Json.number n).typeName)
  | .string s, path => .error (.rulesNotArray path (Json.string s).typeName)
  | .object members, path => .error (.rulesNotArray path (Json.object members).typeName)

def rulesOfItems [CharacterData] :
    List Json → Path → Nat → Except ReadError (List (Node RawText))
  | [], _, _ => .ok []
  | v :: rest, path, index => do
    let node ← ofJson v (path ++ [index])
    let nodes ← rulesOfItems rest path (index + 1)
    .ok (node :: nodes)

def annotate [CharacterData] : List (RawText × Json) → List (RawText × Member)
  | [] => []
  | (key, v) :: rest => (key, ⟨v, rulesOfJson v⟩) :: annotate rest

end

def treeOfJson [CharacterData] (v : Json) : Except ReadError (Node RawText) :=
  match v with
  | .object members =>
    let (condition, m) := (Json.Members.mk (annotate members) false).get (raw "condition")
    if condition.isSome then nodeOfMembers m [] else .error .rootNotGroup
  | _ => .error .rootNotGroup

/-- Reads a ruleset. -/
def unmarshal [CharacterData] (t : RawText) : Except ReadError (Node RawText) :=
  match Json.read t with
  | .error e => .error (.malformed e)
  | .ok v => treeOfJson v

def read [CharacterData] (t : Text) : Except ReadError Node :=
  (unmarshal (.ofText t)).map (Node.map RawText.shown)

end BooleanSearch.Ruleset
