import BooleanSearch.Json.Value
import BooleanSearch.Text.Excerpt

/-!
# Reading JSON

Values are read by descent, with a limit on nesting. Numbers are not checked beyond the
characters they consist of. A failure says in which parts of the text it occurred, what was
wrong, and what remained unread.
-/

namespace BooleanSearch.Json

inductive Place where
  | object
  | objectKey
  | objectValue
  | array
  | arrayValue
  | string
  | number
  deriving DecidableEq, Repr

def Place.message : Place → String
  | object => "cannot parse object"
  | objectKey => "cannot parse object key"
  | objectValue => "cannot parse object value"
  | array => "cannot parse array"
  | arrayValue => "cannot parse array value"
  | string => "cannot parse string"
  | number => "cannot parse number"

def maxDepth : Nat := 300

inductive Cause where
  | noValue
  | tooDeep
  | openObject
  | openArray
  | noKey
  | noColon
  | objectEnds
  | noObjectComma
  | arrayEnds
  | noArrayComma
  | openString
  | unknownWord (rest : RawText)
  | unknownCharacter (rest : RawText)
  deriving DecidableEq, Repr

def Cause.message [CharacterData] : Cause → String
  | noValue => "cannot parse empty string"
  | tooDeep => "too big depth for the nested JSON; it exceeds " ++ toString maxDepth
  | openObject => "missing '\x7d'"
  | openArray => "missing ']'"
  | noKey => "cannot find opening '\"\" for object key"
  | noColon => "missing ':' after object key"
  | objectEnds => "unexpected end of object"
  | noObjectComma => "missing ',' after object value"
  | arrayEnds => "unexpected end of array"
  | noArrayComma => "missing ',' after array value"
  | openString => "missing closing '\"'"
  | unknownWord rest => "unexpected value found: " ++ rest.quote
  | unknownCharacter rest => "unexpected char: " ++ (rest.takeBytes 1).quote

/-- A failure: the parts around it from the outside in, its cause, and the unread text. -/
structure Failure where
  places : List Place
  cause : Cause
  tail : RawText
  deriving DecidableEq, Repr

abbrev Reading (α : Type) := Except Failure (α × RawText)

def fail {α : Type} (cause : Cause) (tail : RawText) : Reading α := .error ⟨[], cause, tail⟩

def within {α : Type} (place : Place) : Reading α → Reading α
  | .ok r => .ok r
  | .error f => .error { f with places := place :: f.places }

def isBlankPiece : Piece → Bool
  | .char c => c == ' ' || c == '\n' || c == '\t' || c == '\r'
  | .byte _ => false

def skipBlanks (t : RawText) : RawText := t.dropWhile isBlankPiece

/-- The raw text of a string up to its closing quote, and what follows. A quote after a backslash
does not close, nor does a backslash after one escape. -/
def rawFrom (escaped : Bool) : RawText → Option (RawText × RawText)
  | [] => none
  | c :: cs =>
    if escaped then (rawFrom false cs).map fun r => (c :: r.1, r.2)
    else if c = .char '"' then some ([], cs)
    else (rawFrom (c = .char '\\') cs).map fun r => (c :: r.1, r.2)

def readRaw (t : RawText) : Reading RawText :=
  match rawFrom false t with
  | some r => .ok r
  | none => fail .openString []

def isNumberPiece : Piece → Bool
  | .char c => (digitValue? c).isSome || c == '.' || c == '-' || c == '+' || c == 'e' || c == 'E'
  | .byte _ => false

def startsWithWord (word : String) (t : RawText) : Bool :=
  (t.take word.toList.length).map (fun p => lowerChar p.shown) == word.toList

def startsWithNumberWord (t : RawText) : Bool :=
  startsWithWord "inf" t || startsWithWord "nan" t

def readNumber (t : RawText) : Reading Json :=
  let literal := t.takeWhile isNumberPiece
  let rest := t.dropWhile isNumberPiece
  if !rest.isEmpty && (literal.isEmpty || literal == raw "-" || literal == raw "+") then
    if startsWithNumberWord rest then .ok (.number (literal ++ rest.take 3), rest.drop 3)
    else fail (.unknownCharacter t) t
  else .ok (.number literal, rest)

def readWord (word : String) (v : Json) (t : RawText) : Reading Json :=
  if (raw word).isPrefixOf t then .ok (v, t.drop (raw word).length)
  else fail (.unknownWord t) t

def readItems (value : RawText → Reading Json) : (count : Nat) → RawText → Reading (List Json)
  | 0, t => fail .arrayEnds t
  | count + 1, t =>
    (within .arrayValue (value (skipBlanks t))).bind fun (v, rest) =>
      match skipBlanks rest with
      | [] => fail .arrayEnds []
      | c :: rest =>
        if c = .char ',' then (readItems value count rest).map fun r => (v :: r.1, r.2)
        else if c = .char ']' then .ok ([v], rest)
        else fail .noArrayComma (c :: rest)

def readArray (value : RawText → Reading Json) (count : Nat) (t : RawText) : Reading Json :=
  match skipBlanks t with
  | [] => fail .openArray []
  | c :: rest =>
    if c = .char ']' then .ok (.array [], rest)
    else (readItems value count (c :: rest)).map fun r => (.array r.1, r.2)

def readKey (t : RawText) : Reading RawText :=
  match skipBlanks t with
  | .char '"' :: rest =>
    (within .objectKey (readRaw rest)).bind fun (key, rest) =>
      match skipBlanks rest with
      | .char ':' :: rest => .ok (key, rest)
      | rest => fail .noColon rest
  | rest => fail .noKey rest

def readMembers (value : RawText → Reading Json) :
    (count : Nat) → RawText → Reading (List (RawText × Json))
  | 0, t => fail .objectEnds t
  | count + 1, t =>
    (readKey t).bind fun (key, rest) =>
      (within .objectValue (value (skipBlanks rest))).bind fun (v, rest) =>
        match skipBlanks rest with
        | [] => fail .objectEnds []
        | c :: rest =>
          if c = .char ',' then (readMembers value count rest).map fun r => ((key, v) :: r.1, r.2)
          else if c = .char '}' then .ok ([(key, v)], rest)
          else fail .noObjectComma (c :: rest)

def readObject (value : RawText → Reading Json) (count : Nat) (t : RawText) : Reading Json :=
  match skipBlanks t with
  | [] => fail .openObject []
  | c :: rest =>
    if c = .char '}' then .ok (.object [], rest)
    else (readMembers value count (c :: rest)).map fun r => (.object r.1, r.2)

def readScalar (c : Piece) (cs : RawText) : Reading Json :=
  if c = .char '"' then within .string ((readRaw cs).map fun r => (.string r.1, r.2))
  else if c = .char 't' then readWord "true" (.bool true) (c :: cs)
  else if c = .char 'f' then readWord "false" (.bool false) (c :: cs)
  else if c = .char 'n' then
    if startsWithWord "nan" (c :: cs) then
      .ok (.number ((c :: cs).take 3), (c :: cs).drop 3)
    else readWord "null" .null (c :: cs)
  else within .number (readNumber (c :: cs))

/-- Reads a value with so many levels of nesting left, and with at most `count` items or members
at each of them. -/
def readValue (count : Nat) : (levels : Nat) → RawText → Reading Json
  | _, [] => fail .noValue []
  | 0, c :: cs => fail .tooDeep (c :: cs)
  | levels + 1, c :: cs =>
    if c = .char '{' then within .object (readObject (readValue count levels) count cs)
    else if c = .char '[' then within .array (readArray (readValue count levels) count cs)
    else readScalar c cs

inductive ReadError where
  | failed (f : Failure)
  | trailing (rest : RawText)
  deriving DecidableEq, Repr

def ReadError.message [CharacterData] : ReadError → String
  | failed f =>
    let chain := (f.places.map Place.message) ++ [f.cause.message]
    "cannot parse JSON: " ++ String.intercalate ": " chain ++ "; unparsed tail: " ++
      f.tail.excerpt.quote
  | trailing rest => "unexpected tail: " ++ rest.excerpt.quote

/-- Reads a text that holds one value. Each item or member takes up a character, so there are no
more of them than characters. -/
def read (t : RawText) : Except ReadError Json :=
  match readValue (t.length + 1) maxDepth (skipBlanks t) with
  | .error f => .error (.failed f)
  | .ok (v, rest) =>
    let rest := skipBlanks rest
    if rest.isEmpty then .ok v else .error (.trailing rest)

end BooleanSearch.Json
