import BooleanSearch.Text.Raw

/-!
# JSON values

Values are kept as they are written: a string is held with its escapes, and so are the keys of an
object, whose order and repetitions are kept. Escapes are undone as far as they make sense; one
that does not is left as written.
-/

namespace BooleanSearch

/-- A JSON value. -/
inductive Json where
  | null
  | bool (b : Bool)
  | number (literal : RawText)
  | string (written : RawText)
  | array (items : List Json)
  | object (members : List (RawText × Json))
  deriving Repr

namespace Json

def typeName : Json → String
  | null => "null"
  | bool true => "true"
  | bool false => "false"
  | number _ => "number"
  | string _ => "string"
  | array _ => "array"
  | object _ => "object"

def hexPiece? : Piece → Option Nat
  | .char c => hexValue? c
  | .byte _ => none

def hexUnit? (a b c d : Piece) : Option Nat := do
  let a ← hexPiece? a
  let b ← hexPiece? b
  let c ← hexPiece? c
  let d ← hexPiece? d
  some (((a * 16 + b) * 16 + c) * 16 + d)

def isSurrogate (unit : Nat) : Bool := 0xD800 ≤ unit && unit < 0xE000

def pairChar (first second : Nat) : Char :=
  if first < 0xDC00 ∧ 0xDC00 ≤ second ∧ second < 0xE000 then
    Char.ofNat (0x10000 + (first - 0xD800) * 0x400 + (second - 0xDC00))
  else Char.ofNat 0xFFFD

def escapedChar? (c : Char) : Option Char :=
  if c = '"' ∨ c = '\\' ∨ c = '/' then some c
  else if c = 'b' then some (Char.ofNat 0x08)
  else if c = 'f' then some (Char.ofNat 0x0C)
  else if c = 'n' then some '\n'
  else if c = 'r' then some '\r'
  else if c = 't' then some '\t'
  else none

def escapedPiece? : Piece → Option Piece
  | .char c => (escapedChar? c).map .char
  | .byte _ => none

/-- Undoes the escapes of a string. A unit that needs a second one and is not followed by it is
left as written. -/
def unescape : RawText → RawText
  | [] => []
  | [c] => [c]
  | c :: e :: rest =>
    if c ≠ .char '\\' then c :: unescape (e :: rest)
    else if e ≠ .char 'u' then
      match escapedPiece? e with
      | some d => d :: unescape rest
      | none => c :: e :: unescape rest
    else
      match rest with
      | h₁ :: h₂ :: h₃ :: h₄ :: later =>
        match hexUnit? h₁ h₂ h₃ h₄ with
        | none => c :: e :: unescape (h₁ :: h₂ :: h₃ :: h₄ :: later)
        | some first =>
          if isSurrogate first then
            match later with
            | b :: u :: k₁ :: k₂ :: k₃ :: k₄ :: last =>
              match if b = .char '\\' ∧ u = .char 'u' then hexUnit? k₁ k₂ k₃ k₄ else none with
              | some second => .char (pairChar first second) :: unescape last
              | none =>
                c :: e :: h₁ :: h₂ :: h₃ :: h₄ :: unescape (b :: u :: k₁ :: k₂ :: k₃ :: k₄ :: last)
            | short => c :: e :: h₁ :: h₂ :: h₃ :: h₄ :: unescape short
          else .char (Char.ofNat first) :: unescape later
      | short => c :: e :: unescape short

def needsEscape : Piece → Bool
  | .char c => c == '"' || c == '\\' || c.toNat < 0x20
  | .byte _ => false

def quoted [CharacterData] (p : Piece) : RawText := .ofText p.quoted

/-- The written form of a text inside a string: the text itself, or all of it quoted. -/
def escape [CharacterData] (t : RawText) : RawText :=
  if t.any needsEscape then t.flatMap quoted else t

def ofText [CharacterData] (t : RawText) : Json := string (escape t)

def text : Json → RawText
  | string written => unescape written
  | _ => []

def isTrue : Json → Bool
  | bool b => b
  | _ => false

mutual

def write : Json → RawText
  | null => raw "null"
  | bool true => raw "true"
  | bool false => raw "false"
  | number literal => literal
  | string written => .char '"' :: (written ++ [.char '"'])
  | array items => .char '[' :: (writeItems items ++ [.char ']'])
  | object members => .char '{' :: (writeMembers members ++ [.char '}'])

def writeItems : List Json → RawText
  | [] => []
  | [v] => write v
  | v :: w :: rest => write v ++ .char ',' :: writeItems (w :: rest)

def writeMembers : List (RawText × Json) → RawText
  | [] => []
  | [(key, v)] => .char '"' :: (key ++ .char '"' :: .char ':' :: write v)
  | (key, v) :: m :: rest =>
    .char '"' :: (key ++ .char '"' :: .char ':' ::
      (write v ++ .char ',' :: writeMembers (m :: rest)))

end

end Json

end BooleanSearch
