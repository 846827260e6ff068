import BooleanSearch.Connective
import BooleanSearch.Text.Blank

/-!
# Segments of normalized text

Normalized text is scanned with one notion of quoting: each double quote toggles it, and what is
quoted counts neither as a bracket nor as a symbol. Brackets may be out of balance, so their
depth is an integer.
-/

namespace BooleanSearch.Segment

/-- The byte offsets of a symbol outside quotes at bracket depth zero, in a text that begins at
`offset` inside `depth` brackets. -/
def splitPointsFrom (symbol : Char) (offset : Nat) (depth : Int) (quoted : Bool) : Text → List Nat
  | [] => []
  | c :: cs =>
    let next := offset + c.utf8Size
    if c = '"' then splitPointsFrom symbol next depth (!quoted) cs
    else if quoted then splitPointsFrom symbol next depth quoted cs
    else if c = '(' then splitPointsFrom symbol next (depth + 1) quoted cs
    else if c = ')' then splitPointsFrom symbol next (depth - 1) quoted cs
    else if c = symbol ∧ depth = 0 then offset :: splitPointsFrom symbol next depth quoted cs
    else splitPointsFrom symbol next depth quoted cs

def splitPoints (c : Connective) (t : Text) : List Nat := splitPointsFrom c.symbol 0 0 false t

def extendFirst (c : Char) : List Text → List Text
  | [] => [[c]]
  | s :: rest => (c :: s) :: rest

/-- Cuts a text that begins at `offset` at the characters that start at the given offsets, and
drops these characters. -/
def cutFrom (offset : Nat) : Text → List Nat → List Text
  | [], _ => [[]]
  | c :: cs, [] => [c :: cs]
  | c :: cs, p :: ps =>
    if offset = p then [] :: cutFrom (offset + c.utf8Size) cs ps
    else extendFirst c (cutFrom (offset + c.utf8Size) cs (p :: ps))

def cut (t : Text) (offsets : List Nat) : List Text := cutFrom 0 t offsets

def closingFrom (offset : Nat) (depth : Int) (quoted : Bool) : Text → Option Nat
  | [] => none
  | c :: cs =>
    let next := offset + c.utf8Size
    if c = '"' then closingFrom next depth (!quoted) cs
    else if quoted then closingFrom next depth quoted cs
    else if c = '(' then closingFrom next (depth + 1) quoted cs
    else if c = ')' then
      if depth = 1 then some offset else closingFrom next (depth - 1) quoted cs
    else closingFrom next depth quoted cs

def closingOffset? (t : Text) : Option Nat := closingFrom 0 0 false t

def unwrap? (t : Text) : Option Text :=
  match t with
  | [] => none
  | c :: cs =>
    if c = '(' ∧ closingOffset? (c :: cs) = some (Text.byteSize (c :: cs) - 1) then
      some cs.dropLast
    else none

def unwrapPairs : (pairs : Nat) → Text → Text
  | 0, t => t
  | pairs + 1, t =>
    match unwrap? t with
    | none => t
    | some inner => unwrapPairs pairs inner.trim

/-- Removes all pairs of brackets that wrap all of a text, and the spaces inside them. Each pair
takes up a character, so there are no more pairs than characters. -/
def unwrapAll (t : Text) : Text := unwrapPairs t.length t

def breakFrom (mark : Char) (quoted : Bool) : Text → Option (Text × Text)
  | [] => none
  | c :: cs =>
    if c = '"' then (breakFrom mark (!quoted) cs).map fun (a, b) => (c :: a, b)
    else if !quoted && c = mark then some ([], cs)
    else (breakFrom mark quoted cs).map fun (a, b) => (c :: a, b)

def breakUnquoted? (mark : Char) (t : Text) : Option (Text × Text) := breakFrom mark false t

def offsetUnquoted? (mark : Char) (t : Text) : Option Nat :=
  (breakUnquoted? mark t).map fun (before, _) => before.byteSize

def hasUnquoted (mark : Char) (t : Text) : Bool := (breakUnquoted? mark t).isSome

end BooleanSearch.Segment
