import BooleanSearch.Connective
import BooleanSearch.Query.Lexeme

/-!
# Items

Items are what a query is made of once its keywords are known: terms, brackets and connectives.
`AND` and `OR` are keywords, and a `NOT` that follows one of them belongs to it; anywhere else
`NOT` is an ordinary term.
-/

namespace BooleanSearch

/-- An element of a query. -/
inductive Item where
  | term (text : Text)
  | opening
  | closing
  | keyword (c : Connective)
  deriving DecidableEq, Repr

namespace Item

def connective? (word : Text) : Option Connective :=
  if word = "AND".toList then some .and
  else if word = "OR".toList then some .or
  else none

/-- The items of a sequence of lexemes. Runs of blanks inside a term are squeezed. -/
def ofLexemes : List Lexeme → List Item
  | [] => []
  | .opening :: rest => opening :: ofLexemes rest
  | .closing :: rest => closing :: ofLexemes rest
  | .word w :: rest =>
    match connective? w with
    | none => term w.squeeze :: ofLexemes rest
    | some c =>
      match rest with
      | .word v :: later =>
        if v = "NOT".toList then keyword c.withNot :: ofLexemes later
        else keyword c :: ofLexemes (.word v :: later)
      | .opening :: later => keyword c :: ofLexemes (.opening :: later)
      | .closing :: later => keyword c :: ofLexemes (.closing :: later)
      | [] => [keyword c]

def ofText (t : Text) : List Item := ofLexemes (Lexeme.ofText t)

def text : Item → Text
  | term t => t
  | opening => ['(']
  | closing => [')']
  | keyword c => c.keyword

def glyph : Item → Text
  | keyword c => [c.symbol]
  | i => i.text

def opensOperand : Item → Bool
  | term _ => true
  | opening => true
  | _ => false

def closesOperand : Item → Bool
  | term _ => true
  | closing => true
  | _ => false

def joinOperands (implicit : Connective) : List Item → List Item
  | [] => []
  | [i] => [i]
  | i :: j :: rest =>
    if i.closesOperand && j.opensOperand then
      i :: keyword implicit :: joinOperands implicit (j :: rest)
    else i :: joinOperands implicit (j :: rest)

def gapBetween (i j : Item) : Text :=
  if i = opening ∨ j = closing then [] else [' ']

def render : List Item → Text
  | [] => []
  | [i] => i.glyph
  | i :: j :: rest => i.glyph ++ (gapBetween i j ++ render (j :: rest))

end Item

end BooleanSearch
