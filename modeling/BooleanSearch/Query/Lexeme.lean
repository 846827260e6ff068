import BooleanSearch.Text.Blank

/-!
# Lexemes

A query is cut into brackets and words. Blanks separate words; inside double quotes blanks and
brackets belong to the word, and a quote that is never closed runs to the end of the query.
-/

namespace BooleanSearch

inductive Lexeme where
  | opening
  | closing
  | word (text : Text)
  deriving DecidableEq, Repr

namespace Lexeme

/-- A text cut from within a word: the rest of that word, then the lexemes after it. -/
structure Cut where
  within : Text
  after : List Lexeme

def Cut.lexemes (k : Cut) : List Lexeme :=
  match k.within with
  | [] => k.after
  | c :: cs => word (c :: cs) :: k.after

def Cut.extend (c : Char) (k : Cut) : Cut := ⟨c :: k.within, k.after⟩

/-- Cuts a text that begins inside a word, `quoted` if an odd number of quotes came before. -/
def scan (quoted : Bool) : Text → Cut
  | [] => ⟨[], []⟩
  | c :: cs =>
    if c = '"' then (scan (!quoted) cs).extend c
    else if quoted then (scan quoted cs).extend c
    else if isBlank c then ⟨[], (scan quoted cs).lexemes⟩
    else if c = '(' then ⟨[], opening :: (scan quoted cs).lexemes⟩
    else if c = ')' then ⟨[], closing :: (scan quoted cs).lexemes⟩
    else (scan quoted cs).extend c

def ofText (t : Text) : List Lexeme := (scan false t).lexemes

end Lexeme

end BooleanSearch
