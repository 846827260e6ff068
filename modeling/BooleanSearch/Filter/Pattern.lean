import BooleanSearch.Filter.Value
import BooleanSearch.Text.Quoted

/-!
# Match patterns

A text is matched as a regular expression. A plain text is escaped and anchored; one with stars
is a wildcard, in which a star stands for any characters; one between slashes is an expression
already and is only anchored.
-/

namespace BooleanSearch.Filter

def regexSpecials : List Char :=
  ['\\', '^', '$', '.', '|', '?', '*', '+', '(', ')', '[', ']', '{', '}']

def literalChar (c : Char) : Text := if regexSpecials.contains c then ['\\', c] else [c]

def literalPattern (t : Text) : Text := t.flatMap literalChar

def exactPattern (t : Text) : Text := '^' :: (literalPattern t ++ ['$'])

def isSlashed (t : Text) : Bool := 2 < t.length && t.head? == some '/' && t.endsWith '/'

/-- The regular expression between slashes, anchored at both ends. -/
def regexPattern (t : Text) : Text :=
  let inner : Text := t.tail.dropLast
  let opened : Text := if inner.head? == some '^' then inner else '^' :: inner
  if opened.endsWith '$' then opened else opened ++ ['$']

def isWildcard (t : Text) : Bool := t.contains '*'

def wildcardBody (t : Text) : Text :=
  t.flatMap fun c => if c = '*' then ['.', '*'] else literalChar c

/-- The regular expression of a wildcard, anchored at each end that is not a star. -/
def wildcardPattern (t : Text) : Text :=
  (if t.head? == some '*' then [] else ['^']) ++
    (wildcardBody t ++ if t.endsWith '*' then [] else ['$'])

def patternValue (pattern : Text) : Value :=
  .document [("$regex".toList, .text pattern)]

def caselessValue (pattern : Text) : Value :=
  .document [("$regex".toList, .text pattern), ("$options".toList, .text ['i'])]

def textCondition (t : Text) : Value :=
  if isSlashed t then patternValue (regexPattern t)
  else if isWildcard t then patternValue (wildcardPattern t)
  else caselessValue (exactPattern t)

end BooleanSearch.Filter
