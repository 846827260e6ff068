import BooleanSearch.Query.Error
import BooleanSearch.Query.Item

/-!
# Normalized text

Before a query is split it is brought into a normal form: blanks squeezed, implicit connectives
written out and every keyword replaced by a reserved character. Brackets are checked first, by
counting all of them, also those inside quotes.
-/

namespace BooleanSearch.Query

def requireBalanceFrom (offset depth : Nat) : Text → Except QueryError Unit
  | [] => if depth = 0 then .ok () else .error (.unclosedOpening depth)
  | c :: cs =>
    if c = '(' then requireBalanceFrom (offset + c.utf8Size) (depth + 1) cs
    else if c = ')' then
      match depth with
      | 0 => .error (.unexpectedClosing offset)
      | depth + 1 => requireBalanceFrom (offset + c.utf8Size) depth cs
    else requireBalanceFrom (offset + c.utf8Size) depth cs

def requireBalance (t : Text) : Except QueryError Unit := requireBalanceFrom 0 0 t

def refuseOuterKeywords (items : List Item) : Except QueryError Unit :=
  match items.head?, items.getLast? with
  | some (.keyword c), _ => .error (.startsWithKeyword c)
  | _, some (.keyword c) => .error (.endsWithKeyword c)
  | _, _ => .ok ()

def hasReserved (t : Text) : Bool := t.any fun c => Connective.symbols.contains c

def itemsOf (implicit : Connective) (query : Text) : List Item :=
  Item.joinOperands implicit (Item.ofText query.trim)

/-- The normalized text of a query. -/
def normalize (implicit : Connective) (query : Text) : Except QueryError Text := do
  requireBalance query
  if hasReserved query.trim then .error .reservedCharacter
  else
    refuseOuterKeywords (Item.ofText query.trim)
    .ok (Item.render (itemsOf implicit query))

end BooleanSearch.Query
