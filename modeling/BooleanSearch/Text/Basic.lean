/-!
# Query text

Text is a list of characters. Offsets into it count bytes of its UTF-8 form, which is a
measure on characters and never an index.
-/

namespace BooleanSearch

/-- Query text, field names, values and every rendered form of a query. -/
abbrev Text := List Char

namespace Text

def byteSize : Text → Nat
  | [] => 0
  | c :: cs => c.utf8Size + byteSize cs

@[simp] theorem byteSize_nil : byteSize [] = 0 := rfl

@[simp] theorem byteSize_cons (c : Char) (cs : Text) :
    byteSize (c :: cs) = c.utf8Size + byteSize cs := rfl

theorem byteSize_append (s t : Text) : byteSize (s ++ t) = byteSize s + byteSize t := by
  induction s with
  | nil => simp
  | cons c cs ih => simp [ih, Nat.add_assoc]

/-- Compares texts by code point, which is also the order of their UTF-8 bytes. -/
def le : Text → Text → Bool
  | [], _ => true
  | _ :: _, [] => false
  | c :: cs, d :: ds => c.val < d.val || (c == d && le cs ds)

def endsWith (c : Char) (t : Text) : Bool := t.getLast? == some c

end Text

def lowerChar (c : Char) : Char :=
  if 'A' ≤ c ∧ c ≤ 'Z' then Char.ofNat (c.toNat + 32) else c

def hexDigit (n : Nat) : Char :=
  if n < 10 then Char.ofNat (48 + n) else Char.ofNat (87 + n)

def hexDigits : (width : Nat) → Nat → Text
  | 0, _ => []
  | width + 1, n => hexDigits width (n / 16) ++ [hexDigit (n % 16)]

def hexValue? (c : Char) : Option Nat :=
  if '0' ≤ c ∧ c ≤ '9' then some (c.toNat - 48)
  else if 'a' ≤ c ∧ c ≤ 'f' then some (c.toNat - 87)
  else if 'A' ≤ c ∧ c ≤ 'F' then some (c.toNat - 55)
  else none

def digitValue? (c : Char) : Option Nat :=
  if '0' ≤ c ∧ c ≤ '9' then some (c.toNat - 48) else none

def decimalDigits (n : Nat) : Text := Nat.toDigits 10 n

def decimalText : Int → Text
  | .ofNat n => decimalDigits n
  | .negSucc n => '-' :: decimalDigits (n + 1)

end BooleanSearch
