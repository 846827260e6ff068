import BooleanSearch.Text.Basic

/-!
# Character data

Which characters are shown as themselves, and which have an upper-case form, is fixed for ASCII.
Beyond it an edition of Unicode decides, and every edition knows more characters than the one
before. What is said of a program therefore holds for any edition.
-/

namespace BooleanSearch

/-- What an edition of Unicode says about the code points beyond ASCII. A code point is printable
when its general category is a letter, a mark, a number, a punctuation mark or a symbol. Upper case
is the simple case mapping, in which every code point has one form; for most it is itself. -/
class CharacterData where
  printable : Nat → Bool
  upper : Nat → Nat

variable [CharacterData]

def isPrintable (c : Char) : Bool :=
  let n := c.toNat
  if n < 0x80 then 0x20 ≤ n && n < 0x7F else CharacterData.printable n

def upperChar (c : Char) : Char :=
  let n := c.toNat
  if n < 0x80 then
    if 0x61 ≤ n && n ≤ 0x7A then Char.ofNat (n - 0x20) else c
  else Char.ofNat (CharacterData.upper n)

def Text.upper (t : Text) : Text := t.map upperChar

end BooleanSearch
