import BooleanSearch.Text.Raw

/-!
# Excerpts

A long text is shown by its first and its last bytes. A cut may fall inside a character, of which
then stray bytes remain.
-/

namespace BooleanSearch

def utf8Bytes (c : Char) : List Nat :=
  let n := c.toNat
  if n < 0x80 then [n]
  else if n < 0x800 then [0xC0 + n / 64, 0x80 + n % 64]
  else if n < 0x10000 then [0xE0 + n / 4096, 0x80 + n / 64 % 64, 0x80 + n % 64]
  else [0xF0 + n / 262144, 0x80 + n / 4096 % 64, 0x80 + n / 64 % 64, 0x80 + n % 64]

def Piece.strayBytes : Piece → RawText
  | char c => (utf8Bytes c).map fun b => byte (Fin.ofNat 0x80 b)
  | byte high => [byte high]

namespace RawText

def takeBytes : Nat → RawText → RawText
  | _, [] => []
  | count, p :: ps =>
    if p.byteSize ≤ count then p :: takeBytes (count - p.byteSize) ps
    else p.strayBytes.take count

def dropBytes : Nat → RawText → RawText
  | _, [] => []
  | 0, p :: ps => p :: ps
  | count + 1, p :: ps =>
    if p.byteSize ≤ count + 1 then dropBytes (count + 1 - p.byteSize) ps
    else p.strayBytes.drop (count + 1) ++ ps

def excerptSize : Nat := 80

/-- All of a short text, or the two ends of a long one with three dots between them. -/
def excerpt (t : RawText) : RawText :=
  if t.byteSize ≤ excerptSize then t
  else
    t.takeBytes (excerptSize / 2) ++ (raw "..." ++ t.dropBytes (t.byteSize - excerptSize / 2))

end RawText

end BooleanSearch
