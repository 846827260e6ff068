import BooleanSearch.Text.Blank
import BooleanSearch.Text.Quoted

/-!
# Raw text

Text from outside is a string of bytes, and they need not be UTF-8 throughout. Read from the left
they give whole characters and, where no character can be read, single stray bytes. Text without
stray bytes is raw text of its characters.
-/

namespace BooleanSearch

/-- A whole character, or a stray byte. Bytes below `0x80` are characters, so a stray byte is given
by how far it lies above that. -/
inductive Piece where
  | char (c : Char)
  | byte (high : Fin 0x80)
  deriving DecidableEq, Repr

namespace Piece

def byteSize : Piece → Nat
  | char c => c.utf8Size
  | byte _ => 1

def isSpace : Piece → Bool
  | char c => BooleanSearch.isSpace c
  | byte _ => false

/-- What a piece is read as where only characters are looked at: a stray byte counts as the
replacement character. -/
def shown : Piece → Char
  | char c => c
  | byte _ => Char.ofNat 0xFFFD

def quoted [CharacterData] : Piece → Text
  | char c => quotedChar c
  | byte high => '\\' :: 'x' :: hexDigits 2 (0x80 + high)

end Piece

/-- Text with stray bytes. -/
abbrev RawText := List Piece

namespace RawText

def ofText (t : Text) : RawText := t.map .char

/-- The characters that raw text is read as. -/
def shown (t : RawText) : Text := t.map Piece.shown

def byteSize : RawText → Nat
  | [] => 0
  | p :: ps => p.byteSize + byteSize ps

def trim (t : RawText) : RawText :=
  ((t.dropWhile Piece.isSpace).reverse.dropWhile Piece.isSpace).reverse

def quote [CharacterData] (t : RawText) : String :=
  String.ofList ('"' :: (t.flatMap Piece.quoted ++ ['"']))

end RawText

def raw (s : String) : RawText := .ofText s.toList

end BooleanSearch
