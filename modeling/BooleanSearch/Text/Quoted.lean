import BooleanSearch.Text.CharacterData

/-!
# Quoted text

Text in messages stands between double quotes. Quotes and backslashes are escaped, printable
characters stand for themselves, and all others are named by an escape: a letter for the usual
controls, `\x` and two digits for the rest of ASCII, `\u` or `\U` beyond it.
-/

namespace BooleanSearch

variable [CharacterData]

def quotedChar (c : Char) : Text :=
  if c == '"' || c == '\\' then ['\\', c]
  else if isPrintable c then [c]
  else
    let n := c.toNat
    if n == 0x07 then "\\a".toList
    else if n == 0x08 then "\\b".toList
    else if n == 0x0C then "\\f".toList
    else if n == 0x0A then "\\n".toList
    else if n == 0x0D then "\\r".toList
    else if n == 0x09 then "\\t".toList
    else if n == 0x0B then "\\v".toList
    else if n < 0x80 then '\\' :: 'x' :: hexDigits 2 n
    else if n < 0x10000 then '\\' :: 'u' :: hexDigits 4 n
    else '\\' :: 'U' :: hexDigits 8 n

/-- A text between double quotes, with what cannot be shown escaped. -/
def Text.quoted (t : Text) : Text := '"' :: (t.flatMap quotedChar ++ ['"'])

def Text.quote (t : Text) : String := String.ofList t.quoted

end BooleanSearch
