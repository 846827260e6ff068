import BooleanSearch.Decimal.Shortest
import BooleanSearch.Filter.Convert

/-!
# Filters as text

Filter documents are written as extended JSON in its relaxed form: numbers in the fewest digits,
with a point or an exponent always; dates within four-digit years from 1970 on as text, others by
their milliseconds. Documents are written with sorted names.
-/

namespace BooleanSearch.Filter

def escapeChar (c : Char) : Text :=
  let n := c.toNat
  if c = '"' ∨ c = '\\' then ['\\', c]
  else if n = 0x0A then "\\n".toList
  else if n = 0x0D then "\\r".toList
  else if n = 0x09 then "\\t".toList
  else if n = 0x08 then "\\b".toList
  else if n = 0x0C then "\\f".toList
  else if n < 0x20 ∨ n = 0x2028 ∨ n = 0x2029 then '\\' :: 'u' :: hexDigits 4 n
  else [c]

def writeString (t : Text) : Text := '"' :: (t.flatMap escapeChar ++ ['"'])

def writeMembers (members : List (Text × Text)) : Text :=
  '{' :: (List.intercalate [','] (members.map fun m => writeString m.1 ++ ':' :: m.2) ++ ['}'])

structure NumberFormat where
  /-- The decimal exponents from which on, and before which, digits are written positionally. -/
  positionalFrom : Int
  positionalBefore : Int
  exponentWidth : Nat

/-- Numbers are positional from one ten-thousandth to below a million; elsewhere they have an
exponent of at least two digits. -/
def numberFormat : NumberFormat := ⟨-4, 6, 2⟩

def padLeft (width : Nat) (t : Text) : Text := List.replicate (width - t.length) '0' ++ t

def writePositional (digits : Text) (whole : Int) : Text :=
  let before :=
    if whole ≤ 0 then ['0']
    else digits.take whole.toNat ++ List.replicate (whole.toNat - digits.length) '0'
  let after := List.replicate (-whole).toNat '0' ++ digits.drop whole.toNat
  before ++ '.' :: (if after.isEmpty then ['0'] else after)

def writeScientific (f : NumberFormat) (digits : Text) (exponent : Int) : Text :=
  let fraction := digits.drop 1
  digits.take 1 ++ (if fraction.isEmpty then [] else '.' :: fraction) ++
    'E' :: (if exponent < 0 then '-' else '+') ::
      padLeft f.exponentWidth (decimalDigits exponent.natAbs)

def writeDecimal (f : NumberFormat) (s : Decimal.Scientific) : Text :=
  let digits := decimalDigits s.digits
  let exponent := s.exponent + (digits.length : Int) - 1
  if f.positionalFrom ≤ exponent ∧ exponent < f.positionalBefore then
    writePositional digits (exponent + 1)
  else writeScientific f digits exponent

def writeNamedNumber (name : String) : Text :=
  writeMembers [("$numberDouble".toList, writeString name.toList)]

def writeNumber : Binary64 → Text
  | .nan => writeNamedNumber "NaN"
  | .infinity false => writeNamedNumber "Infinity"
  | .infinity true => writeNamedNumber "-Infinity"
  | .finite negative m e =>
    (if negative then ['-'] else []) ++
      if m = 0 then ['0', '.', '0'] else writeDecimal numberFormat (Decimal.shortest m e)

def writeTwo (n : Nat) : Text := padLeft 2 (decimalDigits n)

def writeMillis (millis : Nat) : Text :=
  let digits := ((padLeft 3 (decimalDigits millis)).reverse.dropWhile (· = '0')).reverse
  if digits.isEmpty then [] else '.' :: digits

def writeClock (seconds : Nat) : Text :=
  writeTwo (seconds / 3600) ++
    ':' :: (writeTwo (seconds / 60 % 60) ++ ':' :: writeTwo (seconds % 60))

def writeDate (i : Instant) : Text :=
  let millis := i.millis
  let seconds := millis.fdiv 1000
  let (year, month, day) := Calendar.dateOfDays (seconds.fdiv 86400)
  if 1970 ≤ year ∧ year ≤ 9999 then
    writeMembers [("$date".toList, writeString (
      padLeft 4 (decimalText year) ++ '-' :: (writeTwo month ++ '-' :: (writeTwo day ++
        'T' :: (writeClock (seconds.fmod 86400).toNat ++ (writeMillis (millis.fmod 1000).toNat ++
          ['Z']))))))]
  else
    writeMembers [("$date".toList,
      writeMembers [("$numberLong".toList, writeString (decimalText millis))])]

mutual

def Value.write : Value → Text
  | .text t => writeString t
  | .bool true => "true".toList
  | .bool false => "false".toList
  | .number x => writeNumber x
  | .date i => writeDate i
  | .document entries => writeMembers (writeEntries entries)
  | .array items => '[' :: (List.intercalate [','] (writeItems items) ++ [']'])

def writeEntries : List (Text × Value) → List (Text × Text)
  | [] => []
  | (key, v) :: rest => (key, v.write) :: writeEntries rest

def writeItems : List Value → List Text
  | [] => []
  | v :: rest => v.write :: writeItems rest

end

/-- The filter of a tree as extended JSON. -/
def write (fields : List Text) (n : Node) : Except FilterError Text :=
  (ofTree fields n).map fun d => (Value.document d).sorted.write

end BooleanSearch.Filter
