import BooleanSearch.Decimal.Binary64
import BooleanSearch.Text.Quoted

/-!
# Numerals

A numeral is an optional sign, digits with at most one point, and an exponent. After `0x` the
digits are hexadecimal and an exponent of two is required. Underscores may stand between digits.
The words for infinity and for no number are read in either case.
-/

namespace BooleanSearch

inductive NumberError where
  | malformed (text : Text)
  | outOfRange (text : Text)
  deriving DecidableEq, Repr

def NumberError.message [CharacterData] : NumberError → String
  | malformed t => "strconv.ParseFloat: parsing " ++ t.quote ++ ": invalid syntax"
  | outOfRange t => "strconv.ParseFloat: parsing " ++ t.quote ++ ": value out of range"

namespace Numeral

def spells (word t : Text) : Bool := t.map lowerChar = word

def splitSign : Text → Bool × Text
  | [] => (false, [])
  | c :: cs =>
    if c = '-' then (true, cs) else if c = '+' then (false, cs) else (false, c :: cs)

def named? (t : Text) : Option Binary64 :=
  let (negative, rest) := splitSign t
  if spells "inf".toList rest || spells "infinity".toList rest then some (.infinity negative)
  else if spells "nan".toList t then some .nan
  else none

structure Mantissa where
  value : Nat
  /-- The number of digits after the point. -/
  places : Nat
  hasPoint : Bool
  hasDigits : Bool

def Mantissa.empty : Mantissa := ⟨0, 0, false, false⟩

def Mantissa.push (base : Nat) (m : Mantissa) (digit : Nat) : Mantissa :=
  ⟨m.value * base + digit, if m.hasPoint then m.places + 1 else m.places, m.hasPoint, true⟩

/-- Reads digits and at most one point, passing over underscores; also gives what follows. -/
def readMantissa (hex : Bool) (m : Mantissa) : Text → Mantissa × Text
  | [] => (m, [])
  | c :: cs =>
    if c = '_' then readMantissa hex m cs
    else if c = '.' then
      if m.hasPoint then (m, c :: cs) else readMantissa hex { m with hasPoint := true } cs
    else
      match if hex then hexValue? c else digitValue? c with
      | some digit => readMantissa hex (m.push (if hex then 16 else 10) digit) cs
      | none => (m, c :: cs)

def exponentLimit : Nat := 10000

def readExponentDigits (value : Nat) : Text → Option Nat
  | [] => some value
  | c :: cs =>
    if c = '_' then readExponentDigits value cs
    else
      match digitValue? c with
      | some digit =>
        readExponentDigits (if value < exponentLimit then value * 10 + digit else value) cs
      | none => none

def readExponent? (t : Text) : Option Int :=
  let (negative, digits) := splitSign t
  match digits with
  | [] => none
  | c :: cs =>
    match digitValue? c with
    | none => none
    | some digit =>
      (readExponentDigits digit cs).map fun n => if negative then -(n : Int) else (n : Int)

inductive Last where
  | start
  | digit
  | underscore
  | other

def underscoresFrom (hex : Bool) (last : Last) : Text → Bool
  | [] =>
    match last with
    | .underscore => false
    | _ => true
  | c :: cs =>
    if (if hex then hexValue? c else digitValue? c).isSome then underscoresFrom hex .digit cs
    else if c = '_' then
      match last with
      | .digit => underscoresFrom hex .underscore cs
      | _ => false
    else
      match last with
      | .underscore => false
      | _ => underscoresFrom hex .other cs

def splitHexMark? : Text → Option Text
  | '0' :: c :: rest => if lowerChar c = 'x' then some rest else none
  | _ => none

/-- Tells whether the underscores of an unsigned numeral stand where they may. The mark of a
hexadecimal numeral counts as a digit. -/
def underscoresOk (t : Text) : Bool :=
  match splitHexMark? t with
  | some rest => underscoresFrom true .digit rest
  | none => underscoresFrom false .start t

def exponentOf? (hex : Bool) (rest : Text) : Option Int :=
  match rest with
  | [] => if hex then none else some 0
  | c :: cs => if lowerChar c = (if hex then 'p' else 'e') then readExponent? cs else none

def ratio? (t : Text) : Option (Nat × Nat) :=
  let hex := (splitHexMark? t).isSome && 2 < t.length
  let digits := if hex then t.drop 2 else t
  let (m, rest) := readMantissa hex .empty digits
  if !m.hasDigits || !underscoresOk t then none
  else
    (exponentOf? hex rest).map fun e =>
      let places := if hex then 4 * m.places else m.places
      let scale : Int := e - (places : Int)
      let base : Nat := if hex then 2 else 10
      if m.value = 0 then (0, 1) else (m.value * base.pow scale.toNat, base.pow (-scale).toNat)

/-- Reads a number. -/
def read (t : Text) : Except NumberError Binary64 :=
  match named? t with
  | some x => .ok x
  | none =>
    let (negative, digits) := splitSign t
    match ratio? digits with
    | none => .error (.malformed t)
    | some (num, den) =>
      match Binary64.ofRatio? negative num den with
      | none => .error (.outOfRange t)
      | some x => .ok x

end Numeral

end BooleanSearch
