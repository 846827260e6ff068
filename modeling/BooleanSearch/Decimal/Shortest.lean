import BooleanSearch.Decimal.Binary64
import BooleanSearch.Text.Basic

/-!
# Shortest decimals

The decimal of a binary number is the one with the fewest digits among those that are read back
as that number, and of these the nearest, an exact tie going to the even digit.
-/

namespace BooleanSearch.Decimal

structure Scientific where
  digits : Nat
  exponent : Int
  deriving DecidableEq, Repr

/-- The exponent `k` for which a positive ratio lies between `10 ^ k` and `10 ^ (k + 1)`. -/
def decimalExponent (num den : Nat) : Int :=
  if den ≤ num then (decimalDigits (num / den)).length - 1
  else
    let inverse := den / num
    let size := (decimalDigits inverse).length
    if den % num = 0 ∧ inverse = Nat.pow 10 (size - 1) then -((size - 1 : Nat) : Int)
    else -(size : Int)

/-- The numbers that are read back as a given one: those between two ends over a common
denominator, with the ends themselves if `closed`. -/
structure Interval where
  low : Nat
  value : Nat
  high : Nat
  den : Nat
  closed : Bool

def Interval.of (mantissa : Nat) (exponent : Int) : Interval :=
  let narrow := mantissa = Nat.pow 2 52 ∧ exponent ≠ Binary64.minExponent
  let scale := Nat.pow 2 (exponent - 2).toNat
  { low := (4 * mantissa - (if narrow then 1 else 2)) * scale
    value := 4 * mantissa * scale
    high := (4 * mantissa + 2) * scale
    den := Nat.pow 2 (2 - exponent).toNat
    closed := mantissa % 2 = 0 }

def Interval.holds (i : Interval) (num den : Nat) : Bool :=
  let x := num * i.den
  if i.closed then i.low * den ≤ x && x ≤ i.high * den
  else i.low * den < x && x < i.high * den

def Interval.candidate? (i : Interval) (count : Nat) : Option Scientific :=
  let exponent := decimalExponent i.value i.den - ((count : Int) - 1)
  let up := Nat.pow 10 exponent.toNat
  let down := Nat.pow 10 (-exponent).toNat
  let below := i.value * down / (i.den * up)
  let twiceRest := 2 * (i.value * down % (i.den * up))
  let lowHit := i.holds (below * up) down
  let highHit := i.holds ((below + 1) * up) down
  let lowNearer := twiceRest < i.den * up || (twiceRest = i.den * up && below % 2 = 0)
  if lowHit && (lowNearer || !highHit) then some ⟨below, exponent⟩
  else if highHit then some ⟨below + 1, exponent⟩
  else none

def Scientific.trim : (zeros : Nat) → Scientific → Scientific
  | 0, s => s
  | zeros + 1, s =>
    if s.digits % 10 = 0 ∧ s.digits ≠ 0 then trim zeros ⟨s.digits / 10, s.exponent + 1⟩ else s

def digitCounts : List Nat := (List.range 17).map (· + 1)

/-- The shortest decimal of a positive number. -/
def shortest (mantissa : Nat) (exponent : Int) : Scientific :=
  let i := Interval.of mantissa exponent
  match digitCounts.findSome? i.candidate? with
  | some s => s.trim 17
  | none => ⟨i.value / i.den, 0⟩

end BooleanSearch.Decimal
