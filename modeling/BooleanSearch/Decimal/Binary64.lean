/-!
# Binary floating-point numbers

Numbers of 64 bits with a mantissa of 53 bits, held by their exact value. A ratio is rounded to
the nearest of them, a half to the even neighbour.
-/

namespace BooleanSearch

/-- A binary floating-point number. A finite one has the value `mantissa * 2 ^ exponent`, where
the mantissa has 53 bits unless the exponent is the least one, `-1074`. -/
inductive Binary64 where
  | nan
  | infinity (negative : Bool)
  | finite (negative : Bool) (mantissa : Nat) (exponent : Int)
  deriving DecidableEq, Repr

namespace Binary64

def minExponent : Int := -1074

def maxExponent : Int := 971

def zero (negative : Bool) : Binary64 := finite negative 0 minExponent

def roundHalfEven (num den : Nat) : Nat :=
  let quotient := num / den
  let rest := num % den
  if den < 2 * rest ∨ (2 * rest = den ∧ quotient % 2 = 1) then quotient + 1 else quotient

/-- The exponent `k` for which a positive ratio lies between `2 ^ k` and `2 ^ (k + 1)`. -/
def binaryExponent (num den : Nat) : Int :=
  let k : Int := (Nat.log2 num : Int) - (Nat.log2 den : Int)
  if num * Nat.pow 2 (-k).toNat < den * Nat.pow 2 k.toNat then k - 1 else k

/-- The number nearest to a ratio, or nothing if that lies beyond the greatest one. -/
def ofRatio? (negative : Bool) (num den : Nat) : Option Binary64 :=
  if num = 0 then some (zero negative)
  else
    let e := max (binaryExponent num den - 52) minExponent
    let m := roundHalfEven (num * Nat.pow 2 (-e).toNat) (den * Nat.pow 2 e.toNat)
    let (m, e) := if m = Nat.pow 2 53 then (Nat.pow 2 52, e + 1) else (m, e)
    if maxExponent < e then none else some (finite negative m e)

def magnitudeBits : Binary64 → Nat
  | nan => 0x7FF8000000000001
  | infinity _ => 0x7FF0000000000000
  | finite _ m e =>
    let leading := Nat.pow 2 52
    if m < leading then m else (e - minExponent + 1).toNat * leading + (m - leading)

def isNegative : Binary64 → Bool
  | nan => false
  | infinity negative => negative
  | finite negative _ _ => negative

def toBits (x : Binary64) : Nat := (if x.isNegative then Nat.pow 2 63 else 0) + x.magnitudeBits

end Binary64

end BooleanSearch
