import BooleanSearch.Calendar.Layout
import BooleanSearch.Decimal.Numeral
import BooleanSearch.Filter.Pattern
import BooleanSearch.Text.Blank

/-!
# Typed field values

The value of a field is typed by its text: a comparison, a regular expression, a wildcard, a
date, a number, a truth value, or a text when none of these fits.
-/

namespace BooleanSearch.Filter

inductive ValueError where
  | notComparison
  | noOperand (text : Text)
  | notDate (text : Text)
  | notNumber (cause : NumberError)
  deriving DecidableEq, Repr

def ValueError.message [CharacterData] : ValueError → String
  | notComparison => "invalid comparison operator"
  | noOperand t => "comparison " ++ t.quote ++ " has no operand"
  | notDate t => "unable to parse date: " ++ String.ofList t
  | notNumber cause => "invalid number: " ++ cause.message

inductive Comparison where
  | greater
  | greaterEqual
  | less
  | lessEqual
  deriving DecidableEq, Repr

def Comparison.operator : Comparison → Text
  | greater => "$gt".toList
  | greaterEqual => "$gte".toList
  | less => "$lt".toList
  | lessEqual => "$lte".toList

def splitComparison? : Text → Option (Comparison × Text)
  | '>' :: '=' :: rest => some (.greaterEqual, rest)
  | '<' :: '=' :: rest => some (.lessEqual, rest)
  | '>' :: rest => some (.greater, rest)
  | '<' :: rest => some (.less, rest)
  | _ => none

def looksLikeDate (t : Text) : Bool := t.any fun c => c = '-' || c = '/' || c = ':' || c = 'T'

def readDate (t : Text) : Except ValueError Instant :=
  match Calendar.readDate? t with
  | some i => .ok i
  | none => .error (.notDate t)

/-- Reads the operand of a comparison: a date if it looks like one, else a number. -/
def readOperand (t : Text) : Except ValueError Value :=
  if looksLikeDate t then (readDate t).map .date
  else
    match Numeral.read t with
    | .ok x => .ok (.number x)
    | .error e => .error (.notNumber e)

def readComparison (t : Text) : Except ValueError Value :=
  match splitComparison? t with
  | none => .error .notComparison
  | some (c, rest) =>
    let operand := rest.trim
    if operand.isEmpty then .error (.noOperand t)
    else (readOperand operand).map fun v => .document (single c.operator v)

def plainValue (t : Text) : Value :=
  match Calendar.readDate? t with
  | some i => .date i
  | none =>
    match Numeral.read t with
    | .ok x => .number x
    | .error _ =>
      if t = "true".toList then .bool true
      else if t = "false".toList then .bool false
      else .text t

/-- Types the text of a field value. -/
def readValue (t : Text) : Except ValueError Value :=
  if (splitComparison? t).isSome then readComparison t
  else if isSlashed t then .ok (patternValue (regexPattern t))
  else if isWildcard t then .ok (patternValue (wildcardPattern t))
  else .ok (plainValue t)

end BooleanSearch.Filter
