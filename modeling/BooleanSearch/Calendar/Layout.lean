import BooleanSearch.Calendar.Instant

/-!
# Reading dates

A date is read by a layout, a sequence of fields and separators. Most fields have two digits; an
hour may have one. A fraction may follow the seconds, and digits of it beyond the ninth are
dropped.
-/

namespace BooleanSearch.Calendar

inductive Field where
  | year
  | month
  | day
  | hour
  | minute
  | second
  | zone
  | mark (c : Char)

structure Parts where
  year : Nat := 0
  month : Nat := 1
  day : Nat := 1
  hour : Nat := 0
  minute : Nat := 0
  second : Nat := 0
  nanos : Nat := 0
  offset : Int := 0

def twoDigits? : Text → Option (Nat × Text)
  | a :: b :: rest =>
    match digitValue? a, digitValue? b with
    | some x, some y => some (10 * x + y, rest)
    | _, _ => none
  | _ => none

def oneOrTwoDigits? (t : Text) : Option (Nat × Text) :=
  match twoDigits? t with
  | some r => some r
  | none =>
    match t with
    | [] => none
    | a :: rest => (digitValue? a).map fun x => (x, rest)

def twoDigitsBelow? (bound : Nat) (t : Text) : Option (Nat × Text) :=
  (twoDigits? t).filter fun r => r.1 < bound

def fourDigits? (t : Text) : Option (Nat × Text) := do
  let (century, rest) ← twoDigits? t
  let (year, rest) ← twoDigits? rest
  some (100 * century + year, rest)

def nanosOf (digits : Text) : Nat :=
  let kept := digits.take 9
  kept.foldl (fun n c => 10 * n + (c.toNat - 48)) 0 * Nat.pow 10 (9 - kept.length)

def splitFraction (t : Text) : Nat × Text :=
  match t with
  | c :: d :: rest =>
    if (c = '.' ∨ c = ',') ∧ (digitValue? d).isSome then
      let digits := d :: rest.takeWhile fun e => (digitValue? e).isSome
      (nanosOf digits, rest.dropWhile fun e => (digitValue? e).isSome)
    else (0, t)
  | _ => (0, t)

def readZone? (t : Text) : Option (Int × Text) :=
  match t with
  | [] => none
  | c :: rest =>
    if c = 'Z' then some (0, rest)
    else if c = '+' ∨ c = '-' then do
      let (hours, rest) ← twoDigitsBelow? 25 rest
      match rest with
      | ':' :: rest =>
        let (minutes, rest) ← twoDigitsBelow? 61 rest
        let offset : Int := ((hours * 60 + minutes) * 60 : Nat)
        some (if c = '-' then -offset else offset, rest)
      | _ => none
    else none

def Field.read? (f : Field) (p : Parts) (t : Text) : Option (Parts × Text) :=
  match f with
  | year => (fourDigits? t).map fun (n, rest) => ({ p with year := n }, rest)
  | month =>
    ((twoDigitsBelow? 13 t).filter fun r => 0 < r.1).map fun (n, rest) =>
      ({ p with month := n }, rest)
  | day => (twoDigits? t).map fun (n, rest) => ({ p with day := n }, rest)
  | hour =>
    ((oneOrTwoDigits? t).filter fun r => r.1 < 24).map fun (n, rest) =>
      ({ p with hour := n }, rest)
  | minute => (twoDigitsBelow? 60 t).map fun (n, rest) => ({ p with minute := n }, rest)
  | second =>
    (twoDigitsBelow? 60 t).map fun (n, rest) =>
      let (nanos, rest) := splitFraction rest
      ({ p with second := n, nanos := nanos }, rest)
  | zone => (readZone? t).map fun (offset, rest) => ({ p with offset := offset }, rest)
  | mark c =>
    match t with
    | [] => none
    | d :: rest => if d = c then some (p, rest) else none

def readParts? : List Field → Parts → Text → Option Parts
  | [], p, [] => some p
  | [], _, _ :: _ => none
  | f :: fs, p, t => (f.read? p t).bind fun (p, rest) => readParts? fs p rest

def Parts.instant? (p : Parts) : Option Instant :=
  if p.day = 0 ∨ daysInMonth p.year p.month < p.day then none
  else
    let clock : Int := (p.hour * 3600 + p.minute * 60 + p.second : Nat)
    some ⟨daysFromEpoch p.year p.month p.day * 86400 + clock - p.offset, p.nanos, p.offset⟩

def dashedDate : List Field := [.year, .mark '-', .month, .mark '-', .day]

def dashedTime : List Field :=
  dashedDate ++ [.mark 'T', .hour, .mark ':', .minute, .mark ':', .second]

def layouts : List (List Field) :=
  [dashedTime ++ [.zone], dashedDate, dashedTime,
    [.month, .mark '/', .day, .mark '/', .year],
    [.year, .mark '/', .month, .mark '/', .day]]

/-- Reads a date by the first layout that fits. -/
def readDate? (t : Text) : Option Instant :=
  layouts.findSome? fun layout => (readParts? layout {} t).bind Parts.instant?

end BooleanSearch.Calendar
