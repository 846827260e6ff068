import BooleanSearch.Configuration

/-!
# Logging

A parse can be logged: its events are written as lines for the console or as JSON. Events are of
the level for debugging; a logger passes over what lies below its own level. Entries of the
gravest levels end the program that logs them, whether or not they are written.
-/

namespace BooleanSearch.Logging

/-- How much an entry matters, in a signed byte; debugging is `-1` and each level above it is one
more. -/
abbrev Level := Int8

def debug : Level := -1

def developmentCrash : Level := 3

def crash : Level := 4

def fatal : Level := 5

def levelName (l : Level) : Text :=
  if l = debug then "debug".toList
  else if l = 0 then "info".toList
  else if l = 1 then "warn".toList
  else if l = 2 then "error".toList
  else if l = developmentCrash then "dpanic".toList
  else if l = crash then "panic".toList
  else if l = fatal then "fatal".toList
  else "Level(".toList ++ (decimalText l.toInt ++ [')'])

inductive Datum where
  | text (t : Text)
  | number (n : Int)

structure Entry where
  level : Level
  message : Text
  data : List (String × Datum)

def Entry.ofEvent : Query.Event → Entry
  | .normalized query spelled =>
    ⟨debug, "preprocessed query".toList,
      [("query", .text query), ("normalized", .text spelled)]⟩
  | .split s =>
    ⟨debug, "split on root connective".toList,
      [("connective", .text s.connective.keyword), ("operands", .number s.operands),
        ("depth", .number s.depth)]⟩

inductive Encoding where
  | console
  | json
  deriving DecidableEq, Repr

def Encoding.ofName? (name : Text) : Option Encoding :=
  if name = "console".toList then some .console
  else if name = "json".toList then some .json
  else none

/-- Writes the entries that reach its level. -/
structure Logger where
  level : Level
  encoding : Encoding
  development : Bool := false
  deriving DecidableEq, Repr

def isEnabled (logger : Option Logger) (l : Level) : Bool :=
  match logger with
  | some g => g.level ≤ l
  | none => false

def escapeChar (c : Char) : Text :=
  if c = '"' ∨ c = '\\' then ['\\', c]
  else if c = '\n' then ['\\', 'n']
  else if c = '\r' then ['\\', 'r']
  else if c = '\t' then ['\\', 't']
  else if c.toNat < 0x20 then '\\' :: 'u' :: hexDigits 4 c.toNat
  else [c]

def writeString (t : Text) : Text := '"' :: (t.flatMap escapeChar ++ ['"'])

def Datum.write : Datum → Text
  | text t => writeString t
  | number n => decimalText n

def writeData (gap : Text) (data : List (String × Datum)) : Text :=
  List.intercalate (',' :: gap)
    (data.map fun d => writeString d.1.toList ++ (':' :: gap ++ d.2.write))

def loggerName : Text := "boolq".toList

def Entry.writeConsole (time : Text) (e : Entry) : Text :=
  List.intercalate [' '] ([time, levelName e.level, loggerName, e.message] ++
    if e.data.isEmpty then [] else ['{' :: (writeData [' '] e.data ++ ['}'])])

def Entry.writeJson (time : Text) (e : Entry) : Text :=
  '{' :: (writeData [] (
    [("level", .text (levelName e.level)), ("time", .text time), ("logger", .text loggerName),
      ("msg", .text e.message)] ++ e.data) ++ ['}'])

def Entry.write (encoding : Encoding) (time : Text) (e : Entry) : Text :=
  match encoding with
  | .console => e.writeConsole time
  | .json => e.writeJson time

def linesOf (t : Text) : List Text := t.splitOn '\n'

def lines (logger : Option Logger) (time : Text) (entries : List Entry) : List Text :=
  match logger with
  | none => []
  | some g =>
    (entries.filter fun e => g.level ≤ e.level).flatMap fun e =>
      linesOf (e.write g.encoding time)

/-- The lines that a logger writes while a query is parsed. -/
def parseLines (logger : Option Logger) (time : Text) (c : Configuration) (query : Text) :
    List Text :=
  lines logger time ((Query.events c.settings query).map .ofEvent)

structure Options where
  level : Option Level := none
  encoding : Option Text := none
  development : Bool := false
  /-- Whether the place to write to can be opened. -/
  writable : Bool := true

def Options.logger? (o : Options) : Option Logger :=
  if o.writable then
    (Encoding.ofName? (o.encoding.getD "console".toList)).map fun e =>
      ⟨o.level.getD debug, e, o.development⟩
  else none

inductive Halt where
  | crash (message : Text)
  | exit
  deriving DecidableEq, Repr

/-- How an entry ends the program, if it does. Its level decides, and not whether the logger writes
it; a missing logger is not under development. -/
def Entry.halt? (logger : Option Logger) (e : Entry) : Option Halt :=
  if e.level = fatal then some .exit
  else if e.level = crash then some (.crash e.message)
  else if e.level = developmentCrash ∧ logger.any Logger.development then some (.crash e.message)
  else none

theorem halt?_ofEvent (logger : Option Logger) (event : Query.Event) :
    (Entry.ofEvent event).halt? logger = none := by
  cases event <;> rfl

inductive Action where
  | parse (query : Text)
  | log (e : Entry)
  | dropLogger

def record (time : Text) (c : Configuration) :
    Option Logger → List Action → Except Halt (List Text)
  | _, [] => .ok []
  | logger, .parse query :: rest =>
    (record time c logger rest).map (parseLines logger time c query ++ ·)
  | logger, .log e :: rest =>
    match e.halt? logger with
    | some h => .error h
    | none => (record time c logger rest).map (lines logger time [e] ++ ·)
  | _, .dropLogger :: rest => record time c none rest

end BooleanSearch.Logging
