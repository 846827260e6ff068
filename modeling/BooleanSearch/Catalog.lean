import BooleanSearch.Configuration
import BooleanSearch.OutputFormat

/-!
# Languages and formats by name

A configuration names its language and its format. The catalog holds, under each name, what makes
the thing named; the built-in makers go by the name in the configuration, and fail on one they do
not know.
-/

namespace BooleanSearch

inductive Language where
  | boolean
  deriving DecidableEq, Repr

inductive NameError where
  | language (name : Text)
  | formatter (name : Text)
  deriving DecidableEq, Repr

def NameError.message : NameError → String
  | language name => "unsupported language type: " ++ String.ofList name
  | formatter name => "unsupported formatter type: " ++ String.ofList name

namespace Configuration

def builtinLanguage (c : Configuration) : Except NameError Language :=
  if c.language = "boolean".toList then .ok .boolean else .error (.language c.language)

def builtinFormatter (c : Configuration) : Except NameError OutputFormat :=
  if c.formatter = "text".toList then .ok .text
  else if c.formatter = "ruleset".toList then .ok .ruleset
  else if c.formatter = "mongo".toList then .ok (.filter c.defaultFields)
  else .error (.formatter c.formatter)

end Configuration

inductive Crash where
  /-- A built-in maker stands under a name that it does not know. -/
  | outOfSync (cause : NameError)
  | other (report : Text)
  deriving DecidableEq, Repr

def Crash.message : Crash → String
  | outOfSync cause => "registry: default factory out of sync: " ++ cause.message
  | other report => String.ofList report

/-- Makes a thing for a configuration, unless it crashes on it. -/
abbrev Maker (α : Type) := Configuration → Except Crash α

abbrev LanguageMaker := Maker Language

namespace LanguageMaker

def builtin : LanguageMaker := fun c => c.builtinLanguage.mapError .outOfSync

def boolean : LanguageMaker := fun _ => .ok .boolean

end LanguageMaker

abbrev FormatMaker := Maker OutputFormat

namespace FormatMaker

def builtin : FormatMaker := fun c => c.builtinFormatter.mapError .outOfSync

def text : FormatMaker := fun _ => .ok .text

def ruleset : FormatMaker := fun _ => .ok .ruleset

def filter : FormatMaker := fun c => .ok (.filter c.defaultFields)

end FormatMaker

/-- Why no parser can be set up. -/
inductive SetupError where
  | noConfig
  | invalidConfig (cause : Configuration.Fault)
  | invalidLanguage (cause : NameError)
  | invalidFormatter (cause : NameError)
  | unknownName (cause : NameError)
  | crash (cause : Crash)
  /-- Settings were asked of a configuration that is not there. -/
  | absentConfig
  deriving DecidableEq, Repr

namespace SetupError

def isDefect : SetupError → Bool
  | crash _ => true
  | absentConfig => true
  | _ => false

def message? [CharacterData] : SetupError → Option String
  | noConfig => some "nil config"
  | invalidConfig cause => some ("invalid config: " ++ cause.message)
  | invalidLanguage cause => some ("invalid language: " ++ cause.message)
  | invalidFormatter cause => some ("invalid formatter: " ++ cause.message)
  | unknownName cause => some cause.message
  | crash cause => some cause.message
  | absentConfig => none

end SetupError

abbrev Named (α : Type) := List (Text × α)

namespace Named

variable {α : Type}

def insert (name : Text) (a : α) : Named α → Named α
  | [] => [(name, a)]
  | e :: rest =>
    if e.1 = name then (name, a) :: rest
    else if Text.le name e.1 then (name, a) :: e :: rest
    else e :: insert name a rest

def find? (c : Named α) (name : Text) : Option α :=
  (List.find? (fun e => e.1 = name) c).map (·.2)

def names (c : Named α) : List Text := c.map (·.1)

def make (c : Named (Maker α)) (unknown : Text → NameError) (name : Text) (conf : Configuration) :
    Except SetupError α :=
  match Named.find? c name with
  | some m => (m conf).mapError .crash
  | none => .error (.unknownName (unknown name))

end Named

/-- The makers of languages and formats that are known by name. Languages and formats other than the
built-in ones may be known as well. -/
structure Catalog (L : Type := Language) (F : Type := OutputFormat) where
  languages : Named (Maker L)
  formatters : Named (Maker F)

namespace Catalog

variable {L F : Type}

def addLanguage (k : Catalog L F) (name : Text) (m : Maker L) : Catalog L F :=
  { k with languages := Named.insert name m k.languages }

def addFormatter (k : Catalog L F) (name : Text) (m : Maker F) : Catalog L F :=
  { k with formatters := Named.insert name m k.formatters }

def standardAs (language : Language → L) (format : OutputFormat → F) : Catalog L F :=
  ["text", "ruleset", "mongo"].foldl
    (fun k name => k.addFormatter name.toList fun c => (FormatMaker.builtin c).map format)
    (addLanguage ⟨[], []⟩ "boolean".toList fun c => (LanguageMaker.builtin c).map language)

def standard : Catalog := standardAs id id

def language (k : Catalog L F) (c : Configuration) : Except SetupError L :=
  Named.make k.languages .language c.language c

def formatter (k : Catalog L F) (c : Configuration) : Except SetupError F :=
  Named.make k.formatters .formatter c.formatter c

def relabel {α : Type} (label : NameError → SetupError) :
    Except SetupError α → Except SetupError α
  | .error (.unknownName cause) => .error (label cause)
  | r => r

/-- Checks that a parser can be built from a configuration. -/
def verify (k : Catalog L F) (c : Option Configuration) : Except SetupError Unit :=
  match c with
  | none => .error .noConfig
  | some c => do
    c.check.mapError .invalidConfig
    let _ ← relabel .invalidLanguage (k.language c)
    let _ ← relabel .invalidFormatter (k.formatter c)
    .ok ()

end Catalog

end BooleanSearch
