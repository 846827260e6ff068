import BooleanSearch.Engine
import BooleanSearch.Text.Editions

/-!
# Sessions

A session holds configurations that change over time, the catalog, and one built parser. The
parser follows the configuration it was built from, also when that is no longer the one at hand.
Configurations are told apart by their position. There come to be more of them, never fewer, so a
position stays good for the rest of a session.
-/

namespace BooleanSearch

/-- A built parser, and which of the first `n` configurations it follows. -/
structure Parser (n : Nat) (F : Type := OutputFormat) where
  engine : Engine Language F
  home : Fin n
  deriving DecidableEq, Repr

def Parser.later {n m : Nat} {F : Type} (p : Parser n F) (h : n ≤ m) : Parser m F :=
  ⟨p.engine, p.home.castLE h⟩

/-- The state of a session. -/
structure Session (F : Type := OutputFormat) where
  size : Nat
  configs : Vector Configuration size
  current : Option (Fin size)
  catalog : Catalog Language F
  parser : Parser size F

/-- A change to a session. Where it concerns a configuration, that is the one at the given position
or, if none is given, the one at hand. -/
inductive Change (F : Type := OutputFormat) where
  | adopt (c : Configuration)
  | release
  | update (u : Configuration.Update) (target : Option Nat := none)
  | addLanguage (name : Text) (m : LanguageMaker)
  | addFormatter (name : Text) (m : Maker F)
  | build (target : Option Nat := none)

namespace Session

variable {F : Type}

def start : Session where
  size := 2
  configs := #v[.standard, .standard]
  current := some 0
  catalog := .standard
  parser := ⟨.standard, 1⟩

def configAt (s : Session F) (i : Fin s.size) : Configuration := s.configs[i]

def config? (s : Session F) : Option Configuration := s.current.map s.configAt

def requireConfig (s : Session F) : Except SetupError Configuration :=
  match s.config? with
  | some c => .ok c
  | none => .error .absentConfig

def position? (s : Session F) : (target : Option Nat) → Option (Fin s.size)
  | none => s.current
  | some i => if h : i < s.size then some ⟨i, h⟩ else none

/-- Makes a change. One that fails leaves the session as it was. Of a configuration that is not
there only a change of nothing can be asked. -/
def change (s : Session F) : Change F → Except SetupError (Session F)
  | .adopt c => .ok {
      size := s.size + 1
      configs := s.configs.push c
      current := some (Fin.last s.size)
      catalog := s.catalog
      parser := s.parser.later (Nat.le_succ s.size) }
  | .release => .ok { s with current := none }
  | .update u target =>
    match s.position? target with
    | some i => .ok { s with configs := s.configs.set i ((s.configAt i).update u) }
    | none => if u.isEmpty then .ok s else .error .absentConfig
  | .addLanguage name m => .ok { s with catalog := s.catalog.addLanguage name m }
  | .addFormatter name m => .ok { s with catalog := s.catalog.addFormatter name m }
  | .build target =>
    match s.position? target with
    | some i => (Engine.build s.catalog (some (s.configAt i))).map fun e =>
        { s with parser := ⟨e, i⟩ }
    | none => .error .noConfig

def apply (s : Session F) (c : Change F) : Session F :=
  match s.change c with
  | .ok next => next
  | .error _ => s

def run (s : Session F) (changes : List (Change F)) : Session F := changes.foldl apply s

end Session

namespace Parser

variable {n : Nat} {F E : Type}

def config (p : Parser n F) (s : Session F) (h : n ≤ s.size := by exact Nat.le_refl _) :
    Configuration :=
  s.configAt (p.home.castLE h)

def parse (p : Parser n F) (s : Session F) (query : Text)
    (h : n ≤ s.size := by exact Nat.le_refl _) : Except QueryError Node :=
  p.engine.language.parse (p.config s h) query

def format [Formatter F E] (p : Parser n F) (s : Session F) (query : Text)
    (h : n ≤ s.size := by exact Nat.le_refl _) : Except (SearchError E) Text :=
  p.engine.format (p.config s h) query

def toFilter (p : Parser n F) (s : Session F) (query : Text)
    (h : n ≤ s.size := by exact Nat.le_refl _) : Except SearchError Filter.Document :=
  p.engine.toFilter (p.config s h) query

end Parser

end BooleanSearch
