import BooleanSearch.Query.Grouping

/-!
# The trace of a parse

Grouping leaves a trace: one entry for each group, in the order in which the groups are split.
Where it fails, the entries up to the failure are left.
-/

namespace BooleanSearch.Query

structure Split where
  connective : Connective
  operands : Nat
  depth : Int
  deriving DecidableEq, Repr

def joinTraces {α : Type} (done : α → Bool) (trace : α → List Split) : List α → List Split
  | [] => []
  | a :: rest => trace a ++ if done a then joinTraces done trace rest else []

/-- The splits made in a text at a nesting depth with so many levels left. -/
def splits (rules : Rules) : (levels : Nat) → (depth : Int) → Text → List Split
  | 0, _, _ => []
  | levels + 1, depth, t =>
    match rootSplit? (operandText t) with
    | none => []
    | some (c, segments) =>
      ⟨c, segments.length, depth⟩ ::
        joinTraces (fun s => (nodeOf rules levels s).isOk) (splits rules levels (depth + 1))
          segments

end BooleanSearch.Query
