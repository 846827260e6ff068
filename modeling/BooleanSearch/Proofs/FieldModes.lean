import BooleanSearch.Configuration
import BooleanSearch.Proofs.Outcomes

/-!
# Dropped fields

The field mode has a say only where a leaf has been read already: whether a fragment is a leaf,
where a text is split and how deep its groups lie do not depend on it. So a query is refused for
the same reason in both modes, and its trees are the same but for the fields.
-/

namespace BooleanSearch

def Leaf.withoutField (l : Leaf) : Leaf := { l with field := [] }

@[simp] theorem Leaf.value_withoutField (l : Leaf) : l.withoutField.value = l.value := rfl

namespace Node

mutual

/-- The tree without the fields of its leaves. -/
def withoutFields : Node → Node
  | leaf l => leaf l.withoutField
  | group c xs => group c (withoutFieldsAll xs)
  | gap k => gap k

def withoutFieldsAll : List Node → List Node
  | [] => []
  | x :: xs => withoutFields x :: withoutFieldsAll xs

end

theorem withoutFieldsAll_eq_map (xs : List Node) : withoutFieldsAll xs = xs.map withoutFields := by
  induction xs with
  | nil => rfl
  | cons x xs ih => rw [withoutFieldsAll, ih, List.map_cons]

end Node

namespace Query

private theorem leafOf_discard (field value : Text) :
    leafOf .discard field value = (leafOf .preserve field value).withoutField := by
  rw [leafOf, leafOf]
  cases unquote? value <;> rfl

private theorem readLeaf_discard (fragment : Text) :
    readLeaf .discard fragment = (readLeaf .preserve fragment).map Leaf.withoutField := by
  rw [readLeaf, readLeaf]
  split_ifs with hquotes hbrackets
  · rfl
  · rfl
  · cases splitField fragment with
    | error e => rfl
    | ok p =>
      obtain ⟨field, value⟩ := p
      simp only [bind, Except.bind, leafOf_discard, Leaf.value_withoutField]
      split_ifs <;> rfl

private theorem nodeBy_discard (limit : Int)
    {inner inner' : Option (Text → Except QueryError Node)}
    (h : inner' = inner.map fun f t => (f t).map Node.withoutFields) (t : Text) :
    nodeBy ⟨.discard, limit⟩ inner' t =
      (nodeBy ⟨.preserve, limit⟩ inner t).map Node.withoutFields := by
  subst h
  simp only [nodeBy]
  split_ifs with hempty
  · rfl
  · cases rootSplit? (operandText t) with
    | none =>
      dsimp only
      rw [readLeaf_discard]
      cases readLeaf .preserve (operandText t) <;> rfl
    | some p =>
      obtain ⟨c, segments⟩ := p
      cases inner with
      | none => rfl
      | some f =>
        dsimp only [Option.map_some]
        rw [mapM_map]
        cases segments.mapM f with
        | error e => rfl
        | ok ns =>
          change Except.ok (Node.group c (ns.map Node.withoutFields)) =
            .ok (.group c (Node.withoutFieldsAll ns))
          rw [Node.withoutFieldsAll_eq_map]

private theorem nodeOf_discard (limit : Int) (levels : Nat) :
    nodeOf ⟨.discard, limit⟩ levels =
      fun t => (nodeOf ⟨.preserve, limit⟩ levels t).map Node.withoutFields := by
  induction levels with
  | zero => exact funext (nodeBy_discard limit rfl)
  | succ levels ih => exact funext (nodeBy_discard limit (congrArg some ih))

private theorem withoutFields_rooted (n : Node) :
    (rooted n).withoutFields = rooted n.withoutFields := by
  cases n <;> rfl

private theorem parse_discard_settings (limit : Int) (implicit : Connective) (query : Text) :
    parse ⟨⟨.discard, limit⟩, implicit⟩ query =
      (parse ⟨⟨.preserve, limit⟩, implicit⟩ query).map Node.withoutFields := by
  have hprepare : prepare ⟨⟨.discard, limit⟩, implicit⟩ query =
      prepare ⟨⟨.preserve, limit⟩, implicit⟩ query := rfl
  rw [parse, parse, hprepare]
  cases prepare ⟨⟨.preserve, limit⟩, implicit⟩ query with
  | error e => rfl
  | ok s =>
    have hnode : nodeAtDepth ⟨.discard, limit⟩ 0 s =
        (nodeAtDepth ⟨.preserve, limit⟩ 0 s).map Node.withoutFields :=
      congrFun (nodeOf_discard limit _) s
    simp only [bind, Except.bind, hnode]
    cases nodeAtDepth ⟨.preserve, limit⟩ 0 s with
    | error e => rfl
    | ok root => exact congrArg Except.ok (withoutFields_rooted root).symm

end Query

namespace Configuration

open Query

/-- Dropping fields while a query is parsed is erasing them from its tree: the query is refused in
one mode exactly if it is refused in the other, and for the same reason, and otherwise the trees
have the same groups and the same leaves but for the fields. -/
theorem parse_discard (c : Configuration) (query : Text) :
    { c with fieldMode := .discard }.parse query =
      ({ c with fieldMode := .preserve }.parse query).map Node.withoutFields :=
  parse_discard_settings c.maxDepth c.defaultConnective query

end Configuration

end BooleanSearch
