import BooleanSearch.Filter.Convert
import BooleanSearch.Proofs.Outcomes
import BooleanSearch.Proofs.Truth
import BooleanSearch.Proofs.Walking

/-!
# What a filter means

A filter document is the conjunction of its entries. The three operators over documents have their
usual meaning, and any other entry is a condition whose truth is left open. The filter of a tree
then means what the tree means, however conditions are merged and negations are written.
-/

namespace BooleanSearch.Filter

mutual

def entryTruth (v : Text → Value → Bool) (key : Text) : Value → Bool
  | .array items =>
    match itemTruths v items with
    | none => v key (.array items)
    | some bs =>
      if key = "$and".toList then bs.all id
      else if key = "$or".toList then bs.any id
      else if key = "$nor".toList then !bs.any id
      else v key (.array items)
  | .text t => v key (.text t)
  | .bool b => v key (.bool b)
  | .number x => v key (.number x)
  | .date i => v key (.date i)
  | .document entries => v key (.document entries)

/-- The truth value of a document: all its entries are true. -/
def documentTruth (v : Text → Value → Bool) : List (Text × Value) → Bool
  | [] => true
  | (key, x) :: rest => entryTruth v key x && documentTruth v rest

def itemTruths (v : Text → Value → Bool) : List Value → Option (List Bool)
  | [] => some []
  | .document entries :: rest => (itemTruths v rest).map (documentTruth v entries :: ·)
  | .text _ :: _ => none
  | .bool _ :: _ => none
  | .number _ :: _ => none
  | .date _ :: _ => none
  | .array _ :: _ => none

end

mutual

/-- Tells that no document in a value names two of its entries alike. -/
def Value.Distinct : Value → Prop
  | .document entries => (entries.map Prod.fst).Nodup ∧ DistinctEntries entries
  | .array items => DistinctItems items
  | .text _ => True
  | .bool _ => True
  | .number _ => True
  | .date _ => True

def DistinctEntries : List (Text × Value) → Prop
  | [] => True
  | (_, x) :: rest => x.Distinct ∧ DistinctEntries rest

def DistinctItems : List Value → Prop
  | [] => True
  | x :: rest => x.Distinct ∧ DistinctItems rest

end

/-- The truth value of a leaf: that of the filter it has by itself. -/
def leafTruth (fields : List Text) (v : Text → Value → Bool) (l : Leaf) : Bool :=
  match ofTree fields (.leaf l) with
  | .ok d => documentTruth v d
  | .error _ => false

/-! ### Operators and merged conditions -/

private theorem itemTruths_documents (v : Text → Value → Bool) (ds : List Document) :
    itemTruths v (ds.map .document) = some (ds.map (documentTruth v)) := by
  induction ds with
  | nil => rfl
  | cons d ds ih => rw [List.map_cons, itemTruths, ih, Option.map_some, List.map_cons]

theorem documentTruth_single (v : Text → Value → Bool) (key : Text) (x : Value) :
    documentTruth v (single key x) = entryTruth v key x := by
  rw [single, documentTruth, documentTruth, Bool.and_true]

theorem documentTruth_and (v : Text → Value → Bool) (ds : List Document) :
    documentTruth v (operator "$and" ds) = (ds.map (documentTruth v)).all id := by
  rw [operator, documentTruth_single, entryTruth, itemTruths_documents]
  exact if_pos rfl

theorem documentTruth_or (v : Text → Value → Bool) (ds : List Document) :
    documentTruth v (operator "$or" ds) = (ds.map (documentTruth v)).any id := by
  have hne : "$or".toList ≠ "$and".toList := by decide
  rw [operator, documentTruth_single, entryTruth, itemTruths_documents]
  simp only [if_neg hne, if_true]

theorem documentTruth_nor (v : Text → Value → Bool) (ds : List Document) :
    documentTruth v (operator "$nor" ds) = !(ds.map (documentTruth v)).any id := by
  have hand : "$nor".toList ≠ "$and".toList := by decide
  have hor : "$nor".toList ≠ "$or".toList := by decide
  rw [operator, documentTruth_single, entryTruth, itemTruths_documents]
  simp only [if_neg hand, if_neg hor, if_true]

theorem merge?_cons_eq_some {d m : Document} {ds : List Document}
    (h : merge? (d :: ds) = some m) :
    ∃ key x merged, d = [(key, x)] ∧ merge? ds = some merged ∧ key ∉ merged.map Prod.fst ∧
      m = (key, x) :: merged := by
  rw [merge?] at h
  split_ifs at h with hd
  obtain ⟨merged, hm, h⟩ := Option.bind_eq_some_iff.mp h
  split_ifs at h with hany
  obtain ⟨key, x, rfl⟩ : ∃ key x, d = [(key, x)] := by
    match d, hd with
    | [(key, x)], _ => exact ⟨key, x, rfl⟩
  refine ⟨key, x, merged, rfl, hm, ?_, (Option.some.inj h).symm⟩
  intro hk
  obtain ⟨p, hp, he⟩ := List.mem_map.mp hk
  apply hany
  simp only [List.any_cons, List.any_nil, Bool.or_false, List.any_eq_true]
  exact ⟨p, hp, by simp [he]⟩

theorem documentTruth_merge? {v : Text → Value → Bool} {ds : List Document} {m : Document}
    (h : merge? ds = some m) : documentTruth v m = (ds.map (documentTruth v)).all id := by
  induction ds generalizing m with
  | nil =>
    obtain rfl := Option.some.inj h
    rfl
  | cons d ds ih =>
    obtain ⟨key, x, merged, rfl, hm, _, rfl⟩ := merge?_cons_eq_some h
    rw [List.map_cons, List.all_cons, ← ih hm, documentTruth, documentTruth, documentTruth,
      Bool.and_true, id_eq]

theorem documentTruth_conjunction (v : Text → Value → Bool) (ds : List Document) :
    documentTruth v (conjunction ds) = (ds.map (documentTruth v)).all id := by
  rw [conjunction]
  cases hm : merge? ds with
  | none => exact documentTruth_and v ds
  | some m => exact documentTruth_merge? hm

/-- The filter of a group means what the group means. -/
theorem documentTruth_combine {v : Text → Value → Bool} {c : Connective} {first d : Document}
    {rest : List Document} (h : combine c first rest = .ok d) :
    documentTruth v d = c.combine (documentTruth v first :: rest.map (documentTruth v)) := by
  cases c with
  | and =>
    obtain rfl := Except.ok.inj h
    rw [documentTruth_conjunction, List.map_cons, List.all_cons, Connective.combine_and, id_eq]
  | or =>
    obtain rfl := Except.ok.inj h
    rw [documentTruth_or, List.map_cons, List.any_cons, Connective.combine_or, id_eq]
  | andNot =>
    obtain rfl := Except.ok.inj h
    rw [documentTruth_and, Connective.combine_andNot]
    simp [documentTruth_nor, List.all_eq_not_any_not, Function.comp_def]
  | orNot =>
    obtain rfl := Except.ok.inj h
    rw [documentTruth_or, Connective.combine_orNot]
    simp [documentTruth_nor, Function.comp_def]
  | other word => cases h

/-! ### Names of entries -/

private theorem distinct_single {key : Text} {x : Value} (h : x.Distinct) :
    Value.Distinct (.document (single key x)) := by
  simpa [single, Value.Distinct, DistinctEntries] using h

private theorem distinct_operator {name : String} {ds : List Document}
    (h : ∀ d ∈ ds, Value.Distinct (.document d)) :
    Value.Distinct (.document (operator name ds)) := by
  have hitems : DistinctItems (ds.map .document) := by
    induction ds with
    | nil => trivial
    | cons d ds ih => exact ⟨h d (by simp), ih fun e he => h e (by simp [he])⟩
  rw [operator]
  apply distinct_single
  rw [Value.Distinct]
  exact hitems

private theorem distinct_merge? {ds : List Document} {m : Document} (h : merge? ds = some m)
    (hds : ∀ d ∈ ds, Value.Distinct (.document d)) : Value.Distinct (.document m) := by
  induction ds generalizing m with
  | nil =>
    obtain rfl := Option.some.inj h
    simp [Value.Distinct, DistinctEntries]
  | cons d ds ih =>
    obtain ⟨key, x, merged, rfl, hm, hkey, rfl⟩ := merge?_cons_eq_some h
    have hrest := ih hm fun e he => hds e (by simp [he])
    have hfirst := hds [(key, x)] (by simp)
    rw [Value.Distinct] at hrest hfirst ⊢
    refine ⟨?_, hfirst.2.1, hrest.2⟩
    rw [List.map_cons, List.nodup_cons]
    exact ⟨hkey, hrest.1⟩

private theorem distinct_combine {c : Connective} {first d : Document} {rest : List Document}
    (h : combine c first rest = .ok d)
    (hds : ∀ e ∈ first :: rest, Value.Distinct (.document e)) : Value.Distinct (.document d) := by
  have hfirst := hds first (by simp)
  have hrest : ∀ e ∈ rest, Value.Distinct (.document e) := fun e he => hds e (by simp [he])
  cases c with
  | and =>
    obtain rfl := Except.ok.inj h
    rw [conjunction]
    cases hm : merge? (first :: rest) with
    | none => exact distinct_operator hds
    | some m => exact distinct_merge? hm hds
  | or =>
    obtain rfl := Except.ok.inj h
    exact distinct_operator hds
  | andNot =>
    obtain rfl := Except.ok.inj h
    apply distinct_operator
    simpa using ⟨hfirst, distinct_operator hrest⟩
  | orNot =>
    obtain rfl := Except.ok.inj h
    apply distinct_operator
    intro e he
    rcases List.mem_cons.mp he with rfl | he
    · exact hfirst
    · obtain ⟨e', he', rfl⟩ := List.mem_map.mp he
      apply distinct_operator
      simpa using hrest e' he'
  | other word => cases h

private theorem distinct_pattern (p : Text) : (patternValue p).Distinct := by
  simp [patternValue, Value.Distinct, DistinctEntries]

private theorem distinct_leafCondition (l : Leaf) : (leafCondition l).Distinct := by
  have hcaseless (p : Text) : (caselessValue p).Distinct := by
    simp [caselessValue, Value.Distinct, DistinctEntries]
  rw [leafCondition, textCondition]
  split_ifs
  · exact hcaseless _
  · exact distinct_pattern _
  · exact distinct_pattern _
  · exact hcaseless _

def Value.isScalar : Value → Bool
  | .document _ => false
  | .array _ => false
  | _ => true

def conditionOperators : List Text :=
  ["$gt".toList, "$gte".toList, "$lt".toList, "$lte".toList, "$regex".toList]

theorem readValue_cases {t : Text} {x : Value} (h : readValue t = .ok x) :
    x.isScalar = true ∨ ∃ key y, key ∈ conditionOperators ∧ y.isScalar = true ∧
      x = .document (single key y) := by
  have hpattern (p : Text) : ∃ key y, key ∈ conditionOperators ∧ y.isScalar = true ∧
      patternValue p = .document (single key y) :=
    ⟨"$regex".toList, .text p, by decide, rfl, rfl⟩
  rw [readValue] at h
  split_ifs at h with hc hs hw
  · right
    rw [readComparison] at h
    split at h
    · cases h
    · next c rest hsplit =>
      dsimp only at h
      split_ifs at h with he
      obtain ⟨y, hy, rfl⟩ := map_eq_ok.mp h
      refine ⟨c.operator, y, by cases c <;> decide, ?_, rfl⟩
      rw [readOperand] at hy
      split_ifs at hy with hdate
      · obtain ⟨i, _, rfl⟩ := map_eq_ok.mp hy
        rfl
      · split at hy
        · obtain rfl := Except.ok.inj hy
          rfl
        · cases hy
  · obtain rfl := Except.ok.inj h
    exact Or.inr (hpattern _)
  · obtain rfl := Except.ok.inj h
    exact Or.inr (hpattern _)
  · obtain rfl := Except.ok.inj h
    left
    rw [plainValue]
    split
    · rfl
    · split
      · rfl
      · split_ifs <;> rfl

private theorem distinct_readValue {t : Text} {x : Value} (h : readValue t = .ok x) :
    x.Distinct := by
  have hscalar {y : Value} (hy : y.isScalar = true) : y.Distinct := by
    cases y with
    | document entries => cases hy
    | array items => cases hy
    | _ => trivial
  obtain hx | ⟨key, y, _, hy, rfl⟩ := readValue_cases h
  · exact hscalar hx
  · exact distinct_single (hscalar hy)

private theorem distinct_fieldFilter {l : Leaf} {d : Document} (h : fieldFilter l = .ok d) :
    Value.Distinct (.document d) := by
  rw [fieldFilter] at h
  split_ifs at h with hp
  · obtain rfl := Except.ok.inj h
    exact distinct_single trivial
  · split at h
    · next x hx =>
      obtain rfl := Except.ok.inj h
      exact distinct_single (distinct_readValue hx)
    · cases h

private theorem distinct_freeTextFilter {fields : List Text} {negated used after : Bool} {l : Leaf}
    {d : Document} (h : freeTextFilter fields negated used l = .ok (d, after)) :
    Value.Distinct (.document d) := by
  rw [freeTextFilter] at h
  split_ifs at h with hfields
  · obtain ⟨rfl, rfl⟩ := Prod.mk.inj (Except.ok.inj h)
    unfold defaultFieldFilter
    split
    · exact distinct_single (distinct_leafCondition l)
    · apply distinct_operator
      intro e he
      obtain ⟨field, _, rfl⟩ := List.mem_map.mp he
      exact distinct_single (distinct_leafCondition l)
  · obtain ⟨rfl, rfl⟩ := Prod.mk.inj (Except.ok.inj h)
    exact distinct_single (distinct_single trivial)

/-! ### Trees -/

/-- What the filter of a tree is like, whatever the state in which it was made. -/
structure Faithful (fields : List Text) (n : Node) (d : Document) : Prop where
  truth (v : Text → Value → Bool) : documentTruth v d = n.truth (leafTruth fields v)
  distinct : Value.Distinct (.document d)
  leaves : ∀ l ∈ n.leaves, ∃ e, ofTree fields (.leaf l) = .ok e

structure FaithfulAll (fields : List Text) (xs : List Node) (ds : List Document) : Prop where
  truths (v : Text → Value → Bool) :
    ds.map (documentTruth v) = Node.truths (leafTruth fields v) xs
  distinct : ∀ d ∈ ds, Value.Distinct (.document d)
  leaves : ∀ x ∈ xs, ∀ l ∈ x.leaves, ∃ e, ofTree fields (.leaf l) = .ok e

private theorem ofTree_of_convert_leaf {fields : List Text} {negated used after : Bool} {l : Leaf}
    {d : Document} (h : convert fields negated (.leaf l) used = .ok (d, after)) :
    ofTree fields (.leaf l) = .ok d := by
  apply map_eq_ok.mpr
  rw [convert] at h ⊢
  split_ifs at h ⊢ with hf
  · obtain ⟨e, he, hp⟩ := map_eq_ok.mp h
    obtain ⟨rfl, rfl⟩ := Prod.mk.inj hp
    exact ⟨(e, false), map_eq_ok.mpr ⟨e, he, rfl⟩, rfl⟩
  · rw [freeTextFilter] at h ⊢
    -- negation and an earlier text search only ever lead to a failure
    by_cases hfields : (!fields.isEmpty) = true
    · rw [if_pos hfields] at h ⊢
      obtain ⟨rfl, rfl⟩ := Prod.mk.inj (Except.ok.inj h)
      exact ⟨_, rfl, rfl⟩
    · rw [if_neg hfields] at h ⊢
      split_ifs at h with hn hu
      obtain ⟨rfl, rfl⟩ := Prod.mk.inj (Except.ok.inj h)
      exact ⟨_, rfl, rfl⟩

private theorem Faithful.ofLeaf {fields : List Text} {negated used after : Bool} {l : Leaf}
    {d : Document} (h : convert fields negated (.leaf l) used = .ok (d, after)) :
    Faithful fields (.leaf l) d where
  truth v := by rw [Node.truth, leafTruth, ofTree_of_convert_leaf h]
  distinct := by
    rw [convert] at h
    split_ifs at h with hf
    · obtain ⟨e, he, hp⟩ := map_eq_ok.mp h
      obtain ⟨rfl, rfl⟩ := Prod.mk.inj hp
      exact distinct_fieldFilter he
    · exact distinct_freeTextFilter h
  leaves m hm := by
    obtain rfl := List.mem_singleton.mp hm
    exact ⟨d, ofTree_of_convert_leaf h⟩

private theorem Faithful.ofOnly {fields : List Text} {c : Connective} {x : Node} {d : Document}
    (h : Faithful fields x d) : Faithful fields (.group c [x]) d where
  truth v := by
    rw [h.truth, Node.truth, Node.truths, Node.truths, Connective.combine_singleton]
  distinct := h.distinct
  leaves l hl := h.leaves l (by simpa [Node.leaves_group] using hl)

private theorem Faithful.ofCombine {fields : List Text} {c : Connective} {x : Node}
    {xs : List Node} {first d : Document} {rest : List Document} (hx : Faithful fields x first)
    (hxs : FaithfulAll fields xs rest) (h : combine c first rest = .ok d) :
    Faithful fields (.group c (x :: xs)) d where
  truth v := by
    rw [documentTruth_combine h, hx.truth, hxs.truths, Node.truth, Node.truths]
  distinct := distinct_combine h (List.forall_mem_cons.mpr ⟨hx.distinct, hxs.distinct⟩)
  leaves l hl := by
    rw [Node.leaves_group, List.flatMap_cons, List.mem_append] at hl
    rcases hl with hl | hl
    · exact hx.leaves l hl
    · obtain ⟨y, hy, hl⟩ := List.mem_flatMap.mp hl
      exact hxs.leaves y hy l hl

mutual

private theorem faithful_convert {fields : List Text} : ∀ (n : Node) {negated used after : Bool}
    {d : Document}, convert fields negated n used = .ok (d, after) → Faithful fields n d
  | .leaf l, _, _, _, d, h => Faithful.ofLeaf h
  | .gap .node, _, _, _, d, h => by cases h
  | .gap .leaf, _, _, _, d, h => by cases h
  | .gap .group, _, _, _, d, h => by cases h
  | .group _ [], _, _, _, d, h => by cases h
  | .group _ [x], _, _, _, d, h => (faithful_convert x h).ofOnly
  | .group c (x :: y :: ys), _, _, _, d, h => by
    rw [convert] at h
    obtain ⟨⟨first, used⟩, hx, h⟩ := bind_eq_ok.mp h
    split_ifs at h with hc
    obtain ⟨⟨rest, used⟩, hxs, h⟩ := bind_eq_ok.mp h
    obtain ⟨e, he, h⟩ := bind_eq_ok.mp h
    obtain ⟨rfl, rfl⟩ := Prod.mk.inj (Except.ok.inj h)
    exact (faithful_convert x hx).ofCombine (faithful_convertAll (y :: ys) hxs) he

private theorem faithful_convertAll {fields : List Text} : ∀ (xs : List Node)
    {negated used after : Bool} {ds : List Document},
    convertAll fields negated xs used = .ok (ds, after) → FaithfulAll fields xs ds
  | [], _, _, _, ds, h => by
    obtain ⟨rfl, rfl⟩ := Prod.mk.inj (Except.ok.inj h)
    exact ⟨fun _ => rfl, by simp, by simp⟩
  | x :: xs, _, _, _, ds, h => by
    rw [convertAll] at h
    obtain ⟨⟨d, used⟩, hd, h⟩ := bind_eq_ok.mp h
    obtain ⟨⟨rest, used⟩, hrest, h⟩ := bind_eq_ok.mp h
    obtain ⟨rfl, rfl⟩ := Prod.mk.inj (Except.ok.inj h)
    have hx := faithful_convert x hd
    have hxs := faithful_convertAll xs hrest
    refine ⟨fun v => ?_, ?_, ?_⟩
    · rw [List.map_cons, hx.truth, hxs.truths, Node.truths]
    · exact List.forall_mem_cons.mpr ⟨hx.distinct, hxs.distinct⟩
    · exact List.forall_mem_cons.mpr ⟨hx.leaves, hxs.leaves⟩

end

theorem ofTree_eq_ok_iff {fields : List Text} {n : Node} {d : Document} :
    ofTree fields n = .ok d ↔ ∃ after, convert fields false n false = .ok (d, after) := by
  have hmap : (convert fields false n false).map (·.1) = .ok d ↔
      ∃ after, convert fields false n false = .ok (d, after) := by
    rw [map_eq_ok]
    constructor
    · rintro ⟨⟨e, after⟩, h, rfl⟩
      exact ⟨after, h⟩
    · rintro ⟨after, h⟩
      exact ⟨(d, after), h, rfl⟩
  rw [ofTree.eq_def]
  split
  · simp [convert]
  · exact hmap

theorem distinct_of_ofTree {fields : List Text} {n : Node} {d : Document}
    (h : ofTree fields n = .ok d) : Value.Distinct (.document d) := by
  obtain ⟨_, hn⟩ := ofTree_eq_ok_iff.mp h
  exact (faithful_convert n hn).distinct

/-- The filter of a tree means what the tree means, every leaf of which has a filter by itself. No
document in it names two entries alike, so that no condition hides another. -/
theorem truth_of_ofTree {fields : List Text} {n : Node} {d : Document}
    (h : ofTree fields n = .ok d) :
    (∀ v : Text → Value → Bool, documentTruth v d = n.truth (leafTruth fields v)) ∧
      Value.Distinct (.document d) ∧
      ∀ l ∈ n.leaves, ∃ e, ofTree fields (.leaf l) = .ok e := by
  have hconvert : ∃ p, convert fields false n false = .ok p ∧ p.1 = d := by
    rw [ofTree.eq_def] at h
    split at h
    · cases h
    · exact map_eq_ok.mp h
  obtain ⟨⟨e, used⟩, hn, rfl⟩ := hconvert
  have hf := faithful_convert n hn
  exact ⟨hf.truth, hf.distinct, hf.leaves⟩

theorem truth_of_ofTree_repeated_field :
    ∃ d, ofTree ["c".toList] (.group .andNot
        [.group .and [.leaf ⟨"a".toList, "x".toList, true⟩, .leaf ⟨"b".toList, "y".toList, true⟩],
          .group .and [.leaf ⟨"a".toList, "x".toList, true⟩, .leaf ⟨"a".toList, "z".toList, true⟩],
          .leaf ⟨[], "w".toList, true⟩]) = .ok d ∧
      ∀ v : Text → Value → Bool, documentTruth v d =
        Node.truth (leafTruth ["c".toList] v) (.group .andNot
          [.group .and [.leaf ⟨"a".toList, "x".toList, true⟩, .leaf ⟨"b".toList, "y".toList, true⟩],
            .group .and
              [.leaf ⟨"a".toList, "x".toList, true⟩, .leaf ⟨"a".toList, "z".toList, true⟩],
            .leaf ⟨[], "w".toList, true⟩]) := by
  refine ⟨operator "$and"
    [[("a".toList, .text "x".toList), ("b".toList, .text "y".toList)],
      operator "$nor"
        [operator "$and"
            [single "a".toList (.text "x".toList), single "a".toList (.text "z".toList)],
          single "c".toList (caselessValue (exactPattern "w".toList))]], rfl, ?_⟩
  exact (truth_of_ofTree rfl).1

end BooleanSearch.Filter
