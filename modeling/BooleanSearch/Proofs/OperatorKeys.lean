import BooleanSearch.Engine
import BooleanSearch.Proofs.FilterMeaning
import BooleanSearch.Proofs.TreeShape

/-!
# Operator keys

A key that begins with a dollar makes an entry of a filter an operator. The keys of a filter come
from connectives, from text searches, from the default fields and from the fields in the query, of
which only the last are out of the program's hands: no name is refused. A field that begins with a
dollar keeps a document to itself, and what it is set to is never an array of filters.
-/

namespace BooleanSearch

namespace Filter

def connectingOperators : List Text := ["$and".toList, "$or".toList, "$nor".toList]

inductive Within : Document → Document → Prop where
  | self (d : Document) : Within d d
  | member {f e d : Document} {key : Text} {items : List Value} (hkey : key ∈ connectingOperators)
      (hitems : (key, .array items) ∈ d) (he : .document e ∈ items) (hf : Within f e) : Within f d

/-- The operators of a filter: filters that are connected, and a text search. -/
inductive IsOperator : Text → Value → Prop where
  | connecting {key : Text} {ds : List Document} (hkey : key ∈ connectingOperators)
      (hds : ds ≠ []) : IsOperator key (.array (ds.map .document))
  | search (t : Text) :
      IsOperator "$text".toList (.document (single "$search".toList (.text t)))

/-- What a field can be set to: a scalar, or one operator applied to a scalar. -/
def Value.IsCondition (x : Value) : Prop :=
  x.isScalar = true ∨ ∃ key y, key ∈ conditionOperators ∧ y.isScalar = true ∧
    x = .document (single key y)

/-- Tells that every key of a document that begins with a dollar is an operator, or the field of one
of the leaves, which then has the document to itself. -/
def DollarKeys (leaves : List Leaf) (f : Document) : Prop :=
  ∀ key x, (key, x) ∈ f → key.head? = some '$' →
    IsOperator key x ∨ ∃ l ∈ leaves, l.field = key ∧ f = single key x ∧ x.IsCondition

def AllDollarKeys (leaves : List Leaf) (d : Document) : Prop :=
  ∀ f, Within f d → DollarKeys leaves f

theorem AllDollarKeys.mono {leaves more : List Leaf} {d : Document} (h : AllDollarKeys leaves d)
    (hsub : leaves ⊆ more) : AllDollarKeys more d := by
  intro f hf key x hx hdollar
  rcases h f hf key x hx hdollar with hop | ⟨l, hl, hfield⟩
  · exact Or.inl hop
  · exact Or.inr ⟨l, hsub hl, hfield⟩

/-! ### Filters in the parts of a filter -/

private theorem mem_single {key k : Text} {x y : Value} :
    (key, x) ∈ single k y ↔ key = k ∧ x = y := by
  simp [single]

private theorem head?_of_mem_connectingOperators {key : Text} (h : key ∈ connectingOperators) :
    key.head? = some '$' := by
  revert key
  decide

private theorem eq_of_within {f d : Document} (hf : Within f d)
    (h : ∀ key items, (key, .array items) ∈ d → key ∉ connectingOperators) : f = d := by
  cases hf with
  | self => rfl
  | member hkey hitems he hf => exact absurd hkey (h _ _ hitems)

private theorem within_operator {name : String} {ds : List Document} {f : Document}
    (hf : Within f (operator name ds)) : f = operator name ds ∨ ∃ d ∈ ds, Within f d := by
  cases hf with
  | self => exact Or.inl rfl
  | member hkey hitems he hf =>
    obtain ⟨rfl, harray⟩ := mem_single.mp hitems
    rw [Value.array.inj harray] at he
    obtain ⟨d, hd, hde⟩ := List.mem_map.mp he
    obtain rfl := Value.document.inj hde
    exact Or.inr ⟨d, hd, hf⟩

theorem allDollarKeys_operator {leaves : List Leaf} {name : String} {ds : List Document}
    (hname : name.toList ∈ connectingOperators) (hne : ds ≠ [])
    (hds : ∀ d ∈ ds, AllDollarKeys leaves d) : AllDollarKeys leaves (operator name ds) := by
  intro f hf
  rcases within_operator hf with rfl | ⟨d, hd, hf⟩
  · intro key x hx _
    obtain ⟨rfl, rfl⟩ := mem_single.mp hx
    exact Or.inl (.connecting hname hne)
  · exact hds d hd f hf

private theorem allDollarKeys_of_plain {leaves : List Leaf} {d : Document}
    (h : ∀ key x, (key, x) ∈ d → key.head? ≠ some '$') : AllDollarKeys leaves d := by
  intro f hf
  obtain rfl := eq_of_within hf fun key items hmem hkey =>
    h key _ hmem (head?_of_mem_connectingOperators hkey)
  intro key x hx hdollar
  exact absurd hdollar (h key x hx)

private theorem head?_of_merge? {ds : List Document} {m : Document} (h : merge? ds = some m)
    {key : Text} {x : Value} (hx : (key, x) ∈ m) : key.head? ≠ some '$' := by
  induction ds generalizing m with
  | nil =>
    obtain rfl := Option.some.inj h
    cases hx
  | cons d ds ih =>
    have hplain : isPlain d = true := by
      by_contra hd
      simp [merge?, hd] at h
    obtain ⟨key', x', merged, rfl, hm, _, rfl⟩ := merge?_cons_eq_some h
    rcases List.mem_cons.mp hx with he | hx
    · obtain ⟨rfl, rfl⟩ := Prod.mk.inj he
      simpa [isPlain] using hplain
    · exact ih hm hx

theorem allDollarKeys_combine {leaves : List Leaf} {c : Connective} {first d : Document}
    {rest : List Document} (h : combine c first rest = .ok d) (hrest : rest ≠ [])
    (hds : ∀ e ∈ first :: rest, AllDollarKeys leaves e) : AllDollarKeys leaves d := by
  have hne : first :: rest ≠ [] := List.cons_ne_nil _ _
  obtain ⟨hfirst, hothers⟩ := List.forall_mem_cons.mp hds
  cases c with
  | and =>
    obtain rfl := Except.ok.inj h
    rw [conjunction]
    cases hm : merge? (first :: rest) with
    | none => exact allDollarKeys_operator (by decide) hne hds
    | some m => exact allDollarKeys_of_plain fun key x hx => head?_of_merge? hm hx
  | or =>
    obtain rfl := Except.ok.inj h
    exact allDollarKeys_operator (by decide) hne hds
  | andNot =>
    obtain rfl := Except.ok.inj h
    apply allDollarKeys_operator (by decide) (by simp)
    have hnor : AllDollarKeys leaves (operator "$nor" rest) :=
      allDollarKeys_operator (by decide) hrest hothers
    simpa using ⟨hfirst, hnor⟩
  | orNot =>
    obtain rfl := Except.ok.inj h
    apply allDollarKeys_operator (by decide) (by simp)
    rw [List.forall_mem_cons]
    refine ⟨hfirst, ?_⟩
    intro e he
    obtain ⟨e', he', rfl⟩ := List.mem_map.mp he
    apply allDollarKeys_operator (by decide) (by simp)
    simpa using hothers e' he'
  | other word => cases h

/-! ### Leaves -/

private theorem allDollarKeys_single {leaves : List Leaf} {key : Text} {x : Value}
    (harray : ∀ items, x ≠ .array items)
    (h : IsOperator key x ∨ ∃ l ∈ leaves, l.field = key ∧ x.IsCondition) :
    AllDollarKeys leaves (single key x) := by
  intro f hf
  obtain rfl : f = single key x := by
    apply eq_of_within hf
    intro k items hmem
    exact absurd (mem_single.mp hmem).2.symm (harray items)
  intro k y hy _
  obtain ⟨rfl, rfl⟩ := mem_single.mp hy
  rcases h with hop | ⟨l, hl, hfield, hcondition⟩
  · exact Or.inl hop
  · exact Or.inr ⟨l, hl, hfield, rfl, hcondition⟩

private theorem single_of_fieldFilter {l : Leaf} {d : Document} (h : fieldFilter l = .ok d) :
    ∃ x : Value, d = single l.field x ∧ x.IsCondition := by
  rw [fieldFilter] at h
  split_ifs at h
  · exact ⟨_, (Except.ok.inj h).symm, Or.inl rfl⟩
  · split at h
    · next x hx => exact ⟨x, (Except.ok.inj h).symm, readValue_cases hx⟩
    · cases h

private theorem Value.IsCondition.ne_array {x : Value} (h : x.IsCondition) (items : List Value) :
    x ≠ .array items := by
  rintro rfl
  obtain h | ⟨_, _, _, _, h⟩ := h
  · cases h
  · cases h

private theorem allDollarKeys_fieldFilter {l : Leaf} {d : Document} (h : fieldFilter l = .ok d) :
    AllDollarKeys [l] d := by
  obtain ⟨x, rfl, hx⟩ := single_of_fieldFilter h
  exact allDollarKeys_single hx.ne_array (Or.inr ⟨l, List.mem_singleton_self l, rfl, hx⟩)

private theorem allDollarKeys_textFilter (leaves : List Leaf) (l : Leaf) :
    AllDollarKeys leaves (textFilter l) := by
  apply allDollarKeys_single
  · intro items h
    cases h
  · exact Or.inl (.search _)

private theorem allDollarKeys_defaultFieldFilter {fields : List Text}
    (hfields : ∀ field ∈ fields, field.head? ≠ some '$') (hne : fields ≠ [])
    (leaves : List Leaf) (l : Leaf) : AllDollarKeys leaves (defaultFieldFilter fields l) := by
  have hsingle (field : Text) (hfield : field ∈ fields) :
      AllDollarKeys leaves (single field (leafCondition l)) := by
    apply allDollarKeys_of_plain
    intro key x hx
    obtain ⟨rfl, rfl⟩ := mem_single.mp hx
    exact hfields key hfield
  unfold defaultFieldFilter
  split
  · exact hsingle _ (List.mem_singleton_self _)
  · apply allDollarKeys_operator (by decide) (by simpa using hne)
    intro d hd
    obtain ⟨field, hfield, rfl⟩ := List.mem_map.mp hd
    exact hsingle field hfield

private theorem allDollarKeys_leaf {fields : List Text}
    (hfields : ∀ field ∈ fields, field.head? ≠ some '$') {negated used after : Bool} {l : Leaf}
    {d : Document} (h : convert fields negated (.leaf l) used = .ok (d, after)) :
    AllDollarKeys [l] d := by
  rw [convert] at h
  split_ifs at h
  · obtain ⟨e, he, hp⟩ := map_eq_ok.mp h
    obtain ⟨rfl, rfl⟩ := Prod.mk.inj hp
    exact allDollarKeys_fieldFilter he
  · rw [freeTextFilter] at h
    split_ifs at h with hsome
    · obtain ⟨rfl, rfl⟩ := Prod.mk.inj (Except.ok.inj h)
      exact allDollarKeys_defaultFieldFilter hfields (by simpa using hsome) [l] l
    · obtain ⟨rfl, rfl⟩ := Prod.mk.inj (Except.ok.inj h)
      exact allDollarKeys_textFilter [l] l

/-! ### Trees -/

mutual

private theorem allDollarKeys_convert {fields : List Text}
    (hfields : ∀ field ∈ fields, field.head? ≠ some '$') : ∀ (n : Node) {negated used after : Bool}
    {d : Document}, convert fields negated n used = .ok (d, after) → AllDollarKeys n.leaves d
  | .leaf l, _, _, _, _, h => allDollarKeys_leaf hfields h
  | .gap .node, _, _, _, _, h => by cases h
  | .gap .leaf, _, _, _, _, h => by cases h
  | .gap .group, _, _, _, _, h => by cases h
  | .group _ [], _, _, _, _, h => by cases h
  | .group c [x], _, _, _, _, h => by
    apply (allDollarKeys_convert hfields x h).mono
    rw [Node.leaves_group, List.flatMap_cons]
    exact List.subset_append_left _ _
  | .group c (x :: y :: ys), _, _, _, _, h => by
    rw [convert] at h
    obtain ⟨⟨first, _⟩, hx, h⟩ := bind_eq_ok.mp h
    split_ifs at h
    obtain ⟨⟨rest, _⟩, hxs, h⟩ := bind_eq_ok.mp h
    obtain ⟨d, hd, h⟩ := bind_eq_ok.mp h
    obtain ⟨rfl, rfl⟩ := Prod.mk.inj (Except.ok.inj h)
    obtain ⟨hne, hrest⟩ := allDollarKeys_convertAll hfields (y :: ys) hxs
    rw [Node.leaves_group, List.flatMap_cons]
    apply allDollarKeys_combine hd (hne (List.cons_ne_nil y ys))
    rw [List.forall_mem_cons]
    constructor
    · exact (allDollarKeys_convert hfields x hx).mono (List.subset_append_left _ _)
    · intro e he
      exact (hrest e he).mono (List.subset_append_right _ _)

private theorem allDollarKeys_convertAll {fields : List Text}
    (hfields : ∀ field ∈ fields, field.head? ≠ some '$') : ∀ (xs : List Node)
    {negated used after : Bool} {ds : List Document},
    convertAll fields negated xs used = .ok (ds, after) →
      (xs ≠ [] → ds ≠ []) ∧ ∀ d ∈ ds, AllDollarKeys (xs.flatMap Node.leaves) d
  | [], _, _, _, _, h => by
    obtain ⟨rfl, rfl⟩ := Prod.mk.inj (Except.ok.inj h)
    simp
  | x :: xs, _, _, _, _, h => by
    rw [convertAll] at h
    obtain ⟨⟨d, _⟩, hd, h⟩ := bind_eq_ok.mp h
    obtain ⟨⟨rest, _⟩, hrest, h⟩ := bind_eq_ok.mp h
    obtain ⟨rfl, rfl⟩ := Prod.mk.inj (Except.ok.inj h)
    refine ⟨fun _ => List.cons_ne_nil _ _, ?_⟩
    rw [List.flatMap_cons]
    rw [List.forall_mem_cons]
    constructor
    · exact (allDollarKeys_convert hfields x hd).mono (List.subset_append_left _ _)
    · intro e he
      exact ((allDollarKeys_convertAll hfields xs hrest).2 e he).mono (List.subset_append_right _ _)

end

theorem allDollarKeys_ofTree {fields : List Text}
    (hfields : ∀ field ∈ fields, field.head? ≠ some '$') {n : Node} {d : Document}
    (h : ofTree fields n = .ok d) : AllDollarKeys n.leaves d := by
  obtain ⟨_, hn⟩ := ofTree_eq_ok_iff.mp h
  exact allDollarKeys_convert hfields n hn

end Filter

/-! ### Queries -/

private theorem Query.preserve_of_field {mode : FieldMode} {t : Text} {l : Leaf}
    (h : readLeaf mode t = .ok l) (hfield : l.field ≠ []) : mode = .preserve := by
  obtain ⟨_, _, _, field, value, _, rfl, _⟩ := readLeaf_eq_ok_iff.mp h
  by_contra hmode
  rw [field_leafOf, if_neg hmode] at hfield
  exact hfield rfl

namespace Engine

open BooleanSearch.Filter Query

variable {F : Type}

private theorem ofTree_of_toFilter {e : Engine Language F} {c : Configuration} {query : Text}
    {d : Document}
    (h : e.toFilter c query = .ok d) :
    ∃ t, c.parse query = .ok t ∧ ofTree e.fields t = .ok d := by
  obtain ⟨t, ht, h⟩ := bind_eq_ok.mp h
  rw [Language.parse_eq] at ht
  exact ⟨t, mapError_eq_ok.mp ht, mapError_eq_ok.mp h⟩

/-- What a key that begins with a dollar is in the filter of a query: an operator that the program
puts there, or a field that the query itself writes so and that is kept. Such a field stands alone
in its filter and is set to a condition, so it connects no filters and is no text search. -/
theorem dollar_keys_of_toFilter {e : Engine Language F} {c : Configuration} (hc : c.check = .ok ())
    (hfields : ∀ field ∈ e.fields, field.head? ≠ some '$') {query : Text} {d : Document}
    (h : e.toFilter c query = .ok d) :
    ∃ t, c.parse query = .ok t ∧
      ∀ f, Within f d → ∀ key x, (key, x) ∈ f → key.head? = some '$' →
        IsOperator key x ∨ c.fieldMode = .preserve ∧
          ∃ l ∈ t.leaves, l.field = key ∧ f = single key x ∧ x.IsCondition := by
  obtain ⟨_, hk, _, _⟩ := Configuration.check_eq_ok_iff.mp hc
  obtain ⟨t, ht, hd⟩ := ofTree_of_toFilter h
  refine ⟨t, ht, ?_⟩
  intro f hf key x hx hdollar
  rcases allDollarKeys_ofTree hfields hd f hf key x hx hdollar with hop | ⟨l, hl, hfield, hrest⟩
  · exact Or.inl hop
  · right
    obtain ⟨u, _, hread⟩ := (accounts_of_parse hk ht).exists_term hl
    have hne : l.field ≠ [] := by
      intro hempty
      rw [← hfield, hempty] at hdollar
      cases hdollar
    exact ⟨preserve_of_field hread hne, l, hl, hfield, hrest⟩

theorem dollar_field_of_toFilter :
    Configuration.standard.check = .ok () ∧
      ∃ d, standard.toFilter .standard "$where:x".toList = .ok d ∧
        ¬∀ f, Within f d → ∀ key x, (key, x) ∈ f → key.head? = some '$' → IsOperator key x := by
  have hparse : Configuration.standard.parse "$where:x".toList =
      .ok (.term ⟨"$where".toList, "x".toList, false⟩) := by
    decide +kernel
  refine ⟨rfl, single "$where".toList (.text "x".toList), ?_, ?_⟩
  · rw [toFilter, Language.parse_eq, hparse]
    rfl
  · intro h
    cases h _ (.self _) _ _ (List.mem_singleton_self _) rfl

theorem dollar_keys_of_toFilter_kept_field :
    ∃ d, (⟨.boolean, .text, ["t".toList]⟩ : Engine).toFilter .standard
        "b (a:x OR NOT $or:\"y\")".toList = .ok d ∧
      ∀ f, Within f d → ∀ key x, (key, x) ∈ f → key.head? = some '$' →
        IsOperator key x ∨ key = "$or".toList ∧ f = single key x ∧ x.IsCondition := by
  have hparse : Configuration.standard.parse "b (a:x OR NOT $or:\"y\")".toList =
      .ok (.group .and [.leaf ⟨[], "b".toList, false⟩,
        .group .orNot [.leaf ⟨"a".toList, "x".toList, false⟩,
          .leaf ⟨"$or".toList, "y".toList, true⟩]]) := by
    decide +kernel
  have hd : (⟨.boolean, .text, ["t".toList]⟩ : Engine).toFilter .standard
      "b (a:x OR NOT $or:\"y\")".toList = .ok (operator "$and"
        [single "t".toList (leafCondition ⟨[], "b".toList, false⟩),
          operator "$or" [single "a".toList (.text "x".toList),
            operator "$nor" [single "$or".toList (.text "y".toList)]]]) := by
    rw [toFilter, Language.parse_eq, hparse]
    rfl
  obtain ⟨t, ht, hkeys⟩ := dollar_keys_of_toFilter (c := .standard) rfl (by decide) hd
  obtain rfl := Except.ok.inj (hparse.symm.trans ht)
  refine ⟨_, hd, ?_⟩
  intro f hf key x hx hdollar
  rcases hkeys f hf key x hx hdollar with hop | ⟨_, l, hl, rfl, hrest⟩
  · exact Or.inl hop
  · simp only [Node.leaves_group, List.flatMap_cons, List.flatMap_nil, Node.leaves_leaf,
      List.cons_append, List.nil_append, List.mem_cons, List.not_mem_nil, or_false] at hl
    rcases hl with rfl | rfl | rfl
    · cases hdollar
    · cases hdollar
    · exact Or.inr ⟨rfl, hrest⟩

end Engine

end BooleanSearch
