import BooleanSearch.Proofs.FilterMeaning

/-!
# Text searches and negation

Without default fields a free-text leaf becomes a text search. The filter of a tree holds one search
for each free-text leaf, inside as many `$nor` arrays as there are negated operands around the leaf.
Conversion refuses a leaf only if that number is odd, so two negations let a search through.
-/

namespace BooleanSearch

namespace Filter

mutual

/-- For each text search in an entry, the number of `$nor` arrays around it, if there are `around`
of them around the entry. -/
def entrySearches (around : Nat) (key : Text) : Value → List Nat
  | .array items =>
    itemSearches (if key = "$nor".toList then around + 1 else around) items
  | .document entries =>
    (if key = "$text".toList ∧ entries.map Prod.fst = ["$search".toList] then [around] else []) ++
      documentSearches around entries
  | .text _ => []
  | .bool _ => []
  | .number _ => []
  | .date _ => []

def documentSearches (around : Nat) : List (Text × Value) → List Nat
  | [] => []
  | (key, x) :: rest => entrySearches around key x ++ documentSearches around rest

def itemSearches (around : Nat) : List Value → List Nat
  | [] => []
  | .document entries :: rest => documentSearches around entries ++ itemSearches around rest
  | .array items :: rest => itemSearches around items ++ itemSearches around rest
  | .text _ :: rest => itemSearches around rest
  | .bool _ :: rest => itemSearches around rest
  | .number _ :: rest => itemSearches around rest
  | .date _ :: rest => itemSearches around rest

end

end Filter

namespace Node

mutual

/-- For each free-text leaf, the number of negated operands it lies in, if the tree itself lies in
`around` of them. Of a group that is negated all operands but the first are. -/
def freeTexts (around : Nat) : Node → List Nat
  | leaf l => if l.hasField then [] else [around]
  | gap _ => []
  | group _ [] => []
  | group c (x :: xs) =>
    freeTexts around x ++ freeTextsAll (if c.isNegated then around + 1 else around) xs

def freeTextsAll (around : Nat) : List Node → List Nat
  | [] => []
  | x :: xs => freeTexts around x ++ freeTextsAll around xs

end

end Node

namespace Filter

/-! ### Searches in the parts of a filter -/

theorem documentSearches_single (around : Nat) (key : Text) (x : Value) :
    documentSearches around (single key x) = entrySearches around key x := by
  rw [single, documentSearches, documentSearches, List.append_nil]

private theorem itemSearches_documents (around : Nat) (ds : List Document) :
    itemSearches around (ds.map .document) = ds.flatMap (documentSearches around) := by
  induction ds with
  | nil => rfl
  | cons d ds ih => rw [List.map_cons, itemSearches, ih, List.flatMap_cons]

theorem documentSearches_operator {name : String} (hname : name.toList ≠ "$nor".toList)
    (around : Nat) (ds : List Document) :
    documentSearches around (operator name ds) = ds.flatMap (documentSearches around) := by
  rw [operator, documentSearches_single, entrySearches, if_neg hname, itemSearches_documents]

private theorem documentSearches_nor (around : Nat) (ds : List Document) :
    documentSearches around (operator "$nor" ds) = ds.flatMap (documentSearches (around + 1)) := by
  rw [operator, documentSearches_single, entrySearches, if_pos rfl, itemSearches_documents]

private theorem documentSearches_merge? (around : Nat) {ds : List Document} {m : Document}
    (h : merge? ds = some m) :
    documentSearches around m = ds.flatMap (documentSearches around) := by
  induction ds generalizing m with
  | nil =>
    obtain rfl := Option.some.inj h
    rfl
  | cons d ds ih =>
    obtain ⟨key, x, merged, rfl, hm, _, rfl⟩ := merge?_cons_eq_some h
    rw [documentSearches, ih hm, List.flatMap_cons, documentSearches, documentSearches,
      List.append_nil]

theorem documentSearches_combine (around : Nat) {c : Connective} {first d : Document}
    {rest : List Document} (h : combine c first rest = .ok d) :
    documentSearches around d = documentSearches around first ++
      rest.flatMap (documentSearches (if c.isNegated then around + 1 else around)) := by
  cases c with
  | and =>
    obtain rfl := Except.ok.inj h
    rw [conjunction]
    cases hm : merge? (first :: rest) with
    | none => exact documentSearches_operator (by decide) around (first :: rest)
    | some m => exact documentSearches_merge? around hm
  | or =>
    obtain rfl := Except.ok.inj h
    exact documentSearches_operator (by decide) around (first :: rest)
  | andNot =>
    obtain rfl := Except.ok.inj h
    rw [documentSearches_operator (by decide), List.flatMap_cons, List.flatMap_cons,
      documentSearches_nor, List.flatMap_nil, List.append_nil]
    rfl
  | orNot =>
    obtain rfl := Except.ok.inj h
    rw [documentSearches_operator (by decide), List.flatMap_cons, List.flatMap_map]
    simp only [documentSearches_nor, List.flatMap_cons, List.flatMap_nil, List.append_nil]
    rfl
  | other word => cases h

/-! ### Searches in the filter of a tree -/

private theorem entrySearches_scalar (around : Nat) (key : Text) {x : Value}
    (h : x.isScalar = true) : entrySearches around key x = [] := by
  cases x with
  | document entries => cases h
  | array items => cases h
  | _ => rfl

private theorem entrySearches_readValue (around : Nat) (key : Text) {t : Text} {x : Value}
    (h : readValue t = .ok x) : entrySearches around key x = [] := by
  obtain hx | ⟨op, y, hop, hy, rfl⟩ := readValue_cases h
  · exact entrySearches_scalar around key hx
  · have hne : ¬(key = "$text".toList ∧ [op] = ["$search".toList]) := by
      intro hboth
      rw [List.singleton_inj.mp hboth.2] at hop
      exact absurd hop (by decide)
    rw [entrySearches, documentSearches_single, entrySearches_scalar around op hy, List.append_nil]
    exact if_neg hne

theorem documentSearches_fieldFilter (around : Nat) {l : Leaf} {d : Document}
    (h : fieldFilter l = .ok d) : documentSearches around d = [] := by
  rw [fieldFilter] at h
  split_ifs at h
  · obtain rfl := Except.ok.inj h
    exact documentSearches_single around _ _
  · split at h
    · next x hx =>
      obtain rfl := Except.ok.inj h
      rw [documentSearches_single, entrySearches_readValue around _ hx]
    · cases h

private theorem documentSearches_textFilter (around : Nat) (l : Leaf) :
    documentSearches around (textFilter l) = [around] := by
  rw [textFilter, documentSearches_single, entrySearches, documentSearches_single]
  exact congrArg (· ++ []) (if_pos ⟨rfl, rfl⟩)

/-- The searches found in filters are those expected of their trees, all of them inside an even
number of negations, and are counted by the flag. -/
structure Accounted (used after : Bool) (found expected : List Nat) : Prop where
  same : found = expected
  even : ∀ k ∈ found, k % 2 = 0
  count : used.toNat + found.length = after.toNat

private theorem Accounted.none (used : Bool) : Accounted used used [] [] :=
  ⟨rfl, by simp, rfl⟩

private theorem Accounted.append {used between after : Bool}
    {found found' expected expected' : List Nat}
    (h : Accounted used between found expected) (h' : Accounted between after found' expected') :
    Accounted used after (found ++ found') (expected ++ expected') where
  same := by rw [h.same, h'.same]
  even := List.forall_mem_append.mpr ⟨h.even, h'.even⟩
  count := by
    have hfirst := h.count
    have hrest := h'.count
    rw [List.length_append]
    omega

private theorem accounted_leaf {around : Nat} {l : Leaf} {used after : Bool} {d : Document}
    (h : convert [] (around % 2 == 1) (.leaf l) used = .ok (d, after)) :
    Accounted used after (documentSearches around d) (Node.freeTexts around (.leaf l)) := by
  rw [convert] at h
  rw [Node.freeTexts]
  by_cases hf : l.hasField = true
  · rw [if_pos hf] at h ⊢
    obtain ⟨e, he, hp⟩ := map_eq_ok.mp h
    obtain ⟨rfl, rfl⟩ := Prod.mk.inj hp
    rw [documentSearches_fieldFilter around he]
    exact Accounted.none used
  · rw [if_neg hf] at h ⊢
    rw [freeTextFilter] at h
    split_ifs at h with hfields hodd hused
    · simp at hfields
    · obtain ⟨rfl, rfl⟩ := Prod.mk.inj (Except.ok.inj h)
      have heven : around % 2 = 0 := by
        have hne : around % 2 ≠ 1 := by simpa using hodd
        omega
      rw [documentSearches_textFilter]
      refine ⟨rfl, by simpa using heven, ?_⟩
      rw [Bool.eq_false_iff.mpr hused]
      rfl

theorem parity_below (around : Nat) (c : Connective) :
    ((around % 2 == 1) ^^ c.isNegated) =
      ((if c.isNegated then around + 1 else around) % 2 == 1) := by
  cases c.isNegated with
  | false => simp
  | true =>
    have h : around % 2 = 0 ∨ around % 2 = 1 := by omega
    rcases h with h | h <;> simp [h, Nat.add_mod]

mutual

theorem accounted_convert : ∀ (n : Node) (around : Nat) {used after : Bool} {d : Document},
    convert [] (around % 2 == 1) n used = .ok (d, after) →
      Accounted used after (documentSearches around d) (n.freeTexts around)
  | .leaf l, _, _, _, _, h => accounted_leaf h
  | .gap .node, _, _, _, _, h => by cases h
  | .gap .leaf, _, _, _, _, h => by cases h
  | .gap .group, _, _, _, _, h => by cases h
  | .group _ [], _, _, _, _, h => by cases h
  | .group _ [x], around, _, _, _, h => by
    rw [Node.freeTexts, Node.freeTextsAll, List.append_nil]
    exact accounted_convert x around h
  | .group c (x :: y :: ys), around, _, _, _, h => by
    rw [convert] at h
    obtain ⟨⟨first, between⟩, hx, h⟩ := bind_eq_ok.mp h
    split_ifs at h
    rw [parity_below] at h
    obtain ⟨⟨rest, after⟩, hxs, h⟩ := bind_eq_ok.mp h
    obtain ⟨d, hd, h⟩ := bind_eq_ok.mp h
    obtain ⟨rfl, rfl⟩ := Prod.mk.inj (Except.ok.inj h)
    rw [documentSearches_combine around hd, Node.freeTexts]
    exact (accounted_convert x around hx).append (accounted_convertAll (y :: ys) _ hxs)

theorem accounted_convertAll : ∀ (xs : List Node) (around : Nat) {used after : Bool}
    {ds : List Document}, convertAll [] (around % 2 == 1) xs used = .ok (ds, after) →
      Accounted used after (ds.flatMap (documentSearches around)) (Node.freeTextsAll around xs)
  | [], _, used, _, _, h => by
    obtain ⟨rfl, rfl⟩ := Prod.mk.inj (Except.ok.inj h)
    exact Accounted.none used
  | x :: xs, around, _, _, _, h => by
    rw [convertAll] at h
    obtain ⟨⟨d, between⟩, hd, h⟩ := bind_eq_ok.mp h
    obtain ⟨⟨rest, after⟩, hrest, h⟩ := bind_eq_ok.mp h
    obtain ⟨rfl, rfl⟩ := Prod.mk.inj (Except.ok.inj h)
    rw [List.flatMap_cons, Node.freeTextsAll]
    exact (accounted_convert x around hd).append (accounted_convertAll xs around hrest)

end

/-- Without default fields the filter of a tree holds the searches of its free-text leaves, at most
one, each inside as many `$nor` arrays as there are negated operands around its leaf. That number is
even, so a search stays clear of `$nor` unless negations are nested. -/
theorem documentSearches_of_ofTree {n : Node} {d : Document} (h : ofTree [] n = .ok d) :
    documentSearches 0 d = n.freeTexts 0 ∧ (∀ k ∈ documentSearches 0 d, k % 2 = 0) ∧
      (documentSearches 0 d).length ≤ 1 := by
  have hconvert : ∃ p, convert [] (0 % 2 == 1) n false = .ok p ∧ p.1 = d := by
    rw [ofTree.eq_def] at h
    split at h
    · cases h
    · exact map_eq_ok.mp h
  obtain ⟨⟨e, after⟩, hn, he⟩ := hconvert
  obtain rfl : e = d := he
  have hd := accounted_convert n 0 hn
  have hcount := hd.count
  have hle := after.toNat_le
  exact ⟨hd.same, hd.even, by omega⟩

theorem search_inside_nor :
    ∃ d, ofTree [] (.group .andNot [.leaf ⟨"a".toList, "x".toList, false⟩,
        .group .andNot [.leaf ⟨"b".toList, "y".toList, false⟩, .leaf ⟨[], "c".toList, false⟩]]) =
          .ok d ∧
      ¬∀ k ∈ documentSearches 0 d, k = 0 := by
  refine ⟨operator "$and" [single "a".toList (.text "x".toList),
    operator "$nor" [operator "$and" [single "b".toList (.text "y".toList),
      operator "$nor" [textFilter ⟨[], "c".toList, false⟩]]]], rfl, ?_⟩
  decide

theorem documentSearches_of_ofTree_nested :
    ∃ d, ofTree [] (.group .orNot [.leaf ⟨"a".toList, "x".toList, true⟩,
        .group .and [.leaf ⟨"b".toList, "y".toList, true⟩,
          .group .andNot [.leaf ⟨"b".toList, "z".toList, true⟩, .leaf ⟨[], "c".toList, true⟩]]]) =
          .ok d ∧
      documentSearches 0 d = [2] := by
  have h : ofTree [] (.group .orNot [.leaf ⟨"a".toList, "x".toList, true⟩,
      .group .and [.leaf ⟨"b".toList, "y".toList, true⟩,
        .group .andNot [.leaf ⟨"b".toList, "z".toList, true⟩, .leaf ⟨[], "c".toList, true⟩]]]) =
      .ok (operator "$or" [single "a".toList (.text "x".toList),
        operator "$nor" [operator "$and" [single "b".toList (.text "y".toList),
          operator "$and" [single "b".toList (.text "z".toList),
            operator "$nor" [textFilter ⟨[], "c".toList, true⟩]]]]]) := rfl
  exact ⟨_, h, (documentSearches_of_ofTree h).1⟩

end Filter

end BooleanSearch
