import BooleanSearch.Proofs.TextSearch

/-!
# Trees that have a filter

A tree can be refused for its shape or for its free text. Default fields take all free text up, so
that the shape alone decides and no text search is made. Without them the filter holds one search
for each leaf without field, and there is a filter for one such leaf at most.
-/

namespace BooleanSearch

namespace Node

mutual

/-- Tells that every place is filled, that every group has a child, and a known connective if it has
several, and that the value of every field is a phrase or can be typed. -/
def Convertible : Node → Prop
  | leaf l => l.hasField = true → l.phrase = false → ∃ x, Filter.readValue l.value = .ok x
  | gap _ => False
  | group c xs => 0 < xs.length ∧ (2 ≤ xs.length → c.isKnown = true) ∧ ConvertibleAll xs

def ConvertibleAll : List Node → Prop
  | [] => True
  | x :: xs => Convertible x ∧ ConvertibleAll xs

end

mutual

private theorem length_freeTexts : ∀ (n : Node) (around : Nat),
    (n.freeTexts around).length = n.leaves.countP (!·.hasField)
  | leaf l, around => by cases h : l.hasField <;> simp [freeTexts, h]
  | gap k, around => by cases k <;> rfl
  | group c [], around => rfl
  | group c (x :: xs), around => by
    rw [freeTexts, List.length_append, length_freeTexts x, length_freeTextsAll xs, leaves_group,
      List.flatMap_cons, List.countP_append]

private theorem length_freeTextsAll : ∀ (xs : List Node) (around : Nat),
    (freeTextsAll around xs).length = (xs.flatMap leaves).countP (!·.hasField)
  | [], around => rfl
  | x :: xs, around => by
    rw [freeTextsAll, List.length_append, length_freeTexts x, length_freeTextsAll xs,
      List.flatMap_cons, List.countP_append]

end

end Node

namespace Filter

/-! ### What a filter says of its tree -/

private theorem documentSearches_defaultFieldFilter (around : Nat) (fields : List Text) (l : Leaf) :
    documentSearches around (defaultFieldFilter fields l) = [] := by
  have hcaseless (key p : Text) : entrySearches around key (caselessValue p) = [] := by
    simp [caselessValue, entrySearches, documentSearches]
  have hpattern (key p : Text) : entrySearches around key (patternValue p) = [] := by
    simp [patternValue, entrySearches, documentSearches]
  have hcondition (key : Text) : documentSearches around (single key (leafCondition l)) = [] := by
    rw [documentSearches_single, leafCondition, textCondition]
    split_ifs
    · exact hcaseless key _
    · exact hpattern key _
    · exact hpattern key _
    · exact hcaseless key _
  unfold defaultFieldFilter
  split
  · exact hcondition _
  · rw [documentSearches_operator (by decide), List.flatMap_map, List.flatMap_eq_nil_iff]
    intro field _
    exact hcondition field

/-- What the filter of a tree tells, whatever the state in which it was made. -/
private structure Converted (fields : List Text) (n : Node) (d : Document) : Prop where
  convertible : n.Convertible
  searches : fields ≠ [] → ∀ around, documentSearches around d = []

private structure ConvertedAll (fields : List Text) (xs : List Node) (ds : List Document) :
    Prop where
  convertible : Node.ConvertibleAll xs
  searches : fields ≠ [] → ∀ around, ds.flatMap (documentSearches around) = []

private theorem converted_leaf {fields : List Text} {negated used after : Bool} {l : Leaf}
    {d : Document} (h : convert fields negated (.leaf l) used = .ok (d, after)) :
    Converted fields (.leaf l) d := by
  rw [convert] at h
  split_ifs at h with hf
  · obtain ⟨e, he, hp⟩ := map_eq_ok.mp h
    obtain ⟨rfl, rfl⟩ := Prod.mk.inj hp
    refine ⟨fun _ hphrase => ?_, fun _ around => documentSearches_fieldFilter around he⟩
    rw [fieldFilter, if_neg (by simp [hphrase])] at he
    split at he
    · next x hx => exact ⟨x, hx⟩
    · cases he
  · refine ⟨fun hfield => absurd hfield hf, fun hne around => ?_⟩
    rw [freeTextFilter, if_pos (by simpa using hne)] at h
    obtain ⟨rfl, rfl⟩ := Prod.mk.inj (Except.ok.inj h)
    exact documentSearches_defaultFieldFilter around fields l

mutual

private theorem converted_convert {fields : List Text} : ∀ (n : Node) {negated used after : Bool}
    {d : Document}, convert fields negated n used = .ok (d, after) → Converted fields n d
  | .leaf l, _, _, _, _, h => converted_leaf h
  | .gap .node, _, _, _, _, h => by cases h
  | .gap .leaf, _, _, _, _, h => by cases h
  | .gap .group, _, _, _, _, h => by cases h
  | .group _ [], _, _, _, _, h => by cases h
  | .group _ [x], _, _, _, _, h => by
    have hx := converted_convert x h
    exact ⟨⟨by simp, by simp, hx.convertible, trivial⟩, hx.searches⟩
  | .group c (x :: y :: ys), _, _, _, _, h => by
    rw [convert] at h
    obtain ⟨⟨first, between⟩, hfirst, h⟩ := bind_eq_ok.mp h
    split_ifs at h with hc
    obtain ⟨⟨rest, after⟩, hrest, h⟩ := bind_eq_ok.mp h
    obtain ⟨d, hd, h⟩ := bind_eq_ok.mp h
    obtain ⟨rfl, rfl⟩ := Prod.mk.inj (Except.ok.inj h)
    have hx := converted_convert x hfirst
    have hys := converted_convertAll (y :: ys) hrest
    refine ⟨⟨by simp, fun _ => hc, hx.convertible, hys.convertible⟩, fun hne around => ?_⟩
    rw [documentSearches_combine around hd, hx.searches hne, hys.searches hne, List.append_nil]

private theorem converted_convertAll {fields : List Text} : ∀ (xs : List Node)
    {negated used after : Bool} {ds : List Document},
    convertAll fields negated xs used = .ok (ds, after) → ConvertedAll fields xs ds
  | [], _, _, _, _, h => by
    obtain ⟨rfl, rfl⟩ := Prod.mk.inj (Except.ok.inj h)
    exact ⟨trivial, fun _ _ => rfl⟩
  | x :: xs, _, _, _, _, h => by
    rw [convertAll] at h
    obtain ⟨⟨d, between⟩, hd, h⟩ := bind_eq_ok.mp h
    obtain ⟨⟨rest, after⟩, hrest, h⟩ := bind_eq_ok.mp h
    obtain ⟨rfl, rfl⟩ := Prod.mk.inj (Except.ok.inj h)
    have hx := converted_convert x hd
    have hxs := converted_convertAll xs hrest
    refine ⟨⟨hx.convertible, hxs.convertible⟩, fun hne around => ?_⟩
    rw [List.flatMap_cons, hx.searches hne, hxs.searches hne, List.append_nil]

end

/-! ### When a tree has a filter -/

/-- Tells that no default fields are lacking for the free texts with so many negations around them:
there are default fields, or none of the texts is negated and the search is left for the only
one. -/
private def Room (fields : List Text) (used : Bool) (texts : List Nat) : Prop :=
  fields = [] → (∀ k ∈ texts, k % 2 = 0) ∧ used.toNat + texts.length ≤ 1

private theorem Room.left {fields : List Text} {used : Bool} {texts more : List Nat}
    (h : Room fields used (texts ++ more)) : Room fields used texts := by
  intro hnone
  obtain ⟨heven, hcount⟩ := h hnone
  rw [List.length_append] at hcount
  exact ⟨fun k hk => heven k (List.mem_append_left more hk), by omega⟩

private theorem Room.right {fields : List Text} {around : Nat} {n : Node} {used between : Bool}
    {d : Document} {more : List Nat} (h : Room fields used (n.freeTexts around ++ more))
    (hd : convert fields (around % 2 == 1) n used = .ok (d, between)) :
    Room fields between more := by
  intro hnone
  obtain ⟨heven, hcount⟩ := h hnone
  subst hnone
  have haccount := accounted_convert n around hd
  have hused := haccount.count
  rw [haccount.same] at hused
  rw [List.length_append] at hcount
  exact ⟨fun k hk => heven k (List.mem_append_right _ hk), by omega⟩

private theorem exists_convert_leaf {fields : List Text} {l : Leaf} {around : Nat} {used : Bool}
    (hl : Node.Convertible (.leaf l)) (hroom : Room fields used (Node.freeTexts around (.leaf l))) :
    ∃ d after, convert fields (around % 2 == 1) (.leaf l) used = .ok (d, after) := by
  rw [Node.freeTexts] at hroom
  rw [convert]
  split_ifs at hroom ⊢ with hf
  · rw [fieldFilter]
    split_ifs with hphrase
    · exact ⟨_, _, rfl⟩
    · obtain ⟨x, hx⟩ := hl hf (by simpa using hphrase)
      rw [hx]
      exact ⟨_, _, rfl⟩
  · rw [freeTextFilter]
    by_cases hnone : fields = []
    · obtain ⟨heven, hcount⟩ := hroom hnone
      have hpositive : ¬(around % 2 == 1) = true := by simp [heven around (by simp)]
      have hunused : used = false := by
        cases used with
        | false => rfl
        | true => simp at hcount
      rw [if_neg (by simp [hnone]), if_neg hpositive, if_neg (by simp [hunused])]
      exact ⟨_, _, rfl⟩
    · rw [if_pos (by simpa using hnone)]
      exact ⟨_, _, rfl⟩

private theorem exists_combine {c : Connective} (hc : c.isKnown = true) (first : Document)
    (rest : List Document) : ∃ d, combine c first rest = .ok d := by
  cases c with
  | other word => cases hc
  | _ => exact ⟨_, rfl⟩

mutual

private theorem exists_convert {fields : List Text} : ∀ (n : Node) (around : Nat) (used : Bool),
    n.Convertible → Room fields used (n.freeTexts around) →
      ∃ d after, convert fields (around % 2 == 1) n used = .ok (d, after)
  | .leaf l, _, _, hl, hroom => exists_convert_leaf hl hroom
  | .group _ [], _, _, ⟨hpos, _⟩, _ => by cases hpos
  | .group _ [x], around, used, ⟨_, _, hx, _⟩, hroom => by
    rw [Node.freeTexts, Node.freeTextsAll, List.append_nil] at hroom
    exact exists_convert x around used hx hroom
  | .group c (x :: y :: ys), around, used, ⟨_, hknown, hx, hys⟩, hroom => by
    have hc := hknown (by simp)
    rw [Node.freeTexts] at hroom
    obtain ⟨first, between, hfirst⟩ := exists_convert x around used hx hroom.left
    obtain ⟨rest, after, hrest⟩ :=
      exists_convertAll (y :: ys) _ between hys (hroom.right hfirst)
    obtain ⟨d, hd⟩ := exists_combine hc first rest
    refine ⟨d, after, ?_⟩
    rw [convert]
    refine bind_eq_ok.mpr ⟨_, hfirst, ?_⟩
    dsimp only
    rw [if_pos hc, parity_below]
    exact bind_eq_ok.mpr ⟨_, hrest, bind_eq_ok.mpr ⟨d, hd, rfl⟩⟩

private theorem exists_convertAll {fields : List Text} : ∀ (xs : List Node) (around : Nat)
    (used : Bool), Node.ConvertibleAll xs → Room fields used (Node.freeTextsAll around xs) →
      ∃ ds after, convertAll fields (around % 2 == 1) xs used = .ok (ds, after)
  | [], _, used, _, _ => ⟨[], used, rfl⟩
  | x :: xs, around, used, ⟨hx, hxs⟩, hroom => by
    rw [Node.freeTextsAll] at hroom
    obtain ⟨d, between, hd⟩ := exists_convert x around used hx hroom.left
    obtain ⟨rest, after, hrest⟩ := exists_convertAll xs around between hxs (hroom.right hd)
    refine ⟨d :: rest, after, ?_⟩
    rw [convertAll]
    exact bind_eq_ok.mpr ⟨_, hd, bind_eq_ok.mpr ⟨_, hrest, rfl⟩⟩

end

/-- With default fields the trees that have a filter are the convertible ones, and no filter holds a
text search. Without them a tree must moreover have no more than one leaf without field, which lies
in an even number of negated operands, and the filter holds as many searches as there are such
leaves. -/
theorem ofTree_ok_iff_convertible (fields : List Text) (n : Node) :
    (fields ≠ [] → ((∃ d, ofTree fields n = .ok d) ↔ n.Convertible) ∧
        ∀ d, ofTree fields n = .ok d → documentSearches 0 d = []) ∧
      ((∃ d, ofTree [] n = .ok d) ↔ n.Convertible ∧ n.leaves.countP (!·.hasField) ≤ 1 ∧
        ∀ k ∈ n.freeTexts 0, k % 2 = 0) ∧
      ∀ d, ofTree [] n = .ok d →
        (documentSearches 0 d).length = n.leaves.countP (!·.hasField) := by
  have hexists {fs : List Text} (hn : n.Convertible) (hroom : Room fs false (n.freeTexts 0)) :
      ∃ d, ofTree fs n = .ok d := by
    obtain ⟨d, after, hd⟩ := exists_convert n 0 false hn hroom
    exact ⟨d, ofTree_eq_ok_iff.mpr ⟨after, hd⟩⟩
  have hconverted {fs : List Text} {d : Document} (h : ofTree fs n = .ok d) :
      Converted fs n d := by
    obtain ⟨after, hd⟩ := ofTree_eq_ok_iff.mp h
    exact converted_convert n hd
  have haccounted {d : Document} (h : ofTree [] n = .ok d) :
      ∃ after, Accounted false after (documentSearches 0 d) (n.freeTexts 0) := by
    obtain ⟨after, hd⟩ := ofTree_eq_ok_iff.mp h
    exact ⟨after, accounted_convert n 0 hd⟩
  refine ⟨fun hne => ⟨⟨?_, ?_⟩, ?_⟩, ⟨?_, ?_⟩, ?_⟩
  · rintro ⟨d, h⟩
    exact (hconverted h).convertible
  · intro hn
    exact hexists hn fun hnone => absurd hnone hne
  · intro d h
    exact (hconverted h).searches hne 0
  · rintro ⟨d, h⟩
    obtain ⟨after, haccount⟩ := haccounted h
    have hcount := haccount.count
    have hle := after.toNat_le
    rw [haccount.same, Node.length_freeTexts] at hcount
    exact ⟨(hconverted h).convertible, by omega, haccount.same ▸ haccount.even⟩
  · rintro ⟨hn, hone, heven⟩
    refine hexists hn fun _ => ⟨heven, ?_⟩
    rw [Node.length_freeTexts]
    simpa using hone
  · intro d h
    obtain ⟨after, haccount⟩ := haccounted h
    rw [haccount.same, Node.length_freeTexts]

theorem ofTree_ok_iff_convertible_two_texts :
    ["c".toList] ≠ [] ∧
      (∃ d, ofTree ["c".toList] (.group .andNot [.leaf ⟨"a".toList, "x".toList, false⟩,
          .group (.other "XOR".toList) [.leaf ⟨[], "v".toList, false⟩],
          .leaf ⟨[], "w".toList, true⟩]) = .ok d ∧ documentSearches 0 d = []) ∧
      ¬∃ d, ofTree [] (.group .andNot [.leaf ⟨"a".toList, "x".toList, false⟩,
          .group (.other "XOR".toList) [.leaf ⟨[], "v".toList, false⟩],
          .leaf ⟨[], "w".toList, true⟩]) = .ok d := by
  have hne : ["c".toList] ≠ [] := by decide
  obtain ⟨hfields, hnone, _⟩ := ofTree_ok_iff_convertible ["c".toList]
    (.group .andNot [.leaf ⟨"a".toList, "x".toList, false⟩,
      .group (.other "XOR".toList) [.leaf ⟨[], "v".toList, false⟩], .leaf ⟨[], "w".toList, true⟩])
  obtain ⟨hconvertible, hsearches⟩ := hfields hne
  have hvalue : ∃ x, readValue "x".toList = .ok x := ⟨.text "x".toList, rfl⟩
  obtain ⟨d, hd⟩ := hconvertible.mpr
    ⟨by decide, fun _ => rfl, fun _ _ => hvalue,
      ⟨by decide, fun h => absurd h (by decide), fun h => absurd h (by decide), trivial⟩,
      fun h => absurd h (by decide), trivial⟩
  refine ⟨hne, ⟨d, hd, hsearches d hd⟩, fun h => ?_⟩
  exact absurd (hnone.mp h).2.1 (by decide)

end Filter

end BooleanSearch
