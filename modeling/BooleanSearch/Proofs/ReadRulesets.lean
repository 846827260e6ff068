import BooleanSearch.Proofs.MemberLookup
import BooleanSearch.Proofs.RulesetText
import BooleanSearch.Text.Editions

/-!
# The trees of rulesets

Whatever a text holds, a ruleset that is read gives a tree that can be written again: its root is a
group, its connectives are known, no place is left open, no group is empty and no value is blank.
The root is tested for a condition first and taken for a group or a leaf by lookups of its own,
which agree with the test since they begin by repeating it.
-/

namespace BooleanSearch

open Json

namespace Ruleset

/-! ### Members -/

private def ProperRules (x : Member) : Prop :=
  ∀ path xs, x.rules path = .ok xs → Node.ProperAll xs

private theorem leafOfMembers_eq_ok {m : Members Member} {path : Path} {n : Node RawText}
    (h : leafOfMembers m path = .ok n) : ∃ l, n = .leaf l ∧ l.value.trim ≠ [] := by
  rw [leafOfMembers] at h
  dsimp only at h
  split_ifs at h with hblank
  · exact ⟨_, (Except.ok.inj h).symm, by simpa using hblank⟩
  · exact ⟨_, (Except.ok.inj h).symm, by simpa using hblank⟩

section

variable [CharacterData]

private theorem groupOfMembers_eq_ok {m : Members Member} {path : Path} {n : Node RawText}
    (h : groupOfMembers m path = .ok n) :
    ∃ c, c.isKnown = true ∧ ∃ x ∈ m.values, ∃ xs, x.rules path = .ok xs ∧ xs ≠ [] ∧
      n = .group c xs := by
  rw [groupOfMembers] at h
  dsimp only at h
  split at h
  · cases h
  · next c hc =>
    split at h
    · cases h
    · next x hx =>
      have hmem : x ∈ m.values := by
        rw [← Members.values_get m (raw "condition")]
        exact Members.mem_values_of_get hx
      split at h
      · cases h
      · cases h
      · next y ys hys =>
        exact ⟨_, (Connective.isKnown_map _ c).trans (isKnown_of_parse? hc), x, hmem, y :: ys, hys,
          List.cons_ne_nil y ys, (Except.ok.inj h).symm⟩

private theorem nodeOfMembers_eq (m : Members Member) (path : Path) :
    nodeOfMembers m path =
      if (m.get (raw "condition")).1.isSome then groupOfMembers (m.get (raw "condition")).2 path
      else if ((m.get (raw "condition")).2.get (raw "rules")).1.isSome then
        groupOfMembers ((m.get (raw "condition")).2.get (raw "rules")).2 path
      else leafOfMembers ((m.get (raw "condition")).2.get (raw "rules")).2 path := rfl

private theorem proper_groupOfMembers {m : Members Member} (hm : ∀ x ∈ m.values, ProperRules x)
    {path : Path} {n : Node RawText} (h : groupOfMembers m path = .ok n) : n.Proper := by
  obtain ⟨c, hc, x, hx, xs, hxs, hne, rfl⟩ := groupOfMembers_eq_ok h
  exact ⟨hc, hne, hm x hx path xs hxs⟩

private theorem proper_nodeOfMembers {m : Members Member} (hm : ∀ x ∈ m.values, ProperRules x)
    {path : Path} {n : Node RawText} (h : nodeOfMembers m path = .ok n) : n.Proper := by
  rw [nodeOfMembers_eq] at h
  split_ifs at h
  · exact proper_groupOfMembers (by rwa [Members.values_get]) h
  · exact proper_groupOfMembers (by rwa [Members.values_get, Members.values_get]) h
  · obtain ⟨l, rfl, hl⟩ := leafOfMembers_eq_ok h
    exact hl

private theorem group_of_tested {m : Members Member}
    (htest : (m.get (raw "condition")).1.isSome = true) {path : Path} {n : Node RawText}
    (h : nodeOfMembers (m.get (raw "condition")).2 path = .ok n) : ∃ c xs, n = .group c xs := by
  rw [nodeOfMembers_eq, Members.get_get, if_pos htest] at h
  obtain ⟨c, _, _, _, xs, _, _, rfl⟩ := groupOfMembers_eq_ok h
  exact ⟨c, xs, rfl⟩

/-! ### Values -/

mutual

private theorem proper_ofJson : ∀ (v : Json) (path : Path) {n : Node RawText}, ofJson v path = .ok n
    →
    n.Proper
  | .object members, path, _, h => proper_nodeOfMembers (properRules_annotate members) h
  | .null, _, _, h => by cases h
  | .bool _, _, _, h => by cases h
  | .number _, _, _, h => by cases h
  | .string _, _, _, h => by cases h
  | .array _, _, _, h => by cases h

private theorem proper_rulesOfJson : ∀ (v : Json) (path : Path) {xs : List (Node RawText)},
    rulesOfJson v path = .ok xs → Node.ProperAll xs
  | .array items, path, _, h => proper_rulesOfItems items path 0 h
  | .null, _, _, h => by cases h
  | .bool _, _, _, h => by cases h
  | .number _, _, _, h => by cases h
  | .string _, _, _, h => by cases h
  | .object _, _, _, h => by cases h

private theorem proper_rulesOfItems : ∀ (items : List Json) (path : Path) (index : Nat)
    {xs : List (Node RawText)}, rulesOfItems items path index = .ok xs → Node.ProperAll xs
  | [], _, _, _, h => by
    obtain rfl := Except.ok.inj h
    trivial
  | v :: items, path, index, _, h => by
    rw [rulesOfItems] at h
    obtain ⟨x, hx, h⟩ := bind_eq_ok.mp h
    obtain ⟨xs, hxs, h⟩ := bind_eq_ok.mp h
    obtain rfl := Except.ok.inj h
    exact ⟨proper_ofJson v _ hx, proper_rulesOfItems items path _ hxs⟩

private theorem properRules_annotate : ∀ members : List (RawText × Json),
    ∀ x ∈ (Members.mk (annotate members) false).values, ProperRules x
  | [], x, hx => by cases hx
  | (key, v) :: members, x, hx => by
    rcases List.mem_cons.mp hx with rfl | hx
    · exact fun path xs => proper_rulesOfJson v path
    · exact properRules_annotate members x hx

end

private theorem treeOfJson_eq_ok {v : Json} {n : Node RawText} (h : treeOfJson v = .ok n) :
    ∃ members, v = .object members ∧
      ((Members.mk (annotate members) false).get (raw "condition")).1.isSome = true ∧
      nodeOfMembers ((Members.mk (annotate members) false).get (raw "condition")).2 [] =
        .ok n := by
  rw [treeOfJson.eq_def] at h
  split at h
  · next members =>
    dsimp only at h
    split_ifs at h with htest
    exact ⟨members, rfl, htest, h⟩
  · cases h

/-- What a ruleset is read as, however the keys in it are written, ordered or repeated: a tree with
a group at its root, in which every place is filled, every group has a known connective and a child
and no value is blank, and which can be written as a ruleset. -/
theorem proper_of_unmarshal {t : RawText} {n : Node RawText}
    (h : unmarshal t = .ok n) : (∃ c xs, n = .group c xs) ∧ n.Proper ∧ ∃ s, marshal n = .ok s := by
  have htree : ∃ v, treeOfJson v = .ok n := by
    rw [unmarshal.eq_def] at h
    split at h
    · cases h
    · exact ⟨_, h⟩
  obtain ⟨v, hv⟩ := htree
  obtain ⟨members, rfl, htest, hn⟩ := treeOfJson_eq_ok hv
  have hproper : n.Proper := by
    apply proper_nodeOfMembers _ hn
    rw [Members.values_get]
    exact properRules_annotate members
  obtain ⟨c, xs, rfl⟩ := group_of_tested htest hn
  obtain ⟨w, hw⟩ := exists_toJson hproper
  exact ⟨⟨c, xs, rfl⟩, hproper, w.write, map_eq_ok.mpr ⟨w, hw, rfl⟩⟩

end

theorem proper_of_unmarshal_repeated_keys :
    ∃ n, n = .group .and [.leaf ⟨[], raw "a", false⟩,
        .group .andNot [.leaf ⟨[], [.byte 127], false⟩]] ∧
      unmarshal (raw "\x7b\"cond\\u0069tion\":\"or\",\"r\\u0075les\":[" ++
        raw "\x7b\"value\":\"a\",\"v\\u0061lue\":\" \"\x7d," ++
        raw "\x7b\"rules\":[\x7b\"value\":\"" ++ [.byte 127] ++
        raw "\"\x7d],\"condition\":\"and_not\"\x7d" ++
        raw "],\"condition\":\"AND\"\x7d") = .ok n ∧
      n.Proper ∧ ∃ s, marshal n = .ok s := by
  have hread {t : RawText} {n : Node RawText} (h : unmarshal t = .ok n) :
      unmarshal t = .ok n ∧ n.Proper ∧ ∃ s, marshal n = .ok s :=
    ⟨h, (proper_of_unmarshal h).2⟩
  exact ⟨_, rfl, hread (by decide +kernel)⟩

end Ruleset

end BooleanSearch
