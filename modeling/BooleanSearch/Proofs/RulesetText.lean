import BooleanSearch.Proofs.JsonText
import BooleanSearch.Proofs.Outcomes
import BooleanSearch.Query.Parse
import BooleanSearch.Ruleset.Reader
import BooleanSearch.Text.Editions

/-!
# Reading written rulesets

A tree comes back from its ruleset exactly if its connectives are known, no group is empty, no value
is blank, all texts are safe to quote, and the ruleset is not nested too deep. What a leaf leaves
out of its object reads as absent, so the marks of a leaf need no condition of their own.
-/

namespace BooleanSearch

open Json Query

/-- Tells that the value of a leaf is not blank, and that its texts are safe to quote. -/
structure Leaf.Portable [CharacterData] (l : Leaf RawText) : Prop where
  nonblank : l.value.trim ≠ []
  field : QuoteSafe l.field
  value : QuoteSafe l.value

private theorem Leaf.portable_iff [CharacterData] (l : Leaf RawText) :
    l.Portable ↔ l.value.trim ≠ [] ∧ unescape (escape l.field) = l.field ∧
      unescape (escape l.value) = l.value := by
  rw [unescape_escape_iff, unescape_escape_iff]
  exact ⟨fun h => ⟨h.nonblank, h.field, h.value⟩, fun h => ⟨h.1, h.2.1, h.2.2⟩⟩

namespace Node

mutual

/-- Tells that every place is filled, that every group has a known connective and a child, and that
no value is blank. -/
def Proper : Node RawText → Prop
  | leaf l => l.value.trim ≠ []
  | gap _ => False
  | group c xs => c.isKnown = true ∧ xs ≠ [] ∧ ProperAll xs

def ProperAll : List (Node RawText) → Prop
  | [] => True
  | x :: xs => Proper x ∧ ProperAll xs

end

section

variable [CharacterData]

mutual

/-- Tells that every group has a known connective and a child, and that every leaf is portable. -/
def Portable : Node RawText → Prop
  | leaf l => l.Portable
  | gap _ => False
  | group c xs => c.isKnown = true ∧ xs ≠ [] ∧ PortableAll xs

def PortableAll : List (Node RawText) → Prop
  | [] => True
  | x :: xs => Portable x ∧ PortableAll xs

end

mutual

private theorem Portable.proper : ∀ {n : Node RawText}, n.Portable → n.Proper
  | leaf _, h => h.nonblank
  | group _ _, ⟨hc, hne, hxs⟩ => ⟨hc, hne, PortableAll.properAll hxs⟩

private theorem PortableAll.properAll : ∀ {xs : List (Node RawText)},
    PortableAll xs → ProperAll xs
  | [], _ => trivial
  | _ :: _, ⟨hx, hxs⟩ => ⟨Portable.proper hx, PortableAll.properAll hxs⟩

end

end

end Node

namespace Ruleset

/-! ### Members of a leaf -/

private def member? (es : List (RawText × Member)) (key : String) : Option Member :=
  (Members.mk es false).find? (raw key)

private theorem get_eq {es : List (RawText × Member)} (hk : ∀ k ∈ es.map Prod.fst, unescape k = k)
    (u : Bool) (key : String) :
    ∃ u', (Members.mk es u).get (raw key) = (member? es key, ⟨es, u'⟩) := by
  have hmap : es.map (fun e => (unescape e.1, e.2)) = es := by
    conv_rhs => rw [← List.map_id es]
    apply List.map_congr_left
    intro e he
    rw [hk e.1 (List.mem_map_of_mem he)]
    rfl
  obtain ⟨u', hu⟩ : ∃ u', (Members.mk es u).unescapeKeys = ⟨es, u'⟩ := by
    cases u with
    | true => exact ⟨true, rfl⟩
    | false => exact ⟨true, by simp [Members.unescapeKeys, hmap]⟩
  have hfind : ∀ u, (Members.mk es u).find? (raw key) = member? es key := fun _ => rfl
  rw [Members.get, hu, hfind, hfind]
  cases member? es key with
  | none => exact ⟨u', rfl⟩
  | some v => exact ⟨u, rfl⟩

private theorem ordinary_condition {c : Connective RawText} (h : c.isKnown = true) :
    ∀ p ∈ condition c, Ordinary p := by
  cases c with
  | other word => cases h
  | _ => decide

theorem isKnown_of_parse? {t : Text} {c : Connective} (h : Connective.parse? t = some c) :
    c.isKnown = true := by
  rw [Connective.parse?] at h
  split at h
  · next hk =>
    obtain rfl := Option.some.inj h
    exact hk
  · cases h

private theorem map_map_of_isKnown {c : Connective RawText} (h : c.isKnown = true) :
    (c.map RawText.shown).map RawText.ofText = c := by
  cases c with
  | other word => cases h
  | _ => rfl

section

variable [CharacterData]

private theorem nodeOfMembers_leaf {es : List (RawText × Member)}
    (hk : ∀ k ∈ es.map Prod.fst, unescape k = k) (hc : member? es "condition" = none)
    (hr : member? es "rules" = none) (path : Path) :
    nodeOfMembers ⟨es, false⟩ path =
      if (textOf (member? es "value")).trim.isEmpty then .error (.blankValue path)
      else if textOf (member? es "entity") = columnSearch ∧
          (textOf (member? es "field")).isEmpty then .error (.noField path)
      else if textOf (member? es "entity") = columnSearch ∨
          (textOf (member? es "entity")).isEmpty then
        .ok (.leaf ⟨textOf (member? es "field"), textOf (member? es "value"),
          (member? es "phrase").any fun p => p.value.isTrue⟩)
      else .ok (.leaf ⟨[], textOf (member? es "value"),
          (member? es "phrase").any fun p => p.value.isTrue⟩) := by
  obtain ⟨u₁, h₁⟩ := get_eq hk false "condition"
  obtain ⟨u₂, h₂⟩ := get_eq hk u₁ "rules"
  obtain ⟨u₃, h₃⟩ := get_eq hk u₂ "value"
  obtain ⟨u₄, h₄⟩ := get_eq hk u₃ "phrase"
  obtain ⟨u₅, h₅⟩ := get_eq hk u₄ "field"
  obtain ⟨u₆, h₆⟩ := get_eq hk u₅ "entity"
  simp only [nodeOfMembers, leafOfMembers, h₁, h₂, h₃, h₄, h₅, h₆, hc, hr, Option.isSome_none,
    Bool.false_eq_true, if_false]

private theorem member?_leafMembers (l : Leaf RawText) :
    member? (annotate (leafMembers l)) "condition" = none ∧
      member? (annotate (leafMembers l)) "rules" = none ∧
      member? (annotate (leafMembers l)) "value" =
        some ⟨.ofText l.value, rulesOfJson (.ofText l.value)⟩ ∧
      member? (annotate (leafMembers l)) "phrase" =
        (if l.phrase then some ⟨.bool true, rulesOfJson (.bool true)⟩ else none) ∧
      member? (annotate (leafMembers l)) "field" =
        (if l.hasField then some ⟨.ofText l.field, rulesOfJson (.ofText l.field)⟩ else none) ∧
      member? (annotate (leafMembers l)) "entity" =
        if l.hasField then some ⟨.ofText columnSearch, rulesOfJson (.ofText columnSearch)⟩
        else none := by
  unfold leafMembers
  cases l.hasField <;> cases l.phrase <;> exact ⟨rfl, rfl, rfl, rfl, rfl, rfl⟩

private theorem map_fst_annotate (members : List (RawText × Json)) :
    (annotate members).map Prod.fst = members.map Prod.fst := by
  induction members with
  | nil => rfl
  | cons m members ih => rw [annotate, List.map_cons, List.map_cons, ih]

private theorem plain_leafMembers (l : Leaf RawText) : ∀ m ∈ leafMembers l, Plain m.1 := by
  have hkeys : (leafMembers l).map Prod.fst ⊆
      [raw "entity", raw "field", raw "value", raw "phrase"] := by
    unfold leafMembers
    cases l.hasField <;> cases l.phrase <;> simp
  have hplain : ∀ k ∈ [raw "entity", raw "field", raw "value", raw "phrase"],
      Plain k := by
    decide
  exact fun m hm => hplain m.1 (hkeys (List.mem_map_of_mem hm))

private theorem ofJson_leaf (l : Leaf RawText) (path : Path) :
    ofJson (.object (leafMembers l)) path =
      if (unescape (escape l.value)).trim.isEmpty then .error (.blankValue path)
      else if l.hasField = true ∧ (unescape (escape l.field)).isEmpty then .error (.noField path)
      else .ok (.leaf ⟨unescape (escape l.field), unescape (escape l.value), l.phrase⟩) := by
  obtain ⟨hc, hr, hvalue, hphrase, hfield, hentity⟩ := member?_leafMembers l
  have hp : ((if l.phrase then some (⟨.bool true, rulesOfJson (.bool true)⟩ : Member) else none).any
      fun p => p.value.isTrue) = l.phrase := by
    cases l.phrase <;> rfl
  have hcolumn : unescape (escape columnSearch) = columnSearch :=
    unescape_escape_of_ordinary (by decide)
  have hkeys : ∀ k ∈ (annotate (leafMembers l)).map Prod.fst, unescape k = k := by
    rw [map_fst_annotate]
    exact List.forall_mem_map.mpr fun m hm => (plain_leafMembers l m hm).unescape_eq
  rw [ofJson, nodeOfMembers_leaf hkeys hc hr, hvalue, hphrase, hp, hfield, hentity]
  cases hf : l.hasField with
  | true => simp [textOf, ofText, text, hcolumn]
  | false =>
    have hempty : l.field = [] := by simpa [Leaf.hasField] using hf
    have hnil : unescape (escape []) = [] := rfl
    have hmark : columnSearch ≠ [] := by decide
    simp [textOf, ofText, text, hempty, hnil, hmark]

private theorem ofJson_leaf_iff (l : Leaf RawText) (path : Path) :
    ofJson (.object (leafMembers l)) path = .ok (.leaf l) ↔ l.Portable := by
  rw [ofJson_leaf, Leaf.portable_iff]
  constructor
  · intro h
    split at h
    · cases h
    · next hblank =>
      split at h
      · cases h
      · have he := Node.leaf.inj (Except.ok.inj h)
        have hfield : unescape (escape l.field) = l.field := congrArg Leaf.field he
        have hvalue : unescape (escape l.value) = l.value := congrArg Leaf.value he
        rw [hvalue, List.isEmpty_iff] at hblank
        exact ⟨hblank, hfield, hvalue⟩
  · rintro ⟨hblank, hfield, hvalue⟩
    rw [hfield, hvalue, if_neg (by simpa using hblank), if_neg]
    simp [Leaf.hasField]

/-! ### Rulesets of trees -/

private theorem ofJson_group (word : RawText) (rules : List Json) (path : Path) :
    ofJson (.object [(raw "condition", .ofText word), (raw "rules", .array rules)]) path =
      match Connective.parse? (conditionWord (unescape (escape word))) with
      | none => .error (.unknownCondition path (conditionWord (unescape (escape word))))
      | some c =>
        match rulesOfItems rules path 0 with
        | .error e => .error e
        | .ok [] => .error (.emptyRules path)
        | .ok (x :: xs) => .ok (.group (c.map .ofText) (x :: xs)) := by
  rfl

private theorem conditionWord_condition {c : Connective RawText}
    (h : c.isKnown = true) : conditionWord (condition c) = (c.map RawText.shown).keyword := by
  cases c with
  | other word => cases h
  | _ => rfl

private theorem parse?_conditionWord {c : Connective RawText}
    (h : c.isKnown = true) :
    Connective.parse? (conditionWord (unescape (escape (condition c)))) =
      some (c.map RawText.shown) := by
  rw [unescape_escape_of_ordinary (ordinary_condition h), conditionWord_condition h]
  cases c with
  | other word => cases h
  | _ => rfl

private theorem ofJson_group_iff {c : Connective RawText} {xs : List (Node RawText)}
    {rules : List Json} {path : Path} :
    ofJson (.object [(raw "condition", .ofText (condition c)), (raw "rules", .array rules)]) path =
        .ok (.group c xs) ↔
      c.isKnown = true ∧ xs ≠ [] ∧ rulesOfItems rules path 0 = .ok xs := by
  rw [ofJson_group]
  constructor
  · intro h
    split at h
    · cases h
    · next d hd =>
      split at h
      · cases h
      · cases h
      · next y ys hys =>
        obtain ⟨rfl, rfl⟩ := Node.group.inj (Except.ok.inj h)
        rw [Connective.isKnown_map]
        exact ⟨isKnown_of_parse? hd, List.cons_ne_nil y ys, hys⟩
  · rintro ⟨hc, hne, hrules⟩
    rw [parse?_conditionWord hc, hrules]
    cases xs with
    | nil => exact absurd rfl hne
    | cons x xs => simp only [map_map_of_isKnown hc]

private theorem toJson_group_eq_ok {c : Connective RawText} {xs : List (Node RawText)} {v : Json}
    (h : toJson (.group c xs) = .ok v) : ∃ rules, toJsonAll xs = .ok rules ∧
      v = .object [(raw "condition", .ofText (condition c)), (raw "rules", .array rules)] := by
  rw [toJson] at h
  obtain ⟨rules, hrules, hv⟩ := bind_eq_ok.mp h
  exact ⟨rules, hrules, (Except.ok.inj hv).symm⟩

private theorem toJsonAll_cons_eq_ok {x : Node RawText} {xs : List (Node RawText)} {vs : List Json}
    (h : toJsonAll (x :: xs) = .ok vs) :
    ∃ w ws, toJson x = .ok w ∧ toJsonAll xs = .ok ws ∧ vs = w :: ws := by
  rw [toJsonAll] at h
  obtain ⟨w, hw, h⟩ := bind_eq_ok.mp h
  obtain ⟨ws, hws, h⟩ := bind_eq_ok.mp h
  exact ⟨w, ws, hw, hws, (Except.ok.inj h).symm⟩

mutual

private theorem ofJson_toJson_iff : ∀ {n : Node RawText} {v : Json} (path : Path), toJson n = .ok v
    →
    (ofJson v path = .ok n ↔ n.Portable)
  | .leaf l, v, path, h => by
    obtain rfl := Except.ok.inj h
    exact ofJson_leaf_iff l path
  | .group c xs, v, path, h => by
    obtain ⟨rules, hrules, rfl⟩ := toJson_group_eq_ok h
    rw [ofJson_group_iff, rulesOfItems_toJsonAll_iff path 0 hrules, Node.Portable]
  | .gap k, v, path, h => by cases k <;> cases h

private theorem rulesOfItems_toJsonAll_iff : ∀ {xs : List (Node RawText)} {vs : List Json}
    (path : Path)
    (index : Nat), toJsonAll xs = .ok vs →
      (rulesOfItems vs path index = .ok xs ↔ Node.PortableAll xs)
  | [], vs, path, index, h => by
    obtain rfl := Except.ok.inj h
    simp [rulesOfItems, Node.PortableAll]
  | x :: xs, vs, path, index, h => by
    obtain ⟨w, ws, hw, hws, rfl⟩ := toJsonAll_cons_eq_ok h
    rw [Node.PortableAll, ← ofJson_toJson_iff (path ++ [index]) hw,
      ← rulesOfItems_toJsonAll_iff path (index + 1) hws, rulesOfItems]
    simp [bind_eq_ok]

end

private theorem sound_leafMembers (l : Leaf RawText) : ∀ m ∈ leafMembers l, m.2.Sound := by
  have hsound : ∀ t, (ofText t).Sound := fun t => .string _ (closed_escape t)
  have hphrase := Sound.bool true
  unfold leafMembers
  cases l.hasField <;> cases l.phrase <;> simp [hsound, hphrase]

mutual

private theorem sound_toJson : ∀ {n : Node RawText} {v : Json}, toJson n = .ok v → v.Sound
  | .leaf l, v, h => by
    obtain rfl := Except.ok.inj h
    exact .object _ (fun m hm => (plain_leafMembers l m hm).closed) (sound_leafMembers l)
  | .group c xs, v, h => by
    obtain ⟨rules, hrules, rfl⟩ := toJson_group_eq_ok h
    have hcondition : Plain (raw "condition") := by decide
    have hkey : Plain (raw "rules") := by decide
    apply Sound.object
    · rw [List.forall_mem_cons, List.forall_mem_singleton]
      exact ⟨hcondition.closed, hkey.closed⟩
    · rw [List.forall_mem_cons, List.forall_mem_singleton]
      exact ⟨.string _ (closed_escape _), .array _ (sound_toJsonAll hrules)⟩
  | .gap k, v, h => by cases k <;> cases h

private theorem sound_toJsonAll : ∀ {xs : List (Node RawText)} {vs : List Json}, toJsonAll xs = .ok
    vs →
    ∀ v ∈ vs, v.Sound
  | [], vs, h => by
    obtain rfl := Except.ok.inj h
    exact List.forall_mem_nil _
  | x :: xs, vs, h => by
    obtain ⟨w, ws, hw, hws, rfl⟩ := toJsonAll_cons_eq_ok h
    exact List.forall_mem_cons.mpr ⟨sound_toJson hw, sound_toJsonAll hws⟩

end

mutual

theorem exists_toJson : ∀ {n : Node RawText}, n.Proper → ∃ v, toJson n = .ok v
  | .leaf l, _ => ⟨_, rfl⟩
  | .group c xs, ⟨_, _, hxs⟩ => by
    obtain ⟨rules, hrules⟩ := exists_toJsonAll hxs
    exact ⟨_, bind_eq_ok.mpr ⟨rules, hrules, rfl⟩⟩

private theorem exists_toJsonAll : ∀ {xs : List (Node RawText)},
    Node.ProperAll xs → ∃ vs, toJsonAll xs = .ok vs
  | [], _ => ⟨[], rfl⟩
  | x :: xs, ⟨hx, hxs⟩ => by
    obtain ⟨v, hv⟩ := exists_toJson hx
    obtain ⟨vs, hvs⟩ := exists_toJsonAll hxs
    exact ⟨v :: vs, bind_eq_ok.mpr ⟨v, hv, bind_eq_ok.mpr ⟨vs, hvs, rfl⟩⟩⟩

end

private theorem marshal_eq (n : Node RawText) :
    marshal n = (toJson (rooted n)).map Json.write := by
  cases n <;> rfl

private theorem treeOfJson_rooted {n : Node RawText} {v : Json}
    (h : toJson (rooted n) = .ok v) : treeOfJson v = ofJson v [] := by
  cases n with
  | gap k => cases k <;> cases h
  | _ =>
    obtain ⟨rules, _, rfl⟩ := toJson_group_eq_ok h
    rfl

private theorem unmarshal_write_eq_ok_iff {n t : Node RawText} {v : Json}
    (h : toJson (rooted n) = .ok v) :
    unmarshal v.write = .ok t ↔ v.nesting ≤ maxDepth ∧ ofJson v [] = .ok t := by
  rw [← treeOfJson_rooted h, unmarshal]
  cases hr : Json.read v.write with
  | error e =>
    have hn : ¬v.nesting ≤ maxDepth := by
      intro hn
      rw [(Json.read_write_eq_ok_iff (sound_toJson h)).mpr ⟨hn, rfl⟩] at hr
      cases hr
    simp [hn]
  | ok w =>
    obtain ⟨hn, rfl⟩ := (Json.read_write_eq_ok_iff (sound_toJson h)).mp hr
    simp [hn]

/-- A tree comes back from its written ruleset, a bare leaf as a term, exactly if it is portable
and its ruleset is nested no deeper than what can be read. -/
theorem unmarshal_marshal_iff (n : Node RawText) :
    (∃ s, marshal n = .ok s ∧ unmarshal s = .ok (rooted n)) ↔
      (rooted n).Portable ∧ ∀ v, toJson (rooted n) = .ok v → v.nesting ≤ maxDepth := by
  rw [marshal_eq]
  constructor
  · rintro ⟨s, hs, hr⟩
    obtain ⟨v, hv, rfl⟩ := map_eq_ok.mp hs
    obtain ⟨hn, hof⟩ := (unmarshal_write_eq_ok_iff hv).mp hr
    refine ⟨(ofJson_toJson_iff [] hv).mp hof, ?_⟩
    intro w hw
    obtain rfl : v = w := Except.ok.inj (hv.symm.trans hw)
    exact hn
  · rintro ⟨hp, hn⟩
    obtain ⟨v, hv⟩ := exists_toJson hp.proper
    refine ⟨v.write, map_eq_ok.mpr ⟨v, hv, rfl⟩, ?_⟩
    exact (unmarshal_write_eq_ok_iff hv).mpr ⟨hn v hv, (ofJson_toJson_iff [] hv).mpr hp⟩

end

theorem unmarshal_marshal_escapes :
    ∃ n s, n = .group .or [.leaf ⟨raw "f\n", [.byte 0x7F, .char '\u007F'], true⟩,
        .group .andNot [.leaf ⟨[], raw "\"\\\u200B" ++ [.char (Char.ofNat 0x10000)], false⟩]] ∧
      s = raw "\x7b\"condition\":\"OR\",\"rules\":[\x7b\"entity\":\"columnsearch\"," ++
        (raw "\"field\":\"f\\n\",\"value\":\"" ++ ([.byte 0x7F, .char '\u007F'] ++
        (raw "\",\"phrase\":true\x7d,\x7b\"condition\":\"AND NOT\",\"rules\":[\x7b" ++
        (raw "\"value\":\"\\\"\\\\\\u200b" ++ [.char (Char.ofNat 0x10000)] ++
        raw "\"\x7d]\x7d]\x7d")))) ∧
      marshal n = .ok s ∧ unmarshal s = .ok n := by
  let n : Node RawText := .group .or [.leaf ⟨raw "f\n", [.byte 0x7F, .char '\u007F'], true⟩,
    .group .andNot [.leaf ⟨[], raw "\"\\\u200B" ++ [.char (Char.ofNat 0x10000)], false⟩]]
  have hfirst : Leaf.Portable ⟨raw "f\n", [.byte 0x7F, .char '\u007F'], true⟩ :=
    ⟨by decide, by decide +kernel, by decide +kernel⟩
  have hsecond : Leaf.Portable ⟨[], raw "\"\\\u200B" ++ [.char (Char.ofNat 0x10000)], false⟩ :=
    ⟨by decide, by decide +kernel, by decide +kernel⟩
  have hn : (rooted n).Portable :=
    ⟨rfl, List.cons_ne_nil _ _, hfirst, ⟨rfl, List.cons_ne_nil _ _, hsecond, trivial⟩, trivial⟩
  have hnesting : ∀ v, toJson (rooted n) = .ok v → v.nesting ≤ maxDepth := by
    intro v hv
    obtain rfl := Except.ok.inj hv
    decide +kernel
  obtain ⟨s, hs, hr⟩ := (unmarshal_marshal_iff n).mpr ⟨hn, hnesting⟩
  refine ⟨n, s, rfl, ?_, hs, hr⟩
  apply Except.ok.inj (ε := WriteError)
  rw [← hs]
  decide +kernel

/-- A stray byte does not survive beside a quote, and a character survives there as soon as the
edition in force shows it. -/
theorem unmarshal_marshal_stray_byte_later_edition :
    (∃ n : Node RawText, n = .group .and [.leaf ⟨[], [.char '"', .byte 0x7F], false⟩] ∧
      RawText.trim [.char '"', .byte 0x7F] ≠ [] ∧
      (∀ c, .char c ∈ [Piece.char '"', .byte 0x7F] → ¬ForeignChar c) ∧
      (∀ v, toJson n = .ok v → v.nesting ≤ maxDepth) ∧
      ¬∃ s, marshal n = .ok s ∧ unmarshal s = .ok n) ∧
    ∃ n : Node RawText,
      n = .group .and [.leaf ⟨[], [.char '"', .char (Char.ofNat 0x1E5D0)], false⟩] ∧
      @isPrintable .unicode15 (Char.ofNat 0x1E5D0) = false ∧
      ∃ s, marshal n = .ok s ∧ unmarshal s = .ok n := by
  constructor
  · let n : Node RawText := .group .and [.leaf ⟨[], [.char '"', .byte 0x7F], false⟩]
    let written := raw "\x7b\"condition\":\"AND\",\"rules\":[\x7b\"value\":\"\\\"\\xff\"\x7d]\x7d"
    have hwritten : marshal n = .ok written := by decide +kernel
    have hread : unmarshal written = .ok (.group .and [.leaf ⟨[], raw "\"\\xff", false⟩]) := by
      decide +kernel
    refine ⟨n, rfl, by decide, ?_, ?_, ?_⟩
    · intro c hc
      obtain rfl : c = '"' := by simpa using hc
      decide
    · intro v hv
      obtain rfl := Except.ok.inj hv
      decide +kernel
    · rintro ⟨s, hs, hr⟩
      obtain rfl : written = s := Except.ok.inj (hwritten.symm.trans hs)
      have hsame := Except.ok.inj (hread.symm.trans hr)
      exact absurd hsame (by decide)
  · let written := raw "\x7b\"condition\":\"AND\",\"rules\":[\x7b\"value\":\"\\\"" ++
      ([.char (Char.ofNat 0x1E5D0)] ++ raw "\"\x7d]\x7d")
    exact ⟨_, rfl, by decide +kernel, written, by decide +kernel, by decide +kernel⟩

end Ruleset

end BooleanSearch
