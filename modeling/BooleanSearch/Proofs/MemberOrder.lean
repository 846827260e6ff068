import BooleanSearch.Proofs.EscapedText
import BooleanSearch.Proofs.MemberLookup
import BooleanSearch.Ruleset.Reader
import BooleanSearch.Text.Editions
import Mathlib.Data.List.Nodup
import Mathlib.Logic.Relation

/-!
# Members of no account

In which order the members of an object stand, which characters of their keys are written as
escapes, and what other members there are, makes no difference to a ruleset as long as no object has
a key twice. One change of this kind, anywhere in a value, keeps apart the keys that rulesets are
read by, and with them apart each lookup finds the same before and after it.
-/

namespace BooleanSearch

open Json

namespace Ruleset

def keys : List RawText :=
  [raw "condition", raw "rules", raw "value", raw "phrase", raw "field", raw "entity"]

/-- Tells that in every object of a value the keys are distinct once their escapes are undone. -/
inductive DistinctKeys : Json → Prop where
  | null : DistinctKeys .null
  | bool (b : Bool) : DistinctKeys (.bool b)
  | number (literal : RawText) : DistinctKeys (.number literal)
  | string (written : RawText) : DistinctKeys (.string written)
  | array (items : List Json) (h : ∀ v ∈ items, DistinctKeys v) : DistinctKeys (.array items)
  | object (members : List (RawText × Json)) (hkeys : (members.map fun m => unescape m.1).Nodup)
      (h : ∀ m ∈ members, DistinctKeys m.2) : DistinctKeys (.object members)

/-- One change to the members of some object in a value: they are put in another order, a key is
spelled with other escapes, or a member by whose key no ruleset is read comes or goes. -/
inductive Edit : Json → Json → Prop where
  | permute {ms ms' : List (RawText × Json)} (h : ms.Perm ms') : Edit (.object ms) (.object ms')
  | respell (before after : List (RawText × Json)) {key key' : RawText} {v : Json}
      (h : unescape key = unescape key') :
      Edit (.object (before ++ (key, v) :: after)) (.object (before ++ (key', v) :: after))
  | add (before after : List (RawText × Json)) {key : RawText} {v : Json}
      (h : unescape key ∉ keys) :
      Edit (.object (before ++ after)) (.object (before ++ (key, v) :: after))
  | remove (before after : List (RawText × Json)) {key : RawText} {v : Json}
      (h : unescape key ∉ keys) :
      Edit (.object (before ++ (key, v) :: after)) (.object (before ++ after))
  | inMember (before after : List (RawText × Json)) {key : RawText} {v w : Json} (h : Edit v w) :
      Edit (.object (before ++ (key, v) :: after)) (.object (before ++ (key, w) :: after))
  | inItem (before after : List Json) {v w : Json} (h : Edit v w) :
      Edit (.array (before ++ v :: after)) (.array (before ++ w :: after))

/-! ### Lookups that find the same -/

/-- Values that are read in the same way at every place of a ruleset. -/
structure Alike [CharacterData] (v w : Json) : Prop where
  text : v.text = w.text
  isTrue : v.isTrue = w.isTrue
  node : ofJson v = ofJson w
  rules : rulesOfJson v = rulesOfJson w
  tree : treeOfJson v = treeOfJson w

private theorem Alike.refl [CharacterData] (v : Json) : Alike v v := ⟨rfl, rfl, rfl, rfl, rfl⟩

private theorem Alike.trans [CharacterData] {u v w : Json} (h : Alike u v) (h' : Alike v w) : Alike
    u w :=
  ⟨h.text.trans h'.text, h.isTrue.trans h'.isTrue, h.node.trans h'.node, h.rules.trans h'.rules,
    h.tree.trans h'.tree⟩

structure Member.Alike (x y : Member) : Prop where
  text : x.value.text = y.value.text
  isTrue : x.value.isTrue = y.value.isTrue
  rules : x.rules = y.rules

/-- Members among which each key of a ruleset is found once at most, and in both or in neither with
values that are read in the same way. -/
def Matched (m m' : Members Member) : Prop :=
  ∃ es es', Members.Of es m ∧ Members.Of es' m' ∧ ∀ key ∈ keys,
    Once key es ∧ Once key es' ∧
      Option.Rel Member.Alike (memberAt? key es) (memberAt? key es')

private theorem plain_keys : ∀ key ∈ keys, Plain key := by
  decide

private theorem Matched.get {m m' : Members Member} (h : Matched m m') (key : String)
    (hkey : raw key ∈ keys) :
    Option.Rel Member.Alike (m.get (raw key)).1 (m'.get (raw key)).1 ∧
      Matched (m.get (raw key)).2 (m'.get (raw key)).2 := by
  obtain ⟨es, es', hm, hm', hall⟩ := h
  obtain ⟨honce, honce', hsame⟩ := hall _ hkey
  have hplain := (plain_keys _ hkey).unescape_eq
  obtain ⟨hfound, hstate⟩ := hm.get hplain honce
  obtain ⟨hfound', hstate'⟩ := hm'.get hplain honce'
  rw [hfound, hfound']
  exact ⟨hsame, es, es', hstate, hstate', hall⟩

section

variable {o o' : Option Member} (h : Option.Rel Member.Alike o o')

include h

private theorem isSome_eq : o.isSome = o'.isSome := by
  cases h <;> rfl

private theorem textOf_eq : textOf o = textOf o' := by
  cases h with
  | none => rfl
  | some h => exact h.text

private theorem any_isTrue_eq :
    (o.any fun p => p.value.isTrue) = o'.any fun p => p.value.isTrue := by
  cases h with
  | none => rfl
  | some h => exact h.isTrue

private theorem map_rules_eq : o.map Member.rules = o'.map Member.rules := by
  cases h with
  | none => rfl
  | some h => exact congrArg some h.rules

end

private theorem leafOfMembers_congr {m m' : Members Member} (h : Matched m m') (path : Path) :
    leafOfMembers m path = leafOfMembers m' path := by
  obtain ⟨hvalue, h⟩ := h.get "value" (by decide)
  obtain ⟨hphrase, h⟩ := h.get "phrase" (by decide)
  obtain ⟨hfield, h⟩ := h.get "field" (by decide)
  obtain ⟨hentity, _⟩ := h.get "entity" (by decide)
  rw [leafOfMembers, leafOfMembers]
  dsimp only
  rw [textOf_eq hvalue, any_isTrue_eq hphrase, textOf_eq hfield, textOf_eq hentity]

section

variable [CharacterData]

private theorem groupOfMembers_eq (m : Members Member) (path : Path) :
    groupOfMembers m path =
      match Connective.parse? (conditionWord (textOf (m.get (raw "condition")).1)),
        ((m.get (raw "condition")).2.get (raw "rules")).1.map Member.rules with
      | none, _ =>
        .error (.unknownCondition path (conditionWord (textOf (m.get (raw "condition")).1)))
      | some _, none => .error (.noRules path)
      | some c, some rules =>
        match rules path with
        | .error e => .error e
        | .ok [] => .error (.emptyRules path)
        | .ok (x :: xs) => .ok (.group (c.map .ofText) (x :: xs)) := by
  rw [groupOfMembers]
  dsimp only
  cases Connective.parse? (conditionWord (textOf (m.get (raw "condition")).1)) with
  | none => rfl
  | some c => cases ((m.get (raw "condition")).2.get (raw "rules")).1 <;> rfl

private theorem groupOfMembers_congr {m m' : Members Member} (h : Matched m m') (path : Path) :
    groupOfMembers m path = groupOfMembers m' path := by
  obtain ⟨hcondition, h⟩ := h.get "condition" (by decide)
  obtain ⟨hrules, _⟩ := h.get "rules" (by decide)
  rw [groupOfMembers_eq, groupOfMembers_eq, textOf_eq hcondition, map_rules_eq hrules]

private theorem nodeOfMembers_congr {m m' : Members Member} (h : Matched m m') (path : Path) :
    nodeOfMembers m path = nodeOfMembers m' path := by
  obtain ⟨hcondition, h⟩ := h.get "condition" (by decide)
  have hgroup := groupOfMembers_congr h path
  obtain ⟨hrules, h⟩ := h.get "rules" (by decide)
  rw [nodeOfMembers, nodeOfMembers]
  dsimp only
  rw [isSome_eq hcondition, isSome_eq hrules, hgroup, groupOfMembers_congr h,
    leafOfMembers_congr h]

private theorem annotate_eq_map (ms : List (RawText × Json)) :
    annotate ms = ms.map fun m => (m.1, ⟨m.2, rulesOfJson m.2⟩) := by
  induction ms with
  | nil => rfl
  | cons m ms ih => rw [annotate, ih, List.map_cons]

private theorem memberAt?_annotate (key : RawText) (ms : List (RawText × Json)) :
    memberAt? key (annotate ms) = (memberAt? key ms).map fun v => ⟨v, rulesOfJson v⟩ := by
  rw [annotate_eq_map, memberAt?, memberAt?, List.find?_map, Option.map_map, Option.map_map]
  rfl

private theorem once_annotate {key : RawText} {ms : List (RawText × Json)} (h : Once key ms) :
    Once key (annotate ms) := by
  rw [annotate_eq_map, Once, List.countP_map]
  exact h

private theorem rel_member {o o' : Option Json} (h : Option.Rel Alike o o') :
    Option.Rel Member.Alike (o.map fun v => ⟨v, rulesOfJson v⟩)
      (o'.map fun v => ⟨v, rulesOfJson v⟩) := by
  cases h with
  | none => exact .none
  | some h => exact .some ⟨h.text, h.isTrue, h.rules⟩

private theorem alike_object {ms ms' : List (RawText × Json)}
    (h : ∀ key ∈ keys, Once key ms ∧ Once key ms' ∧
      Option.Rel Alike (memberAt? key ms) (memberAt? key ms')) :
    Alike (.object ms) (.object ms') := by
  have hmatched : Matched ⟨annotate ms, false⟩ ⟨annotate ms', false⟩ := by
    refine ⟨annotate ms, annotate ms', .written, .written, ?_⟩
    intro key hkey
    obtain ⟨honce, honce', hrel⟩ := h key hkey
    refine ⟨once_annotate honce, once_annotate honce', ?_⟩
    rw [memberAt?_annotate, memberAt?_annotate]
    exact rel_member hrel
  refine ⟨rfl, rfl, ?_, rfl, ?_⟩
  · exact funext fun path => nodeOfMembers_congr hmatched path
  · obtain ⟨hcondition, hrest⟩ := hmatched.get "condition" (by decide)
    rw [treeOfJson, treeOfJson]
    dsimp only
    rw [isSome_eq hcondition, nodeOfMembers_congr hrest]

private theorem rulesOfItems_congr {before after : List Json} {v w : Json}
    (h : ofJson v = ofJson w) (path : Path) (index : Nat) :
    rulesOfItems (before ++ v :: after) path index =
      rulesOfItems (before ++ w :: after) path index := by
  induction before generalizing index with
  | nil => rw [List.nil_append, List.nil_append, rulesOfItems, rulesOfItems, h]
  | cons u before ih =>
    rw [List.cons_append, List.cons_append, rulesOfItems, rulesOfItems, ih]

private theorem alike_array {before after : List Json} {v w : Json} (h : Alike v w) :
    Alike (.array (before ++ v :: after)) (.array (before ++ w :: after)) :=
  ⟨rfl, rfl, rfl, funext fun path => rulesOfItems_congr h.node path 0, rfl⟩

end

/-! ### Keys in a changed object -/

private theorem memberAt?_append (key : RawText) (ms ms' : List (RawText × Json)) :
    memberAt? key (ms ++ ms') = (memberAt? key ms).or (memberAt? key ms') := by
  rw [memberAt?, List.find?_append, Option.map_or]
  rfl

private theorem memberAt?_cons (key : RawText) (m : RawText × Json) (ms : List (RawText × Json)) :
    memberAt? key (m :: ms) = if unescape m.1 = key then some m.2 else memberAt? key ms := by
  rw [memberAt?, List.find?_cons]
  by_cases h : unescape m.1 = key
  · simp [h]
  · have hfalse : (unescape m.1 == key) = false := by simpa using h
    rw [hfalse, if_neg h]
    rfl

private theorem rel_refl [CharacterData] (o : Option Json) : Option.Rel Alike o o := by
  cases o with
  | none => exact .none
  | some v => exact .some (Alike.refl v)

private theorem rel_or [CharacterData] {o o' : Option Json} (h : Option.Rel Alike o o')
    (before after : Option Json) :
    Option.Rel Alike (before.or (o.or after)) (before.or (o'.or after)) := by
  cases before with
  | some v => exact rel_refl _
  | none =>
    cases h with
    | none => exact rel_refl _
    | some h => exact .some h

/-! ### Changes -/

/-- Tells that in each object that is read the keys of rulesets are found once at most. -/
inductive Settled : Json → Prop where
  | null : Settled .null
  | bool (b : Bool) : Settled (.bool b)
  | number (literal : RawText) : Settled (.number literal)
  | string (written : RawText) : Settled (.string written)
  | array (items : List Json) (h : ∀ v ∈ items, Settled v) : Settled (.array items)
  | object (ms : List (RawText × Json)) (honce : ∀ key ∈ keys, Once key ms)
      (h : ∀ m ∈ ms, unescape m.1 ∈ keys → Settled m.2) : Settled (.object ms)

theorem DistinctKeys.settled {v : Json} (h : DistinctKeys v) : Settled v := by
  induction h with
  | null => exact .null
  | bool b => exact .bool b
  | number literal => exact .number literal
  | string written => exact .string written
  | array items _ ih => exact .array items ih
  | object ms hkeys _ ih =>
    refine .object ms (fun key _ => ?_) fun m hm _ => ih m hm
    have hcount := List.nodup_iff_count_le_one.mp hkeys key
    rwa [List.count, List.countP_map] at hcount

private theorem settled_object [CharacterData] {ms ms' : List (RawText × Json)}
    (hms : Settled (.object ms))
    (honce : ∀ key ∈ keys, Once key ms → Once key ms')
    (hrel : ∀ key ∈ keys, Once key ms → Option.Rel Alike (memberAt? key ms) (memberAt? key ms'))
    (hvalues : ∀ m ∈ ms', unescape m.1 ∈ keys → Settled m.2) :
    Settled (.object ms') ∧ Alike (.object ms) (.object ms') := by
  cases hms with
  | object _ h _ =>
    refine ⟨.object ms' (fun key hkey => honce key hkey (h key hkey)) hvalues, ?_⟩
    apply alike_object
    intro key hkey
    exact ⟨h key hkey, honce key hkey (h key hkey), hrel key hkey (h key hkey)⟩

private theorem Settled.values {ms : List (RawText × Json)} (h : Settled (.object ms)) :
    ∀ m ∈ ms, unescape m.1 ∈ keys → Settled m.2 := by
  cases h with
  | object _ _ h => exact h

private theorem Settled.items {items : List Json} (h : Settled (.array items)) :
    ∀ v ∈ items, Settled v := by
  cases h with
  | array _ h => exact h

section

variable [CharacterData]

/-- Members that can be put in the place of others in an object: the keys of rulesets are not found
more often among them, and they are found at values that are read alike. -/
private structure Replaces (ys xs : List (RawText × Json)) : Prop where
  count : ∀ key ∈ keys, (ys.countP fun m => unescape m.1 == key) ≤
    xs.countP fun m => unescape m.1 == key
  found : ∀ key ∈ keys, Option.Rel Alike (memberAt? key xs) (memberAt? key ys)
  values : ∀ m ∈ ys, unescape m.1 ∈ keys → Settled m.2

private theorem Replaces.object {xs ys before after : List (RawText × Json)} (h : Replaces ys xs)
    (hms : Settled (.object (before ++ (xs ++ after)))) :
    Settled (.object (before ++ (ys ++ after))) ∧
      Alike (.object (before ++ (xs ++ after))) (.object (before ++ (ys ++ after))) := by
  apply settled_object hms
  · intro key hkey honce
    have hcount := h.count key hkey
    rw [Once, List.countP_append, List.countP_append] at honce ⊢
    omega
  · intro key hkey _
    rw [memberAt?_append, memberAt?_append, memberAt?_append, memberAt?_append]
    exact rel_or (h.found key hkey) _ _
  · have hvalues := hms.values
    rw [List.forall_mem_append, List.forall_mem_append] at hvalues ⊢
    exact ⟨hvalues.1, h.values, hvalues.2.2⟩

/-- A single change keeps the keys of rulesets apart and does not show in what is read. -/
theorem Edit.alike {v w : Json} (h : Edit v w) (hv : Settled v) : Settled w ∧ Alike v w := by
  induction h with
  | permute h =>
    apply settled_object hv
    · intro key _ honce
      rwa [Once, ← h.countP_eq]
    · intro key _ honce
      rw [memberAt?_perm h honce]
      exact rel_refl _
    · exact fun m hm => hv.values m (h.mem_iff.mpr hm)
  | @respell before after key key' u h =>
    have hu : unescape key ∈ keys → Settled u := hv.values (key, u) (by simp)
    have hreplaces : Replaces [(key', u)] [(key, u)] := by
      constructor
      · intro k _
        simp [h]
      · intro k _
        rw [memberAt?_cons, memberAt?_cons, h]
        exact rel_refl _
      · rw [List.forall_mem_singleton, ← h]
        exact hu
    exact hreplaces.object hv
  | @add before after key u h =>
    have hreplaces : Replaces [(key, u)] [] := by
      constructor
      · intro k hk
        simp [(ne_of_mem_of_not_mem hk h).symm]
      · intro k hk
        rw [memberAt?_cons, if_neg (ne_of_mem_of_not_mem hk h).symm]
        exact rel_refl _
      · rw [List.forall_mem_singleton]
        exact fun hkey => absurd hkey h
    exact hreplaces.object hv
  | @remove before after key u h =>
    have hreplaces : Replaces [] [(key, u)] := by
      constructor
      · intro k _
        exact Nat.zero_le _
      · intro k hk
        rw [memberAt?_cons, if_neg (ne_of_mem_of_not_mem hk h).symm]
        exact rel_refl _
      · exact List.forall_mem_nil _
    exact hreplaces.object hv
  | @inMember before after key u w _ ih =>
    -- the value of a member by whose key no ruleset is read may be anything
    have hread (hkey : unescape key ∈ keys) : Settled w ∧ Alike u w :=
      ih (hv.values (key, u) (by simp) hkey)
    have hreplaces : Replaces [(key, w)] [(key, u)] := by
      constructor
      · intro k _
        exact Nat.le_refl _
      · intro k hk
        rw [memberAt?_cons, memberAt?_cons]
        by_cases he : unescape key = k
        · rw [if_pos he, if_pos he]
          exact .some (hread (he ▸ hk)).2
        · rw [if_neg he, if_neg he]
          exact rel_refl _
      · rw [List.forall_mem_singleton]
        exact fun hkey => (hread hkey).1
    exact hreplaces.object hv
  | @inItem before after u w _ ih =>
    have hitems := hv.items
    rw [List.forall_mem_append, List.forall_mem_cons] at hitems
    obtain ⟨hw, halike⟩ := ih hitems.2.1
    refine ⟨.array _ ?_, alike_array halike⟩
    rw [List.forall_mem_append, List.forall_mem_cons]
    exact ⟨hitems.1, hw, hitems.2.2⟩

private theorem alike_of_edits {v w : Json} (h : Relation.ReflTransGen Edit v w) (hv : Settled v) :
    Settled w ∧ Alike v w := by
  induction h with
  | refl => exact ⟨hv, Alike.refl v⟩
  | tail _ hedit ih =>
    obtain ⟨hu, halike⟩ := ih
    obtain ⟨hw, hlast⟩ := hedit.alike hu
    exact ⟨hw, halike.trans hlast⟩

/-- If no object in a value has a key twice, whatever their escapes, then the value is read as the
same node, or refused for the same reason, after any changes to the order of members, to the
spelling of their keys and to the members by whose keys no ruleset is read. -/
theorem ofJson_of_edits {v w : Json} (hv : DistinctKeys v) (h : Relation.ReflTransGen Edit v w) :
    (∀ path, ofJson v path = ofJson w path) ∧ treeOfJson v = treeOfJson w := by
  obtain ⟨_, halike⟩ := alike_of_edits h hv.settled
  exact ⟨fun path => congrFun halike.node path, halike.tree⟩

end

theorem ofJson_of_edits_escaped_condition :
    ∃ v w, v = Json.object [(raw "cond\\u0069tion", .string (raw "or")),
        (raw "rules", .array [.object [(raw "value", .string (raw "a")),
          (raw "id", .number (raw "1"))]])] ∧
      w = Json.object [(raw "rules", .array [.object [(raw "value", .string (raw "a"))]]),
        (raw "condition", .string (raw "or"))] ∧
      DistinctKeys v ∧ Relation.ReflTransGen Edit v w ∧ treeOfJson v = treeOfJson w := by
  let condition (key : String) : RawText × Json := (raw key, .string (raw "or"))
  let rules (members : List (RawText × Json)) : RawText × Json :=
    (raw "rules", .array [.object members])
  let value : RawText × Json := (raw "value", .string (raw "a"))
  let id : RawText × Json := (raw "id", .number (raw "1"))
  have hrule : DistinctKeys (.object [value, id]) := by
    refine .object _ (by decide +kernel) ?_
    rw [List.forall_mem_cons, List.forall_mem_singleton]
    exact ⟨.string _, .number _⟩
  have hv : DistinctKeys (.object [condition "cond\\u0069tion", rules [value, id]]) := by
    refine .object _ (by decide +kernel) ?_
    rw [List.forall_mem_cons, List.forall_mem_singleton]
    exact ⟨.string _, .array _ (List.forall_mem_singleton.mpr hrule)⟩
  have hrespell : Edit (.object [condition "cond\\u0069tion", rules [value, id]])
      (.object [condition "condition", rules [value, id]]) :=
    .respell [] _ (by decide +kernel)
  have hremove : Edit (.object [condition "condition", rules [value, id]])
      (.object [condition "condition", rules [value]]) :=
    .inMember [condition "condition"] [] (.inItem [] [] (.remove [value] [] (by decide +kernel)))
  have hpermute : Edit (.object [condition "condition", rules [value]])
      (.object [rules [value], condition "condition"]) :=
    .permute (List.Perm.swap _ _ _)
  have hedits := ((Relation.ReflTransGen.single hrespell).tail hremove).tail hpermute
  exact ⟨_, _, rfl, rfl, hv, hedits, (ofJson_of_edits hv hedits).2⟩

end Ruleset

end BooleanSearch
