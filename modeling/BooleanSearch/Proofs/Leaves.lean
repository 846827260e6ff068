import BooleanSearch.Node.Printer
import BooleanSearch.Proofs.Outcomes
import BooleanSearch.Query.Leaf

/-!
# Reading leaves

A fragment is read as a leaf exactly if its quotes are closed, it shows no bracket outside them,
a colon outside them stands between a field and a value, and the value is not blank. With fields
preserved, the leaf is written as the fragment that it was read from.
-/

namespace BooleanSearch.Query

theorem readLeaf_eq_ok_iff {mode : FieldMode} {fragment : Text} {l : Leaf} :
    readLeaf mode fragment = .ok l ↔
      fragment.count '"' % 2 = 0 ∧ Segment.hasUnquoted '(' fragment = false ∧
        Segment.hasUnquoted ')' fragment = false ∧
        ∃ field value, splitField fragment = .ok (field, value) ∧
          l = leafOf mode field value ∧ l.value.trim ≠ [] := by
  rw [readLeaf]
  by_cases hq : fragment.count '"' % 2 = 0
  · cases ho : Segment.hasUnquoted '(' fragment with
    | true => simp [hq]
    | false =>
      cases hc : Segment.hasUnquoted ')' fragment with
      | true => simp [hq]
      | false =>
        simp only [hq, ne_eq, not_true_eq_false, if_false, Bool.or_self, Bool.false_eq_true,
          true_and]
        rw [bind_eq_ok]
        constructor
        · rintro ⟨⟨field, value⟩, hs, h⟩
          refine ⟨field, value, hs, ?_⟩
          simp only at h
          split_ifs at h with hb
          obtain rfl := Except.ok.inj h
          exact ⟨rfl, by simpa using hb⟩
        · rintro ⟨field, value, hs, rfl, hb⟩
          refine ⟨(field, value), hs, ?_⟩
          simp [hb]
  · simp [hq]

theorem breakFrom_eq_some {mark : Char} {quoted : Bool} {t a b : Text}
    (h : Segment.breakFrom mark quoted t = some (a, b)) : t = a ++ mark :: b := by
  induction t generalizing quoted a with
  | nil => simp [Segment.breakFrom] at h
  | cons c t ih =>
    have hstep {q : Bool} {f : Text × Text → Text × Text} (hf : ∀ p, f p = (c :: p.1, p.2))
        (h : (Segment.breakFrom mark q t).map f = some (a, b)) : c :: t = a ++ mark :: b := by
      obtain ⟨⟨a', b'⟩, hp, he⟩ := Option.map_eq_some_iff.mp h
      simp only [hf, Prod.mk.injEq] at he
      obtain ⟨rfl, rfl⟩ := he
      rw [ih hp]
      rfl
    rw [Segment.breakFrom] at h
    split_ifs at h with h1 h2
    · exact hstep (fun _ => rfl) h
    · simp only [Option.some.injEq, Prod.mk.injEq] at h
      simp only [Bool.and_eq_true, decide_eq_true_eq] at h2
      rw [← h.1, ← h.2, h2.2]
      rfl
    · exact hstep (fun _ => rfl) h

theorem splitField_eq_ok_iff {fragment field value : Text} :
    splitField fragment = .ok (field, value) ↔
      (Segment.breakUnquoted? ':' fragment = none ∧ field = [] ∧ value = fragment) ∨
        (Segment.breakUnquoted? ':' fragment = some (field, value) ∧ field ≠ [] ∧ value ≠ []) := by
  rw [splitField]
  cases hb : Segment.breakUnquoted? ':' fragment with
  | none => simp [eq_comm]
  | some p =>
    obtain ⟨a, b⟩ := p
    cases a with
    | nil =>
      simp only [reduceCtorEq, false_and, false_or, Option.some.injEq, Prod.mk.injEq, false_iff]
      rintro ⟨⟨rfl, _⟩, hne, _⟩
      exact hne rfl
    | cons c a =>
      cases b with
      | nil =>
        simp only [reduceCtorEq, false_and, false_or, Option.some.injEq, Prod.mk.injEq, false_iff]
        rintro ⟨⟨_, rfl⟩, _, hne⟩
        exact hne rfl
      | cons d b =>
        simp only [Except.ok.injEq, Prod.mk.injEq, reduceCtorEq, false_and, false_or,
          Option.some.injEq]
        constructor
        · rintro ⟨rfl, rfl⟩
          simp
        · intro h
          exact h.1

private theorem eq_of_splitField {fragment field value : Text}
    (h : splitField fragment = .ok (field, value)) :
    fragment = (if field.isEmpty then [] else field ++ [':']) ++ value := by
  rcases splitField_eq_ok_iff.mp h with ⟨_, rfl, rfl⟩ | ⟨hb, hne, _⟩
  · rfl
  · simp [breakFrom_eq_some hb, hne]

private theorem eq_of_unquote? {value inner : Text} (h : unquote? value = some inner) :
    value = '"' :: (inner ++ ['"']) := by
  cases value with
  | nil => simp [unquote?] at h
  | cons c cs =>
    rw [unquote?] at h
    split_ifs at h with hc
    obtain ⟨rfl, hlast⟩ := hc
    obtain rfl := Option.some.inj h
    have hcs := List.dropLast_append_getLast? '"' hlast
    rw [hcs]

theorem render_leafOf (mode : FieldMode) (field value : Text) :
    (leafOf mode field value).render =
      (if mode = .preserve ∧ field ≠ [] then field ++ [':'] else []) ++ value := by
  have hfield (kept inner : Text) (phrase : Bool) :
      (if (Leaf.mk kept inner phrase).hasField then kept ++ [':'] else []) =
        if kept ≠ [] then kept ++ [':'] else [] := by
    cases kept <;> rfl
  have hkept : (if (if mode = .preserve then field else []) ≠ [] then
      (if mode = .preserve then field else []) ++ [':'] else []) =
        if mode = .preserve ∧ field ≠ [] then field ++ [':'] else [] := by
    by_cases hmode : mode = .preserve <;> simp [hmode]
  simp only [leafOf]
  cases hu : unquote? value with
  | some inner => simp only [Leaf.render, hfield, hkept, if_true, eq_of_unquote? hu]
  | none => simp only [Leaf.render, hfield, hkept, Bool.false_eq_true, if_false]

/-- With fields preserved, a leaf is written as the fragment that it was read from. -/
theorem render_of_readLeaf {fragment : Text} {l : Leaf}
    (h : readLeaf .preserve fragment = .ok l) : l.render = fragment := by
  obtain ⟨_, _, _, field, value, hs, rfl, _⟩ := readLeaf_eq_ok_iff.mp h
  rw [render_leafOf, eq_of_splitField hs]
  cases field <;> simp

end BooleanSearch.Query
