import BooleanSearch.Proofs.Acceptance

/-!
# Kinds of failure

A query passes through checks in a fixed order: brackets, reserved characters, keywords at its ends,
and then grouping. The first two kinds of failure below belong to one check each, and grouping fails
in neither of them, so each of these kinds tells exactly what is wrong with the query as written.
-/

namespace BooleanSearch

namespace Query

/-- Tells that a keyword leads or trails. -/
def HasOuterKeyword (items : List Item) : Prop :=
  ∃ k, items.head? = some (.keyword k) ∨ items.getLast? = some (.keyword k)

private theorem not_balanced_iff {t : Text} :
    ¬Balanced t ↔ (∃ p, p <+: t ∧ p.count '(' < p.count ')') ∨ t.count '(' ≠ t.count ')' := by
  constructor
  · intro h
    by_contra hnone
    obtain ⟨hbound, htotal⟩ := not_or.mp hnone
    apply h
    refine ⟨not_not.mp htotal, fun p hp => ?_⟩
    by_contra hlt
    exact hbound ⟨p, hp, by omega⟩
  · rintro (⟨p, hp, hlt⟩ | htotal) hb
    · have hle := hb.bound p hp
      omega
    · exact htotal hb.total

/-! ### Checks before grouping -/

private theorem kind_of_requireBalanceFrom {offset depth : Nat} {t : Text} {e : QueryError}
    (h : requireBalanceFrom offset depth t = .error e) : e.kind = .unbalancedBrackets := by
  induction t generalizing offset depth with
  | nil =>
    rw [requireBalanceFrom] at h
    split_ifs at h
    cases h
    rfl
  | cons c t ih =>
    simp only [requireBalanceFrom] at h
    split_ifs at h with ho hc
    · exact ih h
    · cases depth with
      | zero =>
        cases h
        rfl
      | succ depth => exact ih h
    · exact ih h

private theorem refuseOuterKeywords_of_not {items : List Item} (h : ¬HasOuterKeyword items) :
    refuseOuterKeywords items = .ok () := by
  rw [refuseOuterKeywords]
  split
  · next k hhead => exact absurd ⟨k, Or.inl hhead⟩ h
  · next k hlast _ => exact absurd ⟨k, Or.inr hlast⟩ h
  · rfl

private theorem refuseOuterKeywords_of_outer {items : List Item} (h : HasOuterKeyword items) :
    ∃ e, refuseOuterKeywords items = .error e ∧ e.kind = .malformedOperatorPlacement := by
  obtain ⟨k, hk⟩ := h
  rw [refuseOuterKeywords]
  split
  · exact ⟨_, rfl, rfl⟩
  · exact ⟨_, rfl, rfl⟩
  · next hhead hlast =>
    rcases hk with hk | hk
    · exact absurd hk (hhead k)
    · exact absurd hk (hlast k)

/-! ### Grouping -/

private theorem kind_of_splitField {fragment : Text} {e : QueryError}
    (h : splitField fragment = .error e) : e.kind = .generic := by
  rw [splitField] at h
  split at h
  · cases h
  · cases h
    rfl
  · cases h
    rfl
  · cases h

private theorem kind_of_readLeaf {mode : FieldMode} {fragment : Text} {e : QueryError}
    (h : readLeaf mode fragment = .error e) : e.kind = .generic := by
  rw [readLeaf] at h
  split_ifs at h
  · cases h
    rfl
  · cases h
    rfl
  · rcases bind_eq_error.mp h with h | ⟨⟨field, value⟩, _, h⟩
    · exact kind_of_splitField h
    · dsimp only at h
      split_ifs at h
      cases h
      rfl

private theorem kind_of_nodeBy {rules : Rules} {inner : Option (Text → Except QueryError Node)}
    {t : Text} {e : QueryError} (h : nodeBy rules inner t = .error e) :
    e.kind = .generic ∨ e.kind = .nestingTooDeep ∨ ∃ f s, inner = some f ∧ f s = .error e := by
  simp only [nodeBy] at h
  split_ifs at h
  · cases h
    exact Or.inl rfl
  · split at h
    · exact Or.inl (kind_of_readLeaf (map_eq_error.mp h))
    · cases h
      exact Or.inr (Or.inl rfl)
    · next c segments f _ =>
      obtain ⟨s, _, hs⟩ := exists_of_mapM_error (map_eq_error.mp h)
      exact Or.inr (Or.inr ⟨f, s, rfl, hs⟩)

private theorem kind_of_nodeOf {rules : Rules} {levels : Nat} {t : Text} {e : QueryError}
    (h : nodeOf rules levels t = .error e) : e.kind = .generic ∨ e.kind = .nestingTooDeep := by
  induction levels generalizing t with
  | zero =>
    rcases kind_of_nodeBy h with h | h | ⟨f, s, hf, _⟩
    · exact Or.inl h
    · exact Or.inr h
    · cases hf
  | succ levels ih =>
    rcases kind_of_nodeBy h with h | h | ⟨f, s, hf, hs⟩
    · exact Or.inl h
    · exact Or.inr h
    · cases hf
      exact ih hs

/-! ### Parsing -/

section

variable {settings : Settings} {query : Text}

private theorem parse_of_normalize_error {e : QueryError}
    (h : normalize settings.implicit query = .error e) : parse settings query = .error e :=
  bind_eq_error.mpr (Or.inl (bind_eq_error.mpr (Or.inl h)))

private theorem parse_of_not_balanced (hb : ¬Balanced query) :
    ∃ e, parse settings query = .error e ∧ e.kind = .unbalancedBrackets := by
  cases hr : requireBalance query with
  | ok u => exact absurd (requireBalance_eq_ok_iff.mp hr) hb
  | error e =>
    refine ⟨e, parse_of_normalize_error ?_, kind_of_requireBalanceFrom hr⟩
    exact bind_eq_error.mpr (Or.inl hr)

private theorem parse_of_reserved (hb : Balanced query) (hr : hasReserved query = true) :
    parse settings query = .error .reservedCharacter := by
  apply parse_of_normalize_error
  refine bind_eq_error.mpr (Or.inr ⟨(), requireBalance_eq_ok_iff.mpr hb, ?_⟩)
  rw [hasReserved_trim, if_pos hr]

private theorem parse_of_outer (hb : Balanced query) (hr : hasReserved query = false)
    (ho : HasOuterKeyword (Item.ofText query.trim)) :
    ∃ e, parse settings query = .error e ∧ e.kind = .malformedOperatorPlacement := by
  obtain ⟨e, he, hkind⟩ := refuseOuterKeywords_of_outer ho
  refine ⟨e, parse_of_normalize_error ?_, hkind⟩
  refine bind_eq_error.mpr (Or.inr ⟨(), requireBalance_eq_ok_iff.mpr hb, ?_⟩)
  rw [hasReserved_trim, if_neg (by simp [hr])]
  exact bind_eq_error.mpr (Or.inl he)

private theorem kind_of_parse (hb : Balanced query) (hr : hasReserved query = false)
    (ho : ¬HasOuterKeyword (Item.ofText query.trim)) {e : QueryError}
    (h : parse settings query = .error e) : e.kind = .generic ∨ e.kind = .nestingTooDeep := by
  have hs : normalize settings.implicit query =
      .ok (Item.render (itemsOf settings.implicit query)) :=
    normalize_eq_ok_iff.mpr
      ⟨requireBalance_eq_ok_iff.mpr hb, hr, refuseOuterKeywords_of_not ho, rfl⟩
  rcases bind_eq_error.mp h with h | ⟨s, _, h⟩
  · rcases bind_eq_error.mp h with h | ⟨s, _, h⟩
    · rw [hs] at h
      cases h
    · split_ifs at h
      cases h
      exact Or.inl rfl
  · rcases bind_eq_error.mp h with h | ⟨root, _, h⟩
    · exact kind_of_nodeOf h
    · cases h

/-- What the checks find decides the kind of failure, each check hiding those after it. -/
theorem parse_cases (settings : Settings) (query : Text) :
    (¬Balanced query ∧
        ∃ e, parse settings query = .error e ∧ e.kind = .unbalancedBrackets) ∨
      (Balanced query ∧ hasReserved query = true ∧
        parse settings query = .error .reservedCharacter) ∨
      (Balanced query ∧ hasReserved query = false ∧ HasOuterKeyword (Item.ofText query.trim) ∧
        ∃ e, parse settings query = .error e ∧ e.kind = .malformedOperatorPlacement) ∨
      (Balanced query ∧ hasReserved query = false ∧ ¬HasOuterKeyword (Item.ofText query.trim) ∧
        ∀ e, parse settings query = .error e → e.kind = .generic ∨ e.kind = .nestingTooDeep) := by
  by_cases hb : Balanced query
  · cases hr : hasReserved query with
    | true => exact Or.inr (Or.inl ⟨hb, rfl, parse_of_reserved hb hr⟩)
    | false =>
      by_cases ho : HasOuterKeyword (Item.ofText query.trim)
      · exact Or.inr (Or.inr (Or.inl ⟨hb, rfl, ho, parse_of_outer hb hr ho⟩))
      · exact Or.inr (Or.inr (Or.inr ⟨hb, rfl, ho, fun e => kind_of_parse hb hr ho⟩))
  · exact Or.inl ⟨hb, parse_of_not_balanced hb⟩

end

end Query

namespace Configuration

open Query

/-- The kind of a failure tells what is wrong. Brackets that do not match, quoted ones counted, are
reported whatever else is wrong, and a keyword at either end unless brackets or reserved characters
come first. A query that is parsed or too deep has none of these faults, and every failure of
another kind is a generic one. -/
theorem failure_kinds_of_parse (c : Configuration) (query : Text) :
    ((∃ e, c.parse query = .error e ∧ e.kind = .unbalancedBrackets) ↔
        (∃ p, p <+: query ∧ p.count '(' < p.count ')') ∨ query.count '(' ≠ query.count ')') ∧
      ((∃ e, c.parse query = .error e ∧ e.kind = .malformedOperatorPlacement) ↔
        Balanced query ∧ (∀ x ∈ query, x ∉ Connective.symbols) ∧
          HasOuterKeyword (Item.ofText query.trim)) ∧
      ((∃ t, c.parse query = .ok t) ∨ (∃ e, c.parse query = .error e ∧ e.kind = .nestingTooDeep) →
        Balanced query ∧ (∀ x ∈ query, x ∉ Connective.symbols) ∧
          ¬HasOuterKeyword (Item.ofText query.trim)) ∧
      ∀ e, c.parse query = .error e → e.kind ≠ .unbalancedBrackets →
        e.kind ≠ .malformedOperatorPlacement → e.kind ≠ .nestingTooDeep → e.kind = .generic := by
  rw [← not_balanced_iff, ← hasReserved_eq_false_iff]
  simp only [Configuration.parse]
  rcases parse_cases c.settings query with
    ⟨hb, e, he, hk⟩ | ⟨hb, hr, he⟩ | ⟨hb, hr, ho, e, he, hk⟩ | ⟨hb, hr, ho, hk⟩
  · simp [he, hk, hb]
  · simp [he, hb, hr, QueryError.kind]
  · simp [he, hk, hb, hr, ho]
  · have hkind {k : FailureKind} (hgeneric : k ≠ .generic) (hdeep : k ≠ .nestingTooDeep) :
        ¬∃ e, Query.parse c.settings query = .error e ∧ e.kind = k := by
      rintro ⟨e, he, rfl⟩
      exact (hk e he).elim hgeneric hdeep
    refine ⟨?_, ?_, ?_, ?_⟩
    · exact iff_of_false (hkind (by decide) (by decide)) (not_not.mpr hb)
    · exact iff_of_false (hkind (by decide) (by decide)) fun h => ho h.2.2
    · intro _
      exact ⟨hb, hr, ho⟩
    · intro e he _ _ hdeep
      exact (hk e he).resolve_right hdeep

end Configuration

end BooleanSearch
