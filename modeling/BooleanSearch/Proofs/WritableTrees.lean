import BooleanSearch.Proofs.Reparse

/-!
# Trees that queries can express

A tree need not come from a query to be read back from its canonical text. It is enough that each
leaf is written as one word that is read as that leaf, that groups have the shape which grouping
makes, and that no leaf is taken for a keyword. Canonical text tells such trees apart.
-/

namespace BooleanSearch

open Text Query

/-- Tells that a leaf is written as one word of a query, from which it is read back: its brackets
and blanks stand inside quotes, the latter as single spaces. -/
structure Leaf.Writable (l : Leaf) : Prop where
  nonempty : l.render ≠ []
  even : l.render.count '"' % 2 = 0
  quoted : ∀ i : Fin l.render.length,
    l.render.get i = '(' ∨ l.render.get i = ')' ∨ Blank (l.render.get i) →
      (l.render.take i).count '"' % 2 = 1
  squeezed : Squeezed l.render
  clean : ∀ c ∈ l.render, c ∉ Connective.symbols
  trimmed : l.render.trim = l.render
  read : readLeaf .preserve l.render = .ok l

namespace Node

mutual

def Branching : Node → Prop
  | leaf _ => True
  | gap _ => False
  | group c xs => c.isKnown = true ∧ 2 ≤ xs.length ∧ BranchingAll xs

def BranchingAll : List Node → Prop
  | [] => True
  | x :: xs => Branching x ∧ BranchingAll xs

end

theorem branchingAll_iff {xs : List Node} : BranchingAll xs ↔ ∀ x ∈ xs, Branching x := by
  induction xs with
  | nil => simp [BranchingAll]
  | cons x xs ih => rw [BranchingAll, ih, List.forall_mem_cons]

/-- Tells that a tree with at most `limit` group levels can be written as a query. -/
structure Writable [CharacterData] (limit : Int) (t : Node) : Prop where
  shape : (∃ l, t = term l) ∨ ∃ c xs, t = group c xs ∧ t.Branching
  levels : (t.depth : Int) ≤ limit
  leaves : ∀ l ∈ t.leaves, l.Writable
  keywords : ∀ l ∈ t.leaves, l.render ≠ "AND".toList ∧ l.render ≠ "OR".toList
  nots : t.notsLead = true
  balanced : Balanced t.render

end Node

private theorem outside_of_quoted {quoted : Bool} {t : Text}
    (heven : (quoted.toNat + t.count '"') % 2 = 0)
    (h : ∀ i : Fin t.length, t.get i = '(' ∨ t.get i = ')' ∨ Blank (t.get i) →
      (quoted.toNat + (t.take i).count '"') % 2 = 1) : Outside WordChar quoted t := by
  induction t generalizing quoted with
  | nil =>
    cases quoted with
    | false => rfl
    | true => simp at heven
  | cons c t ih =>
    by_cases hq : c = '"'
    · subst hq
      apply outside_quote.mpr
      apply ih
      · rwa [← Lexeme.parity_cons_quote]
      · intro i hi
        have hp := h i.succ hi
        rwa [Fin.val_succ, List.take_succ_cons, Lexeme.parity_cons_quote] at hp
    · rw [List.count_cons_of_ne hq] at heven
      have hrest : Outside WordChar quoted t := by
        apply ih heven
        intro i hi
        have hp := h i.succ hi
        rwa [Fin.val_succ, List.take_succ_cons, List.count_cons_of_ne hq] at hp
      cases quoted with
      | true => exact (outside_cons_quoted hq).mpr hrest
      | false =>
        have hc : ¬(c = '(' ∨ c = ')' ∨ Blank c) := by
          intro hc
          have hp := h ⟨0, by simp⟩ hc
          simp at hp
        refine (outside_cons_unquoted hq).mpr ⟨⟨?_, ?_, ?_⟩, hrest⟩
        · simpa using fun hb => hc (Or.inr (Or.inr (isBlank_iff.mp hb)))
        · exact fun ho => hc (Or.inl ho)
        · exact fun hcl => hc (Or.inr (Or.inl hcl))

private theorem Leaf.Writable.canonical {l : Leaf} (h : l.Writable) : l.Canonical where
  read := h.read
  trimmed := h.trimmed
  word := by
    apply outside_of_quoted
    · simpa using h.even
    · simpa using h.quoted
  squeezed := h.squeezed.squeeze_eq
  clean := h.clean

namespace Node

mutual

private theorem formed_of_branching : ∀ n : Node, n.Branching → (∀ l ∈ n.leaves, l.Writable) →
    n.Formed 1
  | leaf l, _, hl => (hl l (by simp)).canonical
  | group c xs, ⟨hc, hlen, hxs⟩, hl => by
    rw [leaves_group] at hl
    exact ⟨hc, hlen, formedAll_of_branching xs hxs hl⟩

private theorem formedAll_of_branching : ∀ xs : List Node, BranchingAll xs →
    (∀ l ∈ xs.flatMap leaves, l.Writable) → FormedAll 1 xs
  | [], _, _ => trivial
  | x :: xs, ⟨hx, hxs⟩, hl => by
    rw [List.flatMap_cons, List.forall_mem_append] at hl
    exact ⟨formed_of_branching x hx hl.1, formedAll_of_branching xs hxs hl.2⟩

end

private theorem Writable.exists_rooted [CharacterData] {limit : Int} {t : Node}
    (h : t.Writable limit) :
    ∃ n : Node, t = rooted n ∧ n.Formed 1 ∧ n.depth ≤ t.depth := by
  rcases h.shape with ⟨l, rfl⟩ | ⟨c, xs, rfl, hb⟩
  · refine ⟨leaf l, rfl, ?_, ?_⟩
    · exact (h.leaves l (by simp [term, leaves_group])).canonical
    · simp
  · exact ⟨group c xs, rfl, formed_of_branching _ hb h.leaves, Nat.le_refl _⟩

private theorem Writable.placed [CharacterData] {limit : Int} {n : Node}
    (h : (rooted n).Writable limit)
    (hn : n.Formed 1) : (rooted n).Placed false := by
  apply (placed_iff _ (formed_rooted hn) false).mpr
  refine ⟨?_, h.nots, by simp⟩
  intro l hl
  have hk := h.keywords l hl
  constructor
  · intro he
    exact hk.1 (by rw [he]; rfl)
  · intro he
    exact hk.2 (by rw [he]; rfl)

end Node

namespace Configuration

/-- Every writable tree is what its canonical text is parsed to, so no two of them are written
alike. -/
theorem parse_render [CharacterData] {c : Configuration} (hc : c.check = .ok ())
    (hmode : c.fieldMode = .preserve) :
    (∀ t : Node, t.Writable c.maxDepth → c.parse t.render = .ok t) ∧
      ∀ t t' : Node, t.Writable c.maxDepth → t'.Writable c.maxDepth → t.render = t'.render →
        t = t' := by
  obtain ⟨_, hk, _, _⟩ := check_eq_ok_iff.mp hc
  have hparse : ∀ t : Node, t.Writable c.maxDepth → c.parse t.render = .ok t := by
    intro t ht
    obtain ⟨n, rfl, hn, hle⟩ := ht.exists_rooted
    have hd : n.depth ≤ c.settings.toRules.levelsAt 0 := by
      have hlevels := ht.levels
      simp only [settings, Rules.levelsAt]
      omega
    apply (@parse_render_iff _ c.settings hk hmode n _ hn hd).mpr
    exact ⟨requireBalance_eq_ok_iff.mpr ht.balanced, ht.placed hn, rfl⟩
  refine ⟨hparse, ?_⟩
  intro t t' ht ht' h
  have hsame : Except.ok (ε := QueryError) t = .ok t' := by
    rw [← hparse t ht, h, hparse t' ht']
  exact Except.ok.inj hsame

theorem parse_render_quoted_phrase :
    Node.Writable 64 (.group .andNot [.leaf (.bare "NOT"),
        .group .or [.leaf ⟨"f".toList, "(a b)".toList, true⟩, .leaf (.bare "c")]]) ∧
      standard.parse "(NOT AND NOT (f:\"(a b)\" OR c))".toList =
        .ok (.group .andNot [.leaf (.bare "NOT"),
          .group .or [.leaf ⟨"f".toList, "(a b)".toList, true⟩, .leaf (.bare "c")]]) := by
  have hleaf : ∀ l ∈ [Leaf.bare "NOT", ⟨"f".toList, "(a b)".toList, true⟩, .bare "c"],
      l.Writable := by
    simp only [List.forall_mem_cons, List.not_mem_nil, false_implies, implies_true, and_true]
    refine ⟨?_, ?_, ?_⟩
    all_goals
      exact ⟨by decide, by decide, by decide, squeezed_iff.mpr (by decide),
        hasReserved_eq_false_iff.mp (by decide), by decide, by decide +kernel⟩
  have hw : Node.Writable 64 (.group .andNot [.leaf (.bare "NOT"),
      .group .or [.leaf ⟨"f".toList, "(a b)".toList, true⟩, .leaf (.bare "c")]]) := by
    constructor
    · exact Or.inr ⟨_, _, rfl, by simp [Node.Branching, Node.BranchingAll, Connective.isKnown]⟩
    · decide
    · exact hleaf
    · decide
    · decide
    · exact requireBalance_eq_ok_iff.mp (by decide)
  have hrender : Node.render (.group .andNot [.leaf (.bare "NOT"),
      .group .or [.leaf ⟨"f".toList, "(a b)".toList, true⟩, .leaf (.bare "c")]]) =
      "(NOT AND NOT (f:\"(a b)\" OR c))".toList := by
    decide +kernel
  have hparse := (parse_render (c := standard) rfl rfl).1 _ hw
  rw [hrender] at hparse
  exact ⟨hw, hparse⟩

end Configuration

end BooleanSearch
