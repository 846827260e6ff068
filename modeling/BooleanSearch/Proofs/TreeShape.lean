import BooleanSearch.Proofs.WritableTrees

/-!
# The shape of a parsed query

What parsing makes is a single term or a tree of groups with two children or more, no deeper than
the configuration allows. Each leaf is written as one word of a query, also where its field is
dropped: a field ends at a colon outside quotes, so the value begins and ends outside them as well.
-/

namespace BooleanSearch

open Text

/-- Tells that the characters of a kind come after an odd number of quotes. -/
def OnlyQuoted (p : Char → Prop) (t : Text) : Prop :=
  ∀ i : Fin t.length, p (t.get i) → (t.take i).count '"' % 2 = 1

/-- What every leaf of a parsed query is like. -/
structure Leaf.WellFormed (l : Leaf) : Prop where
  value : l.value.trim ≠ []
  even : l.render.count '"' % 2 = 0
  clean : ∀ c ∈ l.render, c ∉ Connective.symbols
  quoted : OnlyQuoted (fun c => c = '(' ∨ c = ')' ∨ Blank c) l.render
  squeezed : Squeezed l.render
  field : OnlyQuoted (· = ':') l.field
  bare : l.phrase = false → ¬(l.value.head? = some '"' ∧ l.value.getLast? = some '"')

/-! ### Quotes in a part of a text -/

section

variable {p : Char → Prop}

private theorem Outside.odd_before {quoted : Bool} {t : Text} (h : Outside p quoted t)
    (i : Fin t.length) (hi : ¬p (t.get i)) (hquote : t.get i ≠ '"') :
    (quoted.toNat + (t.take i).count '"') % 2 = 1 := by
  induction t generalizing quoted with
  | nil => exact i.elim0
  | cons c t ih =>
    cases i using Fin.cases with
    | zero =>
      cases quoted with
      | true => rfl
      | false => exact absurd ((outside_cons_unquoted hquote).mp h).1 hi
    | succ i =>
      rw [Fin.val_succ, List.take_succ_cons]
      by_cases hq : c = '"'
      · subst hq
        rw [Lexeme.parity_cons_quote]
        exact ih (outside_quote.mp h) i hi hquote
      · rw [List.count_cons_of_ne hq]
        cases quoted with
        | true => exact ih ((outside_cons_quoted hq).mp h) i hi hquote
        | false => exact ih ((outside_cons_unquoted hq).mp h).2 i hi hquote

theorem Outside.onlyQuoted {t : Text} (h : Outside p false t) {r : Char → Prop}
    (hr : ∀ c, r c → ¬p c ∧ c ≠ '"') : OnlyQuoted r t := by
  intro i hi
  have hodd := h.odd_before i (hr _ hi).1 (hr _ hi).2
  simpa using hodd

private theorem exists_of_map_cons {c : Char} {x : Option (Text × Text)} {a b : Text}
    (h : (x.map fun (a, b) => (c :: a, b)) = some (a, b)) :
    ∃ a', x = some (a', b) ∧ a = c :: a' := by
  obtain ⟨⟨a', b'⟩, hx, he⟩ := Option.map_eq_some_iff.mp h
  obtain ⟨rfl, rfl⟩ := Prod.mk.inj he
  exact ⟨a', hx, rfl⟩

private theorem outside_of_breakFrom {mark : Char} {quoted : Bool} {t a b : Text}
    (hb : Segment.breakFrom mark quoted t = some (a, b)) :
    Outside (· ≠ mark) quoted a ∧ (Outside p quoted t → Outside p false b) := by
  induction t generalizing quoted a with
  | nil => simp [Segment.breakFrom] at hb
  | cons c t ih =>
    rw [Segment.breakFrom] at hb
    by_cases hq : c = '"'
    · subst hq
      rw [if_pos rfl] at hb
      obtain ⟨a', hp, rfl⟩ := exists_of_map_cons hb
      have hrest := ih hp
      exact ⟨outside_quote.mpr hrest.1, fun h => hrest.2 (outside_quote.mp h)⟩
    · rw [if_neg hq] at hb
      cases quoted with
      | true =>
        obtain ⟨a', hp, rfl⟩ := exists_of_map_cons hb
        have hrest := ih hp
        exact ⟨(outside_cons_quoted hq).mpr hrest.1,
          fun h => hrest.2 ((outside_cons_quoted hq).mp h)⟩
      | false =>
        by_cases hc : c = mark
        · rw [if_pos (by simp [hc])] at hb
          obtain ⟨rfl, rfl⟩ := Prod.mk.inj (Option.some.inj hb)
          exact ⟨rfl, fun h => ((outside_cons_unquoted hq).mp h).2⟩
        · rw [if_neg (by simp [hc])] at hb
          obtain ⟨a', hp, rfl⟩ := exists_of_map_cons hb
          have hrest := ih hp
          exact ⟨(outside_cons_unquoted hq).mpr ⟨hc, hrest.1⟩,
            fun h => hrest.2 ((outside_cons_unquoted hq).mp h).2⟩

end

/-! ### Leaves -/

namespace Query

private theorem IsWord.of_isSuffix {s t : Text} (h : IsWord t) (hs : s <:+ t)
    (houtside : Outside WordChar false s) : IsWord s where
  outside := houtside
  squeezed := h.squeezed.of_isInfix hs.isInfix
  clean c hc := h.clean c (hs.subset hc)

private theorem IsWord.splitField {t field value : Text} (h : IsWord t)
    (hs : splitField t = .ok (field, value)) :
    Outside (· ≠ ':') false field ∧ IsWord value := by
  rcases splitField_eq_ok_iff.mp hs with ⟨_, rfl, rfl⟩ | ⟨hb, _, _⟩
  · exact ⟨rfl, h⟩
  · have hcut := @outside_of_breakFrom WordChar _ _ _ _ _ hb
    have hsuffix : value <:+ t := ⟨field ++ [':'], by simp [breakFrom_eq_some hb]⟩
    exact ⟨hcut.1, h.of_isSuffix hsuffix (hcut.2 h.outside)⟩

private theorem unquote?_of_ends {value : Text} (heven : value.count '"' % 2 = 0)
    (hhead : value.head? = some '"') (hlast : value.getLast? = some '"') :
    unquote? value ≠ none := by
  cases value with
  | nil => simp at hhead
  | cons c cs =>
    obtain rfl : c = '"' := by simpa using hhead
    cases cs with
    | nil => simp at heven
    | cons d ds =>
      rw [List.getLast?_cons_cons] at hlast
      rw [unquote?, if_pos ⟨rfl, hlast⟩]
      simp

theorem field_leafOf (mode : FieldMode) (field value : Text) :
    (leafOf mode field value).field = if mode = .preserve then field else [] := by
  simp only [leafOf]
  cases unquote? value <;> rfl

private theorem value_leafOf {mode : FieldMode} {field value : Text}
    (h : (leafOf mode field value).phrase = false) :
    (leafOf mode field value).value = value ∧ unquote? value = none := by
  simp only [leafOf] at h ⊢
  cases hu : unquote? value with
  | some inner => simp [hu] at h
  | none => exact ⟨rfl, rfl⟩

/-- A leaf that is read from a word is well formed, with its field or without it. -/
theorem wellFormed_of_readLeaf {mode : FieldMode} {t : Text} {l : Leaf} (h : IsWord t)
    (hl : readLeaf mode t = .ok l) : l.WellFormed := by
  obtain ⟨_, _, _, field, value, hs, rfl, hvalue⟩ := readLeaf_eq_ok_iff.mp hl
  obtain ⟨hfield, hword⟩ := h.splitField hs
  have hrender : IsWord (leafOf mode field value).render := by
    by_cases hmode : mode = .preserve
    · subst hmode
      rw [render_of_readLeaf hl]
      exact h
    · rw [render_leafOf, if_neg (fun hboth => hmode hboth.1), List.nil_append]
      exact hword
  constructor
  · exact hvalue
  · exact hrender.outside.even
  · exact hrender.clean
  · apply hrender.outside.onlyQuoted
    intro c hc
    rcases hc with rfl | rfl | hblank
    · simp [WordChar]
    · simp [WordChar]
    · rw [← isBlank_iff] at hblank
      refine ⟨fun hw => by simp [hw.1] at hblank, ?_⟩
      rintro rfl
      exact absurd hblank (by decide)
  · exact hrender.squeezed
  · rw [field_leafOf]
    split_ifs
    · exact hfield.onlyQuoted fun c hc => by simp [hc]
    · intro i
      exact i.elim0
  · intro hphrase hends
    obtain ⟨hsame, hnone⟩ := value_leafOf hphrase
    rw [hsame] at hends
    exact unquote?_of_ends hword.outside.even hends.1 hends.2 hnone

end Query

/-! ### Trees -/

namespace Configuration

open Query

private theorem branching_tree {mode : FieldMode} {e : Expression}
    (hread : Readable mode e.items) (hkeyword : ∀ c, .keyword c ∈ e.items → c.isKnown = true) :
    (e.tree mode).Branching := by
  apply Expression.tree_induction _ _ hkeyword
  · intro c xs hc hlen hxs
    exact ⟨hc, hlen, Node.branchingAll_iff.mpr hxs⟩
  · intro u hu
    obtain ⟨l, hl⟩ := hread u hu
    rw [termNode_of_readLeaf hl]
    trivial

private theorem shape_of_rooted {n : Node} (h : n.Branching) :
    (∃ l, rooted n = .term l) ∨ ∃ d xs, rooted n = .group d xs ∧ (rooted n).Branching := by
  cases n with
  | leaf l => exact Or.inl ⟨l, rfl⟩
  | gap k => exact h.elim
  | group d xs => exact Or.inr ⟨d, xs, rfl, h⟩

theorem depth_rooted_le {limit : Int} (hpos : 0 < limit) {n : Node}
    (h : (n.depth : Int) ≤ limit) : ((rooted n).depth : Int) ≤ limit := by
  cases n with
  | leaf l => exact hpos
  | gap k => exact h
  | group d xs => exact h

/-- What parsing makes of a query: a single term, or groups of two or more all the way down, within
the depth that the configuration sets, with well-formed leaves. -/
theorem shape_of_parse {c : Configuration} (hc : c.check = .ok ()) {query : Text} {t : Node}
    (h : c.parse query = .ok t) :
    ((∃ l, t = .term l) ∨ ∃ d xs, t = .group d xs ∧ t.Branching) ∧
      (t.depth : Int) ≤ c.maxDepth ∧ ∀ l ∈ t.leaves, l.WellFormed := by
  obtain ⟨hpos, hk, _, _⟩ := check_eq_ok_iff.mp hc
  have haccounts := accounts_of_parse hk h
  obtain ⟨_, hr, e, he, hread, hd, rfl⟩ := derivation_of_parse hk h
  have hlevels : ((e.tree c.fieldMode).depth : Int) ≤ c.maxDepth := by
    have hle : (e.tree c.fieldMode).depth ≤ c.settings.toRules.levelsAt 0 := hd
    simp only [settings, Rules.levelsAt] at hle
    omega
  have hbranching : (e.tree c.fieldMode).Branching := by
    apply branching_tree (he ▸ hread)
    intro d hd
    rw [he] at hd
    exact isKnown_of_keyword_itemsOf hk hd
  have heven := even_quotes_of_readable hread
  rw [quotes_itemsOf] at heven
  refine ⟨?_, ?_, ?_⟩
  · exact shape_of_rooted hbranching
  · exact depth_rooted_le hpos hlevels
  · intro l hl
    obtain ⟨u, hu, hread⟩ := haccounts.exists_term hl
    exact wellFormed_of_readLeaf (isWord_of_term hr heven hu) hread

theorem shape_of_parse_dropped_field :
    { standard with fieldMode := .discard }.parse "\"x:y\":\"(b  c)\" OR (n:d e)".toList =
        .ok (.group .or [.leaf ⟨[], "(b c)".toList, true⟩,
          .group .and [.leaf ⟨[], "d".toList, false⟩, .leaf ⟨[], "e".toList, false⟩]]) ∧
      Leaf.WellFormed ⟨[], "(b c)".toList, true⟩ ∧ Leaf.WellFormed ⟨[], "d".toList, false⟩ := by
  have hparse : { standard with fieldMode := .discard }.parse
      "\"x:y\":\"(b  c)\" OR (n:d e)".toList =
        .ok (.group .or [.leaf ⟨[], "(b c)".toList, true⟩,
          .group .and [.leaf ⟨[], "d".toList, false⟩, .leaf ⟨[], "e".toList, false⟩]]) := by
    decide +kernel
  obtain ⟨_, _, hleaves⟩ := shape_of_parse (c := { standard with fieldMode := .discard }) rfl hparse
  exact ⟨hparse, hleaves _ (by simp [Node.leaves_group]), hleaves _ (by simp [Node.leaves_group])⟩

end Configuration

end BooleanSearch
