import BooleanSearch.Configuration
import BooleanSearch.Proofs.Derivation

/-!
# Accepted queries

A query is parsed exactly if its brackets balance, it holds no reserved character, its items derive
from the grammar with terms that read as leaves, and the tree of the derivation is not too deep.
An odd number of quotes is refused on both sides: by the leaf that holds the open one.
-/

namespace BooleanSearch

open Text

def Text.brackets (t : Text) : Text := t.filter fun c => c == '(' || c == ')'

namespace Query

/-! ### Brackets of the query -/

/-- Tells that no closing bracket comes before its opening one and none is left open. Brackets
inside quotes count as well. -/
structure Balanced (t : Text) : Prop where
  total : t.count '(' = t.count ')'
  bound : ∀ p, p <+: t → p.count ')' ≤ p.count '('

private def BalancedFrom (depth : Nat) (t : Text) : Prop :=
  depth + t.count '(' = t.count ')' ∧ ∀ p, p <+: t → p.count ')' ≤ depth + p.count '('

private theorem balancedFrom_cons {depth : Nat} {c : Char} {t : Text} :
    BalancedFrom depth (c :: t) ↔ depth + (c :: t).count '(' = (c :: t).count ')' ∧
      ∀ p, p <+: t → (c :: p).count ')' ≤ depth + (c :: p).count '(' := by
  rw [BalancedFrom]
  refine and_congr_right fun _ => ⟨fun h p hp => ?_, fun h p hp => ?_⟩
  · exact h (c :: p) (List.cons_prefix_cons.mpr ⟨rfl, hp⟩)
  · cases p with
    | nil => simp
    | cons d p =>
      obtain ⟨rfl, hpt⟩ := List.cons_prefix_cons.mp hp
      exact h p hpt

private theorem balancedFrom_opening {depth : Nat} {t : Text} :
    BalancedFrom depth ('(' :: t) ↔ BalancedFrom (depth + 1) t := by
  have hopen (p : Text) : ('(' :: p).count '(' = p.count '(' + 1 := by simp
  have hclose (p : Text) : ('(' :: p).count ')' = p.count ')' := by simp
  rw [balancedFrom_cons, BalancedFrom]
  simp only [hopen, hclose]
  refine and_congr (by omega) ⟨fun h p hp => ?_, fun h p hp => ?_⟩
  · have hp' := h p hp
    omega
  · have hp' := h p hp
    omega

private theorem balancedFrom_closing {depth : Nat} {t : Text} :
    BalancedFrom (depth + 1) (')' :: t) ↔ BalancedFrom depth t := by
  have hopen (p : Text) : (')' :: p).count '(' = p.count '(' := by simp
  have hclose (p : Text) : (')' :: p).count ')' = p.count ')' + 1 := by simp
  rw [balancedFrom_cons, BalancedFrom]
  simp only [hopen, hclose]
  refine and_congr (by omega) ⟨fun h p hp => ?_, fun h p hp => ?_⟩
  · have hp' := h p hp
    omega
  · have hp' := h p hp
    omega

private theorem not_balancedFrom_closing {t : Text} : ¬BalancedFrom 0 (')' :: t) := by
  intro h
  have hfirst := h.2 [')'] (by simp)
  simp at hfirst

private theorem requireBalanceFrom_eq_ok_iff (offset depth : Nat) (t : Text) :
    requireBalanceFrom offset depth t = .ok () ↔ BalancedFrom depth t := by
  induction t generalizing offset depth with
  | nil =>
    rw [requireBalanceFrom, BalancedFrom]
    by_cases hd : depth = 0 <;> simp [hd]
  | cons c t ih =>
    simp only [requireBalanceFrom]
    split_ifs with ho hc
    · subst ho
      rw [ih, balancedFrom_opening]
    · subst hc
      cases depth with
      | zero => simp [not_balancedFrom_closing]
      | succ depth => rw [ih, balancedFrom_closing]
    · rw [ih, balancedFrom_cons, BalancedFrom]
      simp [List.count_cons_of_ne ho, List.count_cons_of_ne hc]

theorem requireBalance_eq_ok_iff {t : Text} : requireBalance t = .ok () ↔ Balanced t := by
  rw [requireBalance, requireBalanceFrom_eq_ok_iff, BalancedFrom]
  simp only [Nat.zero_add]
  exact ⟨fun h => ⟨h.1, h.2⟩, fun h => ⟨h.total, h.bound⟩⟩

private theorem requireBalanceFrom_brackets (offset offset' depth : Nat) (t : Text) :
    (requireBalanceFrom offset depth t).mapError QueryError.kind =
      (requireBalanceFrom offset' depth t.brackets).mapError QueryError.kind := by
  induction t generalizing offset offset' depth with
  | nil => rfl
  | cons c t ih =>
    by_cases ho : c = '('
    · subst ho
      exact ih _ _ _
    by_cases hc : c = ')'
    · subst hc
      cases depth with
      | zero => rfl
      | succ depth => exact ih _ _ _
    have hskip : brackets (c :: t) = brackets t := List.filter_cons_of_neg (by simp [ho, hc])
    simp only [hskip, requireBalanceFrom, if_neg ho, if_neg hc]
    exact ih _ _ _

theorem requireBalance_congr {s t : Text} (h : s.brackets = t.brackets) :
    (requireBalance s).mapError QueryError.kind = (requireBalance t).mapError QueryError.kind := by
  rw [requireBalance, requireBalance, requireBalanceFrom_brackets 0 0, h,
    ← requireBalanceFrom_brackets 0 0]

/-! ### Items of a query -/

theorem isSpace_reserved {c : Char} (h : c ∈ Connective.symbols) : isSpace c = false := by
  have hall : Connective.symbols.all (fun d => !isSpace d) = true := by decide
  simpa using List.all_eq_true.mp hall c h

theorem hasReserved_eq_false_iff {t : Text} :
    hasReserved t = false ↔ ∀ c ∈ t, c ∉ Connective.symbols := by
  simp [hasReserved]

theorem hasReserved_trim (t : Text) : hasReserved t.trim = hasReserved t := by
  apply Bool.eq_iff_iff.mpr
  simp only [hasReserved, List.any_eq_true, List.contains_iff_mem]
  constructor
  · rintro ⟨c, hc, hs⟩
    exact ⟨c, mem_of_mem_trim hc, hs⟩
  · rintro ⟨c, hc, hs⟩
    refine ⟨c, ?_, hs⟩
    rw [← List.count_pos_iff, count_trim (isSpace_reserved hs), List.count_pos_iff]
    exact hc

theorem quotes_itemsOf (implicit : Connective) (query : Text) :
    Item.quotes (itemsOf implicit query) = query.trim.count '"' := by
  rw [itemsOf, Item.quotes_joinOperands, Item.ofText, Item.quotes_ofLexemes, Lexeme.quotes_ofText]

private theorem isKnown_of_keyword_ofLexemes {ls : List Lexeme} {c : Connective}
    (h : .keyword c ∈ Item.ofLexemes ls) : c.isKnown = true := by
  have hplain {w : Text} {d : Connective} (hw : Item.connective? w = some d) :
      d.isKnown = true ∧ d.withNot.isKnown = true := by
    obtain ⟨_, rfl | rfl⟩ := Item.connective?_eq_some hw <;> exact ⟨rfl, rfl⟩
  fun_induction Item.ofLexemes ls with
  | case1 => simp at h
  | case2 rest ih => exact ih (by simpa using h)
  | case3 rest ih => exact ih (by simpa using h)
  | case4 w rest hw ih => exact ih (by simpa using h)
  | case5 w d hw later ih =>
    rcases List.mem_cons.mp h with h | h
    · exact Item.keyword.inj h ▸ (hplain hw).2
    · exact ih h
  | case6 w d hw v later hv ih =>
    rcases List.mem_cons.mp h with h | h
    · exact Item.keyword.inj h ▸ (hplain hw).1
    · exact ih h
  | case7 w d hw later ih =>
    rcases List.mem_cons.mp h with h | h
    · exact Item.keyword.inj h ▸ (hplain hw).1
    · exact ih h
  | case8 w d hw later ih =>
    rcases List.mem_cons.mp h with h | h
    · exact Item.keyword.inj h ▸ (hplain hw).1
    · exact ih h
  | case9 w d hw => exact Item.keyword.inj (List.mem_singleton.mp h) ▸ (hplain hw).1

private theorem keyword_mem_joinOperands {implicit c : Connective} {is : List Item}
    (h : .keyword c ∈ Item.joinOperands implicit is) : c = implicit ∨ .keyword c ∈ is := by
  fun_induction Item.joinOperands implicit is with
  | case1 => exact Or.inr h
  | case2 i => exact Or.inr h
  | case3 i j rest hij ih =>
    rcases List.mem_cons.mp h with h | h
    · exact Or.inr (by simp [h])
    · rcases List.mem_cons.mp h with h | h
      · exact Or.inl (Item.keyword.inj h)
      · exact (ih h).imp_right (List.mem_cons_of_mem i)
  | case4 i j rest hij ih =>
    rcases List.mem_cons.mp h with h | h
    · exact Or.inr (by simp [h])
    · exact (ih h).imp_right (List.mem_cons_of_mem i)

theorem isKnown_of_keyword_itemsOf {implicit c : Connective} {query : Text}
    (hk : implicit.isKnown = true) (h : .keyword c ∈ itemsOf implicit query) :
    c.isKnown = true := by
  rcases keyword_mem_joinOperands h with rfl | h
  · exact hk
  · exact isKnown_of_keyword_ofLexemes h

theorem head?_joinOperands (implicit : Connective) (is : List Item) :
    (Item.joinOperands implicit is).head? = is.head? := by
  fun_induction Item.joinOperands implicit is with
  | case1 => rfl
  | case2 i => rfl
  | case3 i j rest hij ih => rfl
  | case4 i j rest hij ih => rfl

theorem getLast?_joinOperands (implicit : Connective) (is : List Item) :
    (Item.joinOperands implicit is).getLast? = is.getLast? := by
  have hne (j : Item) (rest : List Item) : Item.joinOperands implicit (j :: rest) ≠ [] := by
    intro h
    have hh := head?_joinOperands implicit (j :: rest)
    simp [h] at hh
  fun_induction Item.joinOperands implicit is with
  | case1 => rfl
  | case2 i => rfl
  | case3 i j rest hij ih =>
    rw [List.getLast?_cons_cons, List.getLast?_cons_of_ne_nil (hne j rest), ih,
      List.getLast?_cons_cons]
  | case4 i j rest hij ih =>
    rw [List.getLast?_cons_of_ne_nil (hne j rest), ih, List.getLast?_cons_cons]

theorem joinOperands_apart (implicit : Connective) (is : List Item) :
    (Item.joinOperands implicit is).IsChain
      fun i j => ¬(i.closesOperand = true ∧ j.opensOperand = true) := by
  fun_induction Item.joinOperands implicit is with
  | case1 => exact .nil
  | case2 i => exact .singleton i
  | case3 i j rest hij ih =>
    have hk : (Item.keyword implicit :: Item.joinOperands implicit (j :: rest)).IsChain
        fun i j => ¬(i.closesOperand = true ∧ j.opensOperand = true) :=
      List.isChain_cons.mpr ⟨by simp [Item.closesOperand], ih⟩
    exact List.isChain_cons_cons.mpr ⟨by simp [Item.opensOperand], hk⟩
  | case4 i j rest hij ih =>
    refine List.isChain_cons.mpr ⟨?_, ih⟩
    intro k hk
    rw [head?_joinOperands] at hk
    obtain rfl : j = k := by simpa using hk
    simpa using hij

theorem joinOperands_eq_self (implicit : Connective) {is : List Item}
    (h : is.IsChain fun i j => ¬(i.closesOperand = true ∧ j.opensOperand = true)) :
    Item.joinOperands implicit is = is := by
  fun_induction Item.joinOperands implicit is with
  | case1 => rfl
  | case2 i => rfl
  | case3 i j rest hij ih => exact absurd (by simpa using hij) (List.isChain_cons_cons.mp h).1
  | case4 i j rest hij ih => rw [ih (List.isChain_cons_cons.mp h).2]

theorem clean_of_mem_term {query u : Text} (hr : hasReserved query = false)
    (hu : .term u ∈ Item.ofText query.trim) : ∀ c ∈ u, c ∉ Connective.symbols := by
  intro c hc
  rcases Item.mem_of_mem_term hu hc with hm | rfl
  · exact hasReserved_eq_false_iff.mp hr c (mem_of_mem_trim hm)
  · decide

theorem clean_of_term {implicit : Connective} {query u : Text} (hr : hasReserved query = false)
    (hu : .term u ∈ itemsOf implicit query) : ∀ c ∈ u.trim, c ∉ Connective.symbols := by
  intro c hc
  exact clean_of_mem_term hr (Item.term_mem_joinOperands.mp hu) c (mem_of_mem_trim hc)

/-- Tells that a text can stand as one word in a query: its quotes are closed, blanks and brackets
stand inside them, the blanks as single spaces, and no character is reserved. -/
structure IsWord (t : Text) : Prop where
  outside : Outside WordChar false t
  squeezed : Squeezed t
  clean : ∀ c ∈ t, c ∉ Connective.symbols

theorem isWord_of_term {implicit : Connective} {query u : Text} (hr : hasReserved query = false)
    (heven : query.trim.count '"' % 2 = 0) (hu : .term u ∈ itemsOf implicit query) :
    IsWord u.trim := by
  have hu' : .term u ∈ Item.ofText query.trim := Item.term_mem_joinOperands.mp hu
  constructor
  · exact (Item.outside_of_term heven hu').trim
  · obtain ⟨w, _, _, rfl⟩ := Item.exists_word_of_term hu'
    exact (squeezed_squeeze w).of_isInfix (trim_isInfix _)
  · exact clean_of_term hr hu

theorem legible_itemsOf {implicit : Connective} {query : Text} (hk : implicit.isKnown = true)
    (hr : hasReserved query = false) (heven : query.trim.count '"' % 2 = 0) :
    Legible (itemsOf implicit query) where
  quiet u hu := by
    have hu' : .term u ∈ Item.ofText query.trim := Item.term_mem_joinOperands.mp hu
    apply (Item.outside_of_term heven hu').trim.mono
    intro c hc hw
    exact ⟨hw.2.1, hw.2.2, clean_of_term hr hu c hc⟩
  known c hc := isKnown_of_keyword_itemsOf hk hc
  apart := joinOperands_apart implicit _

/-! ### Quotes of an accepted text -/

private theorem count_quote_operandText (t : Text) :
    (operandText t).count '"' = t.count '"' := by
  have hmain : ∀ u : Text, (Segment.unwrapAll u).count '"' = u.count '"' := by
    intro u
    induction u using Segment.unwrapAll_induction with
    | none u hu => rw [Segment.unwrapAll_of_none hu]
    | some u v hv ih =>
      rw [Segment.unwrapAll_of_some hv, ih, count_trim (by decide), Segment.eq_of_unwrap? hv]
      simp
  rw [operandText, hmain, count_trim (by decide)]

private theorem even_count_flatten {ss : List Text} (h : ∀ s ∈ ss, s.count '"' % 2 = 0) :
    ss.flatten.count '"' % 2 = 0 := by
  induction ss with
  | nil => rfl
  | cons s ss ih =>
    have hs := h s (by simp)
    have hss := ih fun t ht => h t (by simp [ht])
    rw [List.flatten_cons, List.count_append]
    omega

private theorem even_of_nodeOf {rules : Rules} {levels : Nat} {t : Text} {n : Node}
    (h : nodeOf rules levels t = .ok n) : t.count '"' % 2 = 0 := by
  induction levels using Nat.strongRecOn generalizing t n with
  | ind levels ih =>
    rw [← count_quote_operandText]
    obtain ⟨_, hcases⟩ := nodeOf_eq_ok_iff.mp h
    rcases hcases with ⟨_, l, hleaf, _⟩ | ⟨c, segments, m, ns, hroot, rfl, hns, _⟩
    · exact (readLeaf_eq_ok_iff.mp hleaf).1
    · obtain ⟨_, _, _, _, _, rfl⟩ := rootSplit?_eq_some_iff.mp hroot
      have hsym : '"' ≠ c.symbol := by cases c <;> simp only [Connective.symbol] <;> decide
      rw [Segment.cut_splitPoints] at hns
      rw [← Segment.count_piecesFrom hsym 0 false]
      apply even_count_flatten
      intro s hs
      obtain ⟨i, hi, rfl⟩ := List.mem_iff_getElem.mp hs
      have hlen := hns.length_eq
      exact ih m (Nat.lt_succ_self m) (hns.get hi (by omega))

theorem even_quotes_of_readable {mode : FieldMode} {is : List Item}
    (h : Readable mode is) : Item.quotes is % 2 = 0 := by
  induction is with
  | nil => rfl
  | cons i is ih =>
    have his := ih fun u hu => h u (by simp [hu])
    have hi : i.glyph.count '"' % 2 = 0 := by
      cases i with
      | term u =>
        obtain ⟨l, hl⟩ := h u (by simp)
        have heven := (readLeaf_eq_ok_iff.mp hl).1
        rw [count_trim (by decide)] at heven
        exact heven
      | keyword c => simp
      | opening => rfl
      | closing => rfl
    rw [Item.quotes_cons]
    omega

/-! ### Parsing -/

theorem normalize_eq_ok_iff {implicit : Connective} {query s : Text} :
    normalize implicit query = .ok s ↔ requireBalance query = .ok () ∧
      hasReserved query = false ∧ refuseOuterKeywords (Item.ofText query.trim) = .ok () ∧
        Item.render (itemsOf implicit query) = s := by
  rw [normalize, bind_eq_ok, hasReserved_trim]
  constructor
  · rintro ⟨_, hb, h⟩
    split_ifs at h with hr
    obtain ⟨_, ho, h⟩ := bind_eq_ok.mp h
    exact ⟨hb, by simpa using hr, ho, Except.ok.inj h⟩
  · rintro ⟨hb, hr, ho, rfl⟩
    refine ⟨(), hb, ?_⟩
    rw [if_neg (by simp [hr])]
    exact bind_eq_ok.mpr ⟨(), ho, rfl⟩

theorem parse_eq_ok_iff {settings : Settings} {query : Text} {n : Node} :
    parse settings query = .ok n ↔ ∃ s root, normalize settings.implicit query = .ok s ∧ s ≠ [] ∧
      nodeOf settings.toRules (settings.toRules.levelsAt 0) s = .ok root ∧ rooted root = n := by
  rw [parse, bind_eq_ok]
  constructor
  · rintro ⟨s, hs, h⟩
    obtain ⟨root, hroot, hr⟩ := bind_eq_ok.mp h
    obtain ⟨s', hs', hp⟩ := bind_eq_ok.mp hs
    split_ifs at hp with he
    obtain rfl := Except.ok.inj hp
    exact ⟨s', root, hs', by simpa using he, hroot, Except.ok.inj hr⟩
  · rintro ⟨s, root, hs, hne, hroot, rfl⟩
    refine ⟨s, ?_, bind_eq_ok.mpr ⟨root, hroot, rfl⟩⟩
    refine bind_eq_ok.mpr ⟨s, hs, ?_⟩
    rw [if_neg (by simpa using hne)]

/-- A query that is parsed has a derivation, and its tree comes from that derivation. -/
theorem derivation_of_parse {settings : Settings} {query : Text} {n : Node}
    (hk : settings.implicit.isKnown = true) (h : parse settings query = .ok n) :
    requireBalance query = .ok () ∧ hasReserved query = false ∧
      ∃ e : Expression, e.items = itemsOf settings.implicit query ∧
        Readable settings.fieldMode (itemsOf settings.implicit query) ∧
        (e.tree settings.fieldMode).depth ≤ settings.toRules.levelsAt 0 ∧
        rooted (e.tree settings.fieldMode) = n := by
  obtain ⟨s, root, hs, _, hroot, rfl⟩ := parse_eq_ok_iff.mp h
  obtain ⟨hb, hr, _, rfl⟩ := normalize_eq_ok_iff.mp hs
  have heven := even_of_nodeOf hroot
  rw [Item.count_render, quotes_itemsOf] at heven
  obtain ⟨e, he, hread, hd, ht⟩ :=
    derivation_of_nodeOf (spells_render _) (legible_itemsOf hk hr heven) hroot
  exact ⟨hb, hr, e, he, hread, hd, by rw [ht]⟩

private theorem head_operand (o : Operand) (r : List Item) :
    ∃ i is, o.items ++ r = i :: is ∧ i.opensOperand = true := by
  cases o with
  | term t => exact ⟨_, r, rfl, rfl⟩
  | bracketed e => exact ⟨.opening, _, rfl, rfl⟩

private theorem last_items (e : Expression) :
    ∃ is i, e.items = is ++ [i] ∧ i.closesOperand = true := by
  induction e with
  | last o =>
    cases o with
    | term t => exact ⟨[], _, rfl, rfl⟩
    | bracketed e => exact ⟨.opening :: Expression.items e, .closing, rfl, rfl⟩
  | join o c rest ih =>
    obtain ⟨is, i, hi, hc⟩ := ih
    exact ⟨o.items ++ .keyword c :: is, i, by simp [Expression.items, hi], hc⟩

private theorem refuseOuterKeywords_of_items {implicit : Connective} {query : Text}
    {e : Expression} (he : e.items = itemsOf implicit query) :
    refuseOuterKeywords (Item.ofText query.trim) = .ok () := by
  have hhead : ∃ i, (Item.ofText query.trim).head? = some i ∧ i.opensOperand = true := by
    rw [← head?_joinOperands implicit]
    change ∃ i, (itemsOf implicit query).head? = some i ∧ _
    rw [← he]
    cases e with
    | last o =>
      obtain ⟨i, is, hi, hop⟩ := head_operand o []
      rw [List.append_nil] at hi
      exact ⟨i, by rw [Expression.items, hi]; rfl, hop⟩
    | join o c rest =>
      obtain ⟨i, is, hi, hop⟩ := head_operand o (.keyword c :: Expression.items rest)
      exact ⟨i, by rw [Expression.items, hi]; rfl, hop⟩
  have hlast : ∃ i, (Item.ofText query.trim).getLast? = some i ∧ i.closesOperand = true := by
    rw [← getLast?_joinOperands implicit]
    change ∃ i, (itemsOf implicit query).getLast? = some i ∧ _
    obtain ⟨is, i, hi, hc⟩ := last_items e
    exact ⟨i, by rw [← he, hi]; simp, hc⟩
  obtain ⟨i, hi, hopen⟩ := hhead
  obtain ⟨j, hj, hclose⟩ := hlast
  rw [refuseOuterKeywords, hi, hj]
  cases i <;> cases j <;> simp_all [Item.opensOperand, Item.closesOperand]

/-- A query whose items have a derivation that fits is parsed to its tree. -/
theorem parse_of_derivation {settings : Settings} {query : Text} {e : Expression}
    (hk : settings.implicit.isKnown = true) (hb : requireBalance query = .ok ())
    (hr : hasReserved query = false) (he : e.items = itemsOf settings.implicit query)
    (hread : Readable settings.fieldMode e.items)
    (hd : (e.tree settings.fieldMode).depth ≤ settings.toRules.levelsAt 0) :
    parse settings query = .ok (rooted (e.tree settings.fieldMode)) := by
  have heven := even_quotes_of_readable hread
  rw [he, quotes_itemsOf] at heven
  have hl : Legible e.items := he ▸ legible_itemsOf hk hr heven
  have hs : Spells (Item.render (itemsOf settings.implicit query)) e.items :=
    he ▸ spells_render _
  have hn := @nodeOf_of_derivation settings.toRules _ _ _ hs hl hread hd
  refine parse_eq_ok_iff.mpr ⟨_, _, ?_, ?_, hn, rfl⟩
  · exact normalize_eq_ok_iff.mpr ⟨hb, hr, refuseOuterKeywords_of_items he, rfl⟩
  · intro hnil
    rw [hnil] at hn
    exact (nodeOf_eq_ok_iff.mp hn).1 rfl

end Query

namespace Configuration

open Query

theorem check_eq_ok_iff {c : Configuration} :
    c.check = .ok () ↔ 0 < c.maxDepth ∧ c.defaultConnective.isKnown = true ∧
      c.defaultConnective.isNegated = false ∧ c.fieldMode.isKnown = true := by
  rw [check]
  split_ifs with hd hk hn hf
  · simp; omega
  · simp_all
  · simp_all
  · simp_all
  · simp_all

/-- Parsing accepts exactly the queries of the grammar and gives the tree that it assigns. The
derivation of the items is unique; a tree that is a leaf is wrapped as a term. -/
theorem parse_iff_derivation {c : Configuration} (hc : c.check = .ok ()) (query : Text)
    (n : Node) :
    c.parse query = .ok n ↔
      Balanced query ∧ (∀ x ∈ query, x ∉ Connective.symbols) ∧
        ∃ e : Expression,
          (∀ e' : Expression, e'.items = itemsOf c.defaultConnective query ↔ e' = e) ∧
          (∀ t, .term t ∈ itemsOf c.defaultConnective query →
            ∃ l, readLeaf c.fieldMode t.trim = .ok l) ∧
          ((e.tree c.fieldMode).depth : Int) ≤ c.maxDepth ∧
          n = rooted (e.tree c.fieldMode) := by
  obtain ⟨hpos, hk, _, _⟩ := check_eq_ok_iff.mp hc
  have hlevels (k : Nat) : k ≤ c.settings.toRules.levelsAt 0 ↔ (k : Int) ≤ c.maxDepth := by
    simp only [settings, Rules.levelsAt]
    omega
  rw [← requireBalance_eq_ok_iff, ← hasReserved_eq_false_iff]
  constructor
  · intro h
    obtain ⟨hb, hr, e, he, hread, hd, hn⟩ := derivation_of_parse hk h
    exact ⟨hb, hr, e, Expression.items_eq_iff he, hread, (hlevels _).mp hd, hn.symm⟩
  · rintro ⟨hb, hr, e, he, hread, hd, rfl⟩
    have hitems := (he e).mpr rfl
    exact parse_of_derivation hk hb hr hitems (hitems ▸ hread) ((hlevels _).mpr hd)

theorem parse_iff_derivation_quoted_bracket :
    standard.check = .ok () ∧
      Balanced "(a \"(b) c\") OR NOT d".toList ∧
      ∃ e : Expression,
        (∀ e' : Expression, e'.items =
          [.opening, .term "a".toList, .keyword .and, .term "\"(b) c\"".toList, .closing,
            .keyword .orNot, .term "d".toList] ↔ e' = e) ∧
        rooted (e.tree .preserve) =
          .group .orNot
            [.group .and [.leaf ⟨[], "a".toList, false⟩, .leaf ⟨[], "(b) c".toList, true⟩],
              .leaf ⟨[], "d".toList, false⟩] := by
  have hc : standard.check = .ok () := rfl
  have hparse : standard.parse "(a \"(b) c\") OR NOT d".toList =
      .ok (.group .orNot
        [.group .and [.leaf ⟨[], "a".toList, false⟩, .leaf ⟨[], "(b) c".toList, true⟩],
          .leaf ⟨[], "d".toList, false⟩]) := by
    decide +kernel
  obtain ⟨hb, _, e, he, _, _, hn⟩ := (parse_iff_derivation hc _ _).mp hparse
  have hitems : itemsOf standard.defaultConnective "(a \"(b) c\") OR NOT d".toList =
      [.opening, .term "a".toList, .keyword .and, .term "\"(b) c\"".toList, .closing,
        .keyword .orNot, .term "d".toList] := by
    decide +kernel
  rw [hitems] at he
  exact ⟨hc, hb, e, he, hn.symm⟩

end Configuration

end BooleanSearch
