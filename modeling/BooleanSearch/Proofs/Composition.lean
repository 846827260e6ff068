import BooleanSearch.Proofs.CanonicalText
import Mathlib.Logic.Function.Iterate

/-!
# Composing queries

Accepted queries can be put in brackets and joined by a keyword without looking at what they hold.
Acceptance closes the quotes of each of them, so that an added bracket is always read as one, and a
bracket keeps the words on its two sides apart: neither a trailing keyword nor a leading `NOT` can
reach across it.
-/

namespace BooleanSearch

open Text Query

def Text.bracketed (t : Text) : Text := '(' :: (t ++ [')'])

/-- Texts in brackets with the keyword of a connective between any two neighbours. -/
def Connective.composed (c : Connective) (ts : List Text) : Text :=
  List.intercalate (' ' :: (c.keyword ++ [' '])) (ts.map Text.bracketed)

/-- The node below the root that parsing adds to a single leaf. -/
def Node.unrooted : Node → Node
  | .group .and [.leaf l] => .leaf l
  | n => n

/-! ### Items of composed texts -/

namespace Lexeme

private theorem lexemes_append (w : Text) (ls ms : List Lexeme) :
    Cut.lexemes ⟨w, ls ++ ms⟩ = Cut.lexemes ⟨w, ls⟩ ++ ms := by
  cases w <;> rfl

private theorem scan_append_of_even {quoted : Bool} {s t : Text}
    (heven : (quoted.toNat + s.count '"') % 2 = 0) (ht : (scan false t).within = []) :
    scan quoted (s ++ t) =
      ⟨(scan quoted s).within, (scan quoted s).after ++ (scan false t).lexemes⟩ := by
  induction s generalizing quoted with
  | nil =>
    cases quoted with
    | true => simp at heven
    | false =>
      rw [List.nil_append, Cut.lexemes, ht]
      exact congrArg (Cut.mk · (scan false t).after) ht
  | cons c s ih =>
    rw [List.cons_append, scan, scan]
    by_cases hq : c = '"'
    · subst hq
      have hrest : ((!quoted).toNat + s.count '"') % 2 = 0 := by
        rwa [← parity_cons_quote]
      rw [if_pos rfl, if_pos rfl, ih hrest]
      rfl
    · rw [List.count_cons_of_ne hq] at heven
      have hs := ih heven
      have hlexemes : (scan quoted (s ++ t)).lexemes =
          (scan quoted s).lexemes ++ (scan false t).lexemes := by
        rw [hs]
        exact lexemes_append _ _ _
      rw [if_neg hq, if_neg hq, hs, ← hs, hlexemes]
      split_ifs
      · rw [hs]
        rfl
      · rfl
      · rfl
      · rfl
      · rw [hs]
        rfl

end Lexeme

namespace Item

private theorem ofLexemes_append_closing (ls ms : List Lexeme) :
    ofLexemes (ls ++ .closing :: ms) = ofLexemes ls ++ closing :: ofLexemes ms := by
  fun_induction ofLexemes ls with
  | case1 => rfl
  | case2 rest ih => rw [List.cons_append, ofLexemes, ih, List.cons_append]
  | case3 rest ih => rw [List.cons_append, ofLexemes, ih, List.cons_append]
  | case4 w rest hw ih => simp [ofLexemes, hw, ih]
  | case5 w c hw later ih => simp [ofLexemes, hw, ih]
  | case6 w c hw v later hv ih =>
    rw [List.cons_append, ofLexemes_keyword hw (by simpa using hv), ih, List.cons_append]
  | case7 w c hw later ih =>
    rw [List.cons_append, ofLexemes_keyword hw (by simp), ih, List.cons_append]
  | case8 w c hw later ih =>
    rw [List.cons_append, ofLexemes_keyword hw (by simp), ih, List.cons_append]
  | case9 w c hw =>
    rw [List.cons_append, ofLexemes_keyword hw (by simp), List.nil_append, ofLexemes]
    rfl

private theorem ofText_bracketed_append {s : Text} (heven : s.count '"' % 2 = 0) (t : Text) :
    ofText (s.bracketed ++ t) = opening :: (ofText s ++ closing :: ofText t) := by
  have hclose : (Lexeme.scan false (')' :: t)).within = [] := by rw [Lexeme.scan_closing]
  have hscan := @Lexeme.scan_append_of_even false s (')' :: t) (by simpa using heven) hclose
  have hcut : (Lexeme.scan false (s ++ ')' :: t)).lexemes =
      Lexeme.ofText s ++ .closing :: Lexeme.ofText t := by
    rw [hscan, Lexeme.lexemes_append, Lexeme.scan_closing]
    rfl
  have htext : s.bracketed ++ t = '(' :: (s ++ ')' :: t) := by simp [Text.bracketed]
  rw [ofText, Lexeme.ofText, htext, Lexeme.scan_opening, Lexeme.lexemes_mk_nil, hcut, ofLexemes,
    ofLexemes_append_closing]
  rfl

private theorem joinOperands_append (implicit : Connective) (is js : List Item)
    (h : ∀ i ∈ is.getLast?, ∀ j ∈ js.head?, ¬(i.closesOperand = true ∧ j.opensOperand = true)) :
    joinOperands implicit (is ++ js) = joinOperands implicit is ++ joinOperands implicit js := by
  fun_induction joinOperands implicit is with
  | case1 => rfl
  | case2 i =>
    cases js with
    | nil => rfl
    | cons j js =>
      have hij := h i (by simp) j (by simp)
      rw [List.singleton_append, joinOperands, if_neg (by simpa using hij)]
      rfl
  | case3 i j rest hij ih =>
    have hrest := ih (by simpa using h)
    rw [List.cons_append] at hrest
    rw [List.cons_append, List.cons_append, joinOperands, if_pos hij, hrest]
    rfl
  | case4 i j rest hij ih =>
    have hrest := ih (by simpa using h)
    rw [List.cons_append] at hrest
    rw [List.cons_append, List.cons_append, joinOperands, if_neg hij, hrest]
    rfl

private theorem joinOperands_bracketed (implicit : Connective) (is : List Item) {js : List Item}
    (hjs : ∀ j ∈ js.head?, j.opensOperand = false) :
    joinOperands implicit (opening :: (is ++ closing :: js)) =
      opening :: (joinOperands implicit is ++ closing :: joinOperands implicit js) := by
  have hopen := joinOperands_append implicit [opening] (is ++ closing :: js)
    (by simp [closesOperand])
  have hinner := joinOperands_append implicit is (closing :: js)
    (by simp [opensOperand])
  have hclose := joinOperands_append implicit [closing] js
    (by simpa using fun j hj _ => hjs j hj)
  rw [List.singleton_append] at hopen hclose
  rw [hopen, hinner, hclose]
  rfl

end Item

namespace Query

/-! ### Brackets of composed texts -/

private theorem Balanced.append {s t : Text} (hs : Balanced s) (ht : Balanced t) :
    Balanced (s ++ t) where
  total := by rw [List.count_append, List.count_append, hs.total, ht.total]
  bound := by
    intro p hp
    obtain ⟨r, hr⟩ := hp
    rcases List.append_eq_append_iff.mp hr with ⟨a, ha, _⟩ | ⟨a, ha, hr'⟩
    · exact hs.bound p ⟨a, ha.symm⟩
    · have hbound := ht.bound a ⟨r, hr'.symm⟩
      have htotal := hs.total
      rw [ha, List.count_append, List.count_append]
      omega

private theorem Balanced.bracketed {t : Text} (ht : Balanced t) : Balanced t.bracketed where
  total := by
    have htotal := ht.total
    simp [Text.bracketed, List.count_append, htotal]
  bound := by
    intro p hp
    cases p with
    | nil => simp
    | cons c p =>
      obtain ⟨rfl, hrest⟩ := List.cons_prefix_cons.mp hp
      rw [List.count_cons_of_ne (by decide), List.count_cons_self]
      rcases List.prefix_concat_iff.mp hrest with rfl | hwithin
      · have htotal := ht.total
        simp [List.count_append, htotal]
      · have hbound := ht.bound p hwithin
        omega

private theorem balanced_of_not_mem {t : Text} (ho : '(' ∉ t) (hc : ')' ∉ t) : Balanced t where
  total := by rw [List.count_eq_zero_of_not_mem ho, List.count_eq_zero_of_not_mem hc]
  bound := by
    intro p hp
    rw [List.count_eq_zero_of_not_mem fun h => hc (hp.subset h)]
    exact Nat.zero_le _

/-! ### Accepted queries -/

/-- What acceptance says of a trimmed query, its depth apart: the items derive from the grammar, and
nothing but the derivation matters to the tree. -/
structure Accepted (settings : Settings) (query : Text) (e : Expression) : Prop where
  balanced : Balanced query
  clean : hasReserved query = false
  even : query.count '"' % 2 = 0
  items : e.items = Item.joinOperands settings.implicit (Item.ofText query)
  readable : Readable settings.fieldMode e.items

variable {settings : Settings}

theorem two_le_length_of_nodeOf {rules : Rules} {levels : Nat} {t : Text} {c : Connective}
    {ns : List Node} (h : nodeOf rules levels t = .ok (.group c ns)) : 2 ≤ ns.length := by
  obtain ⟨_, hcases⟩ := nodeOf_eq_ok_iff.mp h
  rcases hcases with ⟨_, l, _, hl⟩ | ⟨d, segments, m, ms, hroot, _, hms, hg⟩
  · cases hl
  · obtain ⟨rfl, rfl⟩ := Node.group.inj hg
    obtain ⟨_, _, _, _, hne, rfl⟩ := rootSplit?_eq_some_iff.mp hroot
    have hpos := List.length_pos_iff.mpr hne
    have hlen := Segment.length_piecesFrom d.symbol 0 0 false (operandText t)
    rw [← hms.length_eq, Segment.cut_splitPoints, hlen]
    exact Nat.succ_le_succ hpos

/-- A parsed query is accepted, and its derivation has the node that the parse built. -/
private theorem accepted_of_parse (hk : settings.implicit.isKnown = true) {query : Text} {n : Node}
    (htrim : query.trim = query) (h : parse settings query = .ok n) :
    ∃ e, Accepted settings query e ∧ e.tree settings.fieldMode = n.unrooted ∧
      rooted (e.tree settings.fieldMode) = n ∧
      (e.tree settings.fieldMode).depth ≤ settings.toRules.levelsAt 0 := by
  obtain ⟨hb, hr, e, he, hread, hd, rfl⟩ := derivation_of_parse hk h
  have heven := even_quotes_of_readable hread
  rw [quotes_itemsOf] at heven
  have hl : Legible e.items := he ▸ legible_itemsOf hk hr heven
  have hnode := @nodeOf_of_derivation settings.toRules _ _ _ (spells_render e.items) hl
    (he ▸ hread) (Nat.le_refl _)
  refine ⟨e, ⟨requireBalance_eq_ok_iff.mp hb, hr, htrim ▸ heven, ?_, he ▸ hread⟩, ?_, rfl, hd⟩
  · rw [he, itemsOf, htrim]
  · cases htree : e.tree settings.fieldMode with
    | leaf l => rfl
    | gap k => rfl
    | group c ns =>
      rw [htree] at hnode
      have hlen := two_le_length_of_nodeOf hnode
      cases ns with
      | nil => simp at hlen
      | cons x ns =>
        cases ns with
        | nil => simp at hlen
        | cons y ys => cases x <;> cases c <;> rfl

private theorem Accepted.parse (hk : settings.implicit.isKnown = true) {query : Text}
    {e : Expression} (h : Accepted settings query e) (htrim : query.trim = query)
    (hd : (e.tree settings.fieldMode).depth ≤ settings.toRules.levelsAt 0) :
    parse settings query = .ok (rooted (e.tree settings.fieldMode)) := by
  apply parse_of_derivation hk (requireBalance_eq_ok_iff.mpr h.balanced) h.clean _ h.readable hd
  rw [itemsOf, htrim, h.items]

/-! ### Composition -/

private theorem ofText_separator {c : Connective} (hc : c.isKnown = true) (u : Text) :
    Item.ofText (' ' :: (c.keyword ++ ' ' :: '(' :: u)) = .keyword c :: Item.ofText ('(' :: u) := by
  rw [Item.ofText, Lexeme.ofText, Lexeme.scan_separator hc, Lexeme.lexemes_mk_nil,
    Node.ofLexemes_words hc]
  · rfl
  · intro _
    rw [Lexeme.scan_opening, Lexeme.lexemes_mk_nil]
    simp

private theorem separator_plain {c : Connective} (hc : c.isKnown = true) :
    Balanced (' ' :: (c.keyword ++ [' '])) ∧ hasReserved (' ' :: (c.keyword ++ [' '])) = false ∧
      (' ' :: (c.keyword ++ [' '])).count '"' = 0 := by
  refine ⟨balanced_of_not_mem ?_ ?_, ?_, ?_⟩
  all_goals
    cases c with
    | other word => simp [Connective.isKnown] at hc
    | _ => decide

private theorem hasReserved_append (s t : Text) :
    hasReserved (s ++ t) = (hasReserved s || hasReserved t) := List.any_append

private theorem hasReserved_bracketed (t : Text) : hasReserved t.bracketed = hasReserved t := by
  have hopen : hasReserved ['('] = false := by decide
  have hclose : hasReserved [')'] = false := by decide
  have htext : t.bracketed = ['('] ++ (t ++ [')']) := rfl
  rw [htext, hasReserved_append, hasReserved_append, hopen, hclose, Bool.false_or, Bool.or_false]

private theorem count_quote_bracketed (t : Text) : t.bracketed.count '"' = t.count '"' := by
  simp [Text.bracketed, List.count_append]

private theorem Accepted.bracketed {query : Text} {e : Expression}
    (h : Accepted settings query e) : Accepted settings query.bracketed (.last (.bracketed e)) where
  balanced := h.balanced.bracketed
  clean := by rw [hasReserved_bracketed, h.clean]
  even := by rw [count_quote_bracketed, h.even]
  items := by
    have htext := Item.ofText_bracketed_append h.even []
    rw [List.append_nil] at htext
    rw [htext, Item.joinOperands_bracketed _ _ (by simp [Item.ofText, Lexeme.ofText, Lexeme.scan,
      Lexeme.Cut.lexemes, Item.ofLexemes]), ← h.items]
    rfl
  readable := by
    intro u hu
    apply h.readable u
    simpa [Expression.items, Operand.items] using hu

private theorem Accepted.join {c : Connective} (hc : c.isKnown = true) {query u : Text}
    {e f : Expression} (h : Accepted settings query e) (h' : Accepted settings ('(' :: u) f) :
    Accepted settings (query.bracketed ++ (' ' :: (c.keyword ++ [' ']) ++ '(' :: u))
      (.join (.bracketed e) c f) where
  balanced := h.balanced.bracketed.append ((separator_plain hc).1.append h'.balanced)
  clean := by
    rw [hasReserved_append, hasReserved_append, hasReserved_bracketed, h.clean,
      (separator_plain hc).2.1, h'.clean]
    rfl
  even := by
    have hfirst := h.even
    have hrest := h'.even
    rw [List.count_append, List.count_append, count_quote_bracketed, (separator_plain hc).2.2]
    omega
  items := by
    have htext : ' ' :: (c.keyword ++ [' ']) ++ '(' :: u =
        ' ' :: (c.keyword ++ ' ' :: '(' :: u) := by
      simp
    have hkeyword := Item.joinOperands_append settings.implicit [.keyword c]
      (Item.ofText ('(' :: u)) (by simp [Item.closesOperand])
    rw [List.singleton_append] at hkeyword
    rw [htext, Item.ofText_bracketed_append h.even, ofText_separator hc,
      Item.joinOperands_bracketed _ _ (by simp [Item.opensOperand]), hkeyword, ← h.items,
      ← h'.items]
    simp [Expression.items, Operand.items, Item.joinOperands]
  readable := by
    intro v hv
    simp only [Expression.items, Operand.items, List.mem_append, List.mem_cons, reduceCtorEq,
      List.not_mem_nil, false_or, or_false] at hv
    rcases hv with hv | hv
    · exact h.readable v hv
    · exact h'.readable v hv

private theorem composed_cons (c : Connective) (q r : Text) (rs : List Text) :
    c.composed (q :: r :: rs) =
      q.bracketed ++ (' ' :: (c.keyword ++ [' ']) ++ c.composed (r :: rs)) := by
  simp [Connective.composed, List.intercalate, List.intersperse_cons_cons]

private theorem composed_eq (c : Connective) (q : Text) (qs : List Text) :
    ∃ u, c.composed (q :: qs) = '(' :: (u ++ [')']) := by
  induction qs generalizing q with
  | nil => exact ⟨q, by simp [Connective.composed, List.intercalate, Text.bracketed]⟩
  | cons r rs ih =>
    obtain ⟨u, hu⟩ := ih r
    rw [composed_cons, hu]
    exact ⟨q ++ [')'] ++ (' ' :: (c.keyword ++ [' ']) ++ '(' :: u), by simp [Text.bracketed]⟩

private theorem accepted_composed {c : Connective} (hc : c.isKnown = true) {q : Text}
    {e : Expression} {qs : List Text} {es : List Expression} (h : Accepted settings q e)
    (hs : List.Forall₂ (Accepted settings) qs es) :
    Accepted settings (c.composed (q :: qs)) (.uniform c (.bracketed e) (es.map .bracketed)) := by
  induction hs generalizing q e with
  | nil =>
    have htext : c.composed [q] = q.bracketed := by simp [Connective.composed, List.intercalate]
    rw [htext]
    exact h.bracketed
  | @cons r f rs fs hr _ ih =>
    obtain ⟨u, hu⟩ := composed_eq c r rs
    have hrest := ih hr
    rw [hu] at hrest
    rw [composed_cons, hu]
    exact h.join hc hrest

theorem parse_bracketed (hk : settings.implicit.isKnown = true) {query : Text} {n : Node}
    (htrim : query.trim = query) (h : parse settings query = .ok n) :
    parse settings query.bracketed = .ok n := by
  obtain ⟨e, he, _, hn, hd⟩ := accepted_of_parse hk htrim h
  have hb := he.bracketed.parse hk (trim_eq_self _ (by decide) (by decide))
    (by rw [Expression.tree_bracketed]; exact hd)
  rw [hb, Expression.tree_bracketed, hn]

private theorem exists_accepted (hk : settings.implicit.isKnown = true) {qs : List Text}
    {ts : List Node} (h : List.Forall₂ (fun q t => q.trim = q ∧ parse settings q = .ok t) qs ts) :
    ∃ es : List Expression, List.Forall₂ (Accepted settings) qs es ∧
      es.map (Expression.tree settings.fieldMode) = ts.map Node.unrooted := by
  induction h with
  | nil => exact ⟨[], .nil, rfl⟩
  | @cons q t qs ts hq _ ih =>
    obtain ⟨es, hes, htrees⟩ := ih
    obtain ⟨e, he, ht, _⟩ := accepted_of_parse hk hq.1 hq.2
    exact ⟨e :: es, .cons he hes, by rw [List.map_cons, List.map_cons, ht, htrees]⟩

private theorem parse_composed (hk : settings.implicit.isKnown = true) {c : Connective}
    (hc : c.isKnown = true) {qs : List Text} {ts : List Node}
    (h : List.Forall₂ (fun q t => q.trim = q ∧ parse settings q = .ok t) qs ts)
    (hlen : 2 ≤ qs.length) {m : Nat} (hm : settings.toRules.levelsAt 0 = m + 1)
    (hd : ∀ t ∈ ts, t.unrooted.depth ≤ m) :
    parse settings (c.composed qs) = .ok (.group c (ts.map Node.unrooted)) := by
  obtain ⟨es, hes, htrees⟩ := exists_accepted hk h
  obtain ⟨q, r, rs, rfl⟩ : ∃ q r rs, qs = q :: r :: rs := by
    match qs, hlen with
    | q :: r :: rs, _ => exact ⟨q, r, rs, rfl⟩
  cases hes with
  | @cons _ e _ es hq hrest =>
    have hne : es ≠ [] := by
      rintro rfl
      cases hrest
    have hnode : Operand.node settings.fieldMode ∘ Operand.bracketed =
        Expression.tree settings.fieldMode := by
      funext o
      rw [Function.comp_apply, ← Expression.tree_last, Expression.tree_bracketed]
    have htree : Expression.tree settings.fieldMode
        (.uniform c (.bracketed e) (es.map .bracketed)) = .group c (ts.map Node.unrooted) := by
      rw [Expression.tree_uniform hc (by simpa using hne), ← List.map_cons, List.map_map, hnode,
        htrees]
    obtain ⟨u, hu⟩ := composed_eq c q (r :: rs)
    have hparse := (accepted_composed hc hq hrest).parse hk
      (by rw [hu]; exact trim_eq_self u (by decide) (by decide)) (by
        rw [htree, hm]
        apply Node.depth_group_le_iff.mpr
        intro x hx
        obtain ⟨t, ht, rfl⟩ := List.mem_map.mp hx
        exact hd t ht)
    rw [hparse, htree]
    rfl

end Query

namespace Configuration

/-- Accepted queries compose. Any number of brackets around one of them leaves its tree as it is;
several of them in brackets, with a keyword between any two neighbours, make the group of their
nodes if one more level fits. -/
theorem parse_composition {c : Configuration} (hc : c.check = .ok ()) :
    (∀ (query : Text) (t : Node), query.trim = query → c.parse query = .ok t →
      ∀ pairs : Nat, c.parse (Text.bracketed^[pairs] query) = .ok t) ∧
    ∀ (d : Connective) (qs : List Text) (ts : List Node), d.isKnown = true → 2 ≤ qs.length →
      List.Forall₂ (fun q t => q.trim = q ∧ c.parse q = .ok t) qs ts →
      (∀ t ∈ ts, (t.unrooted.depth : Int) ≤ c.maxDepth - 1) →
        c.parse (d.composed qs) = .ok (.group d (ts.map Node.unrooted)) := by
  obtain ⟨hpos, hk, _, _⟩ := check_eq_ok_iff.mp hc
  constructor
  · intro query t htrim h pairs
    have hboth : (Text.bracketed^[pairs] query).trim = Text.bracketed^[pairs] query ∧
        c.parse (Text.bracketed^[pairs] query) = .ok t := by
      induction pairs with
      | zero => exact ⟨htrim, h⟩
      | succ pairs ih =>
        rw [Function.iterate_succ_apply']
        exact ⟨trim_eq_self _ (by decide) (by decide), Query.parse_bracketed hk ih.1 ih.2⟩
    exact hboth.2
  · intro d qs ts hd hlen h hdepth
    apply Query.parse_composed hk hd h hlen (m := (c.maxDepth - 1).toNat)
    · simp only [settings, Query.Rules.levelsAt]
      omega
    · intro t ht
      have hle := hdepth t ht
      omega

theorem parse_composition_quoted_brackets :
    standard.parse "((NOT \"(\" x:\")\"))".toList =
      .ok (.group .and [.leaf ⟨[], "NOT".toList, false⟩, .leaf ⟨[], "(".toList, true⟩,
        .leaf ⟨"x".toList, ")".toList, true⟩]) ∧
    standard.parse "(NOT \"(\" x:\")\") AND NOT (a)".toList =
      .ok (.group .andNot
        [.group .and [.leaf ⟨[], "NOT".toList, false⟩, .leaf ⟨[], "(".toList, true⟩,
          .leaf ⟨"x".toList, ")".toList, true⟩],
        .leaf ⟨[], "a".toList, false⟩]) := by
  have hfirst : standard.parse "NOT \"(\" x:\")\"".toList =
      .ok (.group .and [.leaf ⟨[], "NOT".toList, false⟩, .leaf ⟨[], "(".toList, true⟩,
        .leaf ⟨"x".toList, ")".toList, true⟩]) := by
    decide +kernel
  have hsecond : standard.parse "a".toList = .ok (.term ⟨[], "a".toList, false⟩) := by
    decide +kernel
  obtain ⟨hone, hseveral⟩ := parse_composition (c := standard) rfl
  refine ⟨hone _ _ (by decide) hfirst 2, ?_⟩
  apply hseveral .andNot _ _ rfl (by decide)
    (.cons ⟨by decide, hfirst⟩ (.cons ⟨by decide, hsecond⟩ .nil))
  decide

end Configuration

end BooleanSearch
