import BooleanSearch.Proofs.SpelledItems

/-!
# Implicit connectives written out

An accepted query can be written with the implied connectives in place. Its items are then the same
and none is left to imply, so it has the same normalized text under every implicit connective, and
the same tree.
-/

namespace BooleanSearch

open Text

/-! ### Brackets and reserved characters -/

/-- Tells that a class of characters has neither spaces nor letters of keywords in it. -/
structure Marks (p : Char → Bool) : Prop where
  space : ∀ c, isSpace c = true → p c = false
  keyword : ∀ c : Connective, c.isKnown = true → c.keyword.filter p = []

section

variable {p : Char → Bool} (hp : Marks p)

include hp

private theorem filter_flatMap_text_scan (quoted : Bool) (t : Text) :
    ((Lexeme.scan quoted t).lexemes.flatMap Lexeme.text).filter p = t.filter p := by
  have hkeep {c : Char} {s cs : Text} (ih : s.filter p = cs.filter p) :
      (c :: s).filter p = (c :: cs).filter p := by
    rw [List.filter_cons, List.filter_cons, ih]
  fun_induction Lexeme.scan quoted t with
  | case1 => rfl
  | case2 quoted cs ih => rw [Lexeme.flatMap_text_extend, hkeep ih]
  | case3 c cs hq ih => rw [Lexeme.flatMap_text_extend, hkeep ih]
  | case4 quoted c cs hq hquoted hb ih =>
    rw [List.filter_cons_of_neg (by simp [hp.space c (isSpace_of_isBlank hb)])]
    exact ih
  | case5 quoted cs hquoted hq hb ih => exact hkeep ih
  | case6 quoted cs hquoted hq hb ho ih => exact hkeep ih
  | case7 quoted c cs hq hquoted hb ho hcl ih => rw [Lexeme.flatMap_text_extend, hkeep ih]

private theorem filter_flatMap_text_ofLexemes (ls : List Lexeme) :
    ((Item.ofLexemes ls).flatMap Item.text).filter p = (ls.flatMap Lexeme.text).filter p := by
  have hstep {i : Item} {later : List Lexeme} (read : List Lexeme)
      (hi : i.text.filter p = (read.flatMap Lexeme.text).filter p)
      (ih : ((Item.ofLexemes later).flatMap Item.text).filter p =
        (later.flatMap Lexeme.text).filter p) :
      ((i :: Item.ofLexemes later).flatMap Item.text).filter p =
        ((read ++ later).flatMap Lexeme.text).filter p := by
    rw [List.flatMap_cons, List.filter_append, ih, List.flatMap_append, List.filter_append, hi]
  have hplain {w : Text} {c : Connective} (hw : Item.connective? w = some c) :
      (Item.keyword c).text.filter p = ([.word w].flatMap Lexeme.text).filter p := by
    obtain ⟨rfl, _⟩ := Item.connective?_eq_some hw
    rw [List.flatMap_singleton]
    rfl
  have hnegated {w : Text} {c : Connective} (hw : Item.connective? w = some c) :
      (Item.keyword c.withNot).text.filter p =
        ([.word w, .word "NOT".toList].flatMap Lexeme.text).filter p := by
    have hsplit : (Item.keyword c.withNot).text = w ++ ' ' :: "NOT".toList := by
      obtain ⟨rfl, rfl | rfl⟩ := Item.connective?_eq_some hw <;> rfl
    rw [hsplit, List.filter_append, List.filter_cons_of_neg (by simp [hp.space ' ' (by decide)]),
      List.flatMap_cons, List.flatMap_singleton, List.filter_append]
    rfl
  fun_induction Item.ofLexemes ls with
  | case1 => rfl
  | case2 rest ih => exact hstep [.opening] rfl ih
  | case3 rest ih => exact hstep [.closing] rfl ih
  | case4 w rest hw ih =>
    refine hstep [.word w] ?_ ih
    rw [Item.text, filter_squeeze fun c hc => hp.space c (isSpace_of_isBlank hc),
      List.flatMap_singleton]
    rfl
  | case5 w c hw later ih => exact hstep [.word w, .word "NOT".toList] (hnegated hw) ih
  | case6 w c hw v later hv ih => exact hstep [.word w] (hplain hw) ih
  | case7 w c hw later ih => exact hstep [.word w] (hplain hw) ih
  | case8 w c hw later ih => exact hstep [.word w] (hplain hw) ih
  | case9 w c hw =>
    rw [List.flatMap_singleton]
    exact hplain hw

private theorem filter_flatMap_text_joinOperands {implicit : Connective}
    (hk : implicit.isKnown = true) (is : List Item) :
    ((Item.joinOperands implicit is).flatMap Item.text).filter p =
      (is.flatMap Item.text).filter p := by
  fun_induction Item.joinOperands implicit is with
  | case1 => rfl
  | case2 i => rfl
  | case3 i j rest hij ih =>
    rw [List.flatMap_cons, List.flatMap_cons, List.filter_append, List.filter_append, ih, Item.text,
      hp.keyword implicit hk, List.nil_append, ← List.filter_append, ← List.flatMap_cons]
  | case4 i j rest hij ih =>
    rw [List.flatMap_cons, List.filter_append, ih, ← List.filter_append, ← List.flatMap_cons]

private theorem filter_spelledOut (is : List Item) :
    (Item.spelledOut is).filter p = (is.flatMap Item.text).filter p := by
  fun_induction Item.spelledOut is with
  | case1 => rfl
  | case2 i => simp
  | case3 i j rest ih =>
    rw [List.filter_append, List.filter_cons_of_neg (by simp [hp.space ' ' (by decide)]), ih,
      ← List.filter_append, ← List.flatMap_cons]

theorem filter_spelledOut_itemsOf {implicit : Connective} (hk : implicit.isKnown = true)
    (query : Text) :
    (Item.spelledOut (Query.itemsOf implicit query)).filter p = query.filter p := by
  rw [filter_spelledOut hp, Query.itemsOf, filter_flatMap_text_joinOperands hp hk, Item.ofText,
    filter_flatMap_text_ofLexemes hp, Lexeme.ofText, filter_flatMap_text_scan hp,
    filter_trim hp.space]

end

namespace Query

/-! ### Normalizing and parsing -/

private theorem marks_brackets : Marks fun c => c == '(' || c == ')' where
  space c hc := by
    rw [Bool.or_eq_false_iff, beq_eq_false_iff_ne, beq_eq_false_iff_ne]
    constructor
    all_goals
      rintro rfl
      exact absurd hc (by decide)
  keyword c hc := by
    cases c with
    | other word => simp [Connective.isKnown] at hc
    | _ => decide

private theorem marks_reserved : Marks fun c => Connective.symbols.contains c where
  space c hc := by
    rw [← Bool.not_eq_true, List.contains_iff_mem]
    intro hreserved
    simp [isSpace_reserved hreserved] at hc
  keyword c hc := by
    cases c with
    | other word => simp [Connective.isKnown] at hc
    | _ => decide

private theorem hasReserved_eq_false_iff_filter {t : Text} :
    hasReserved t = false ↔ t.filter (fun c => Connective.symbols.contains c) = [] := by
  rw [hasReserved, List.any_eq_false, List.filter_eq_nil_iff]

theorem normalize_spelledOut {implicit : Connective} (hk : implicit.isKnown = true)
    {query s : Text} (h : normalize implicit query = .ok s)
    (hnot : .term "NOT".toList ∉ Item.joined (Item.ofText query.trim)) (other : Connective) :
    normalize other (Item.spelledOut (itemsOf implicit query)) = .ok s := by
  obtain ⟨hb, hr, ho, hs⟩ := normalize_eq_ok_iff.mp h
  have hback : Item.ReadsBack (itemsOf implicit query) :=
    Item.readsBack_joinOperands hk (Item.readsBack_ofLexemes (Lexeme.worded_ofText _)) hnot
  have hitems : Item.ofText (Item.spelledOut (itemsOf implicit query)).trim =
      itemsOf implicit query := by
    rw [trim_spelledOut ho, Item.ofText_spelledOut hback]
  have hjoined : itemsOf other (Item.spelledOut (itemsOf implicit query)) =
      itemsOf implicit query := by
    rw [itemsOf, hitems]
    exact joinOperands_eq_self other (joinOperands_apart implicit _)
  have hbrackets := requireBalance_congr (filter_spelledOut_itemsOf marks_brackets hk query)
  rw [hb] at hbrackets
  refine normalize_eq_ok_iff.mpr ⟨mapError_eq_ok.mp hbrackets, ?_, ?_, ?_⟩
  · rw [hasReserved_eq_false_iff_filter, filter_spelledOut_itemsOf marks_reserved hk]
    exact hasReserved_eq_false_iff_filter.mp hr
  · rw [hitems, refuseOuterKeywords, itemsOf, head?_joinOperands, getLast?_joinOperands]
    exact ho
  · rw [hjoined, hs]

end Query

namespace Configuration

open Query

/-- Writing the implicit connective out changes nothing. The items of an accepted query, with the
implied keywords among them and a space between any two, are normalized to the same text whatever is
implied, and so are parsed to the same tree. Only an implied keyword before a bare `NOT` would be
read together with it. -/
theorem outcome_of_spelledOut (c : Configuration) {implicit : Connective}
    (hc : implicit = .and ∨ implicit = .or) {query s : Text} (h : normalize implicit query = .ok s)
    (hnot : .term "NOT".toList ∉ Item.joined (Item.ofText query.trim)) (other : Connective) :
    normalize other (Item.spelledOut (itemsOf implicit query)) = .ok s ∧
      { c with defaultConnective := other }.parse (Item.spelledOut (itemsOf implicit query)) =
        { c with defaultConnective := implicit }.parse query := by
  have hk : implicit.isKnown = true := by
    rcases hc with rfl | rfl <;> rfl
  have hother := normalize_spelledOut hk h hnot other
  refine ⟨hother, ?_⟩
  simp only [Configuration.parse, Query.parse, prepare, settings, h, hother]

theorem outcome_of_spelledOut_open_quote :
    normalize .and "NOT (a AND NOT b)\"c \n d".toList =
        .ok ("NOT ".toList ++ Connective.and.symbol :: " (a ".toList ++
          Connective.andNot.symbol :: " b) ".toList ++ Connective.and.symbol :: " \"c d".toList) ∧
      Item.spelledOut (itemsOf .and "NOT (a AND NOT b)\"c \n d".toList) =
        "NOT AND ( a AND NOT b ) AND \"c d".toList ∧
      normalize .or "NOT AND ( a AND NOT b ) AND \"c d".toList =
        .ok ("NOT ".toList ++ Connective.and.symbol :: " (a ".toList ++
          Connective.andNot.symbol :: " b) ".toList ++
            Connective.and.symbol :: " \"c d".toList) := by
  have hnormal : normalize .and "NOT (a AND NOT b)\"c \n d".toList =
      .ok ("NOT ".toList ++ Connective.and.symbol :: " (a ".toList ++
        Connective.andNot.symbol :: " b) ".toList ++ Connective.and.symbol :: " \"c d".toList) := by
    decide +kernel
  have hspelled : Item.spelledOut (itemsOf .and "NOT (a AND NOT b)\"c \n d".toList) =
      "NOT AND ( a AND NOT b ) AND \"c d".toList := by
    decide +kernel
  have hnot : .term "NOT".toList ∉
      Item.joined (Item.ofText (trim "NOT (a AND NOT b)\"c \n d".toList)) := by
    decide +kernel
  have hmain := (outcome_of_spelledOut standard (.inl rfl) hnormal hnot .or).1
  rw [hspelled] at hmain
  exact ⟨hnormal, hspelled, hmain⟩

end Configuration

end BooleanSearch
