import BooleanSearch.Proofs.Spaces
import BooleanSearch.Query.Item

/-!
# Quoting

Each double quote toggles whether what follows is quoted. The words of a query hold blanks and
brackets inside quotes only, and each leaves its quotes closed if the query has an even number of
them. What is said here of the characters outside quotes survives trimming and squeezing.
-/

namespace BooleanSearch

open Text

/-- Tells that a text, read inside quotes if `quoted`, ends outside quotes and that every
character outside them satisfies `p`. -/
def Outside (p : Char → Prop) (quoted : Bool) : Text → Prop
  | [] => quoted = false
  | c :: cs =>
    if c = '"' then Outside p (!quoted) cs
    else if quoted then Outside p true cs
    else p c ∧ Outside p false cs

theorem Lexeme.parity_cons_quote (quoted : Bool) (t : Text) :
    (quoted.toNat + ('"' :: t).count '"') % 2 = ((!quoted).toNat + t.count '"') % 2 := by
  rw [List.count_cons_self]
  cases quoted <;> simp only [Bool.not_true, Bool.not_false, Bool.toNat_true, Bool.toNat_false] <;>
    omega

section

variable {p : Char → Prop}

theorem outside_quote {quoted : Bool} {t : Text} :
    Outside p quoted ('"' :: t) ↔ Outside p (!quoted) t := by
  simp [Outside]

theorem outside_cons_quoted {c : Char} (hc : c ≠ '"') {t : Text} :
    Outside p true (c :: t) ↔ Outside p true t := by
  simp [Outside, hc]

theorem outside_cons_unquoted {c : Char} (hc : c ≠ '"') {t : Text} :
    Outside p false (c :: t) ↔ p c ∧ Outside p false t := by
  simp [Outside, hc]

theorem Outside.mono {p' : Char → Prop} {quoted : Bool} {t : Text} (h : Outside p quoted t)
    (hp : ∀ c ∈ t, p c → p' c) : Outside p' quoted t := by
  induction t generalizing quoted with
  | nil => exact h
  | cons c t ih =>
    have hp' : ∀ d ∈ t, p d → p' d := fun d hd => hp d (List.mem_cons_of_mem c hd)
    by_cases hq : c = '"'
    · subst hq
      exact outside_quote.mpr (ih (outside_quote.mp h) hp')
    · cases quoted with
      | true => exact (outside_cons_quoted hq).mpr (ih ((outside_cons_quoted hq).mp h) hp')
      | false =>
        have hc := (outside_cons_unquoted hq).mp h
        exact (outside_cons_unquoted hq).mpr ⟨hp c (by simp) hc.1, ih hc.2 hp'⟩

private theorem Outside.even_from {quoted : Bool} {t : Text} (h : Outside p quoted t) :
    (quoted.toNat + t.count '"') % 2 = 0 := by
  induction t generalizing quoted with
  | nil =>
    obtain rfl : quoted = false := h
    rfl
  | cons c t ih =>
    by_cases hq : c = '"'
    · subst hq
      rw [Lexeme.parity_cons_quote]
      exact ih (outside_quote.mp h)
    · rw [List.count_cons_of_ne hq]
      cases quoted with
      | true => exact ih ((outside_cons_quoted hq).mp h)
      | false => exact ih ((outside_cons_unquoted hq).mp h).2

theorem Outside.even {t : Text} (h : Outside p false t) : t.count '"' % 2 = 0 := by
  simpa using h.even_from

private theorem ne_quote_of_isSpace {c : Char} (hc : isSpace c = true) : c ≠ '"' := by
  rintro rfl
  exact absurd hc (by decide)

theorem Outside.trimLeft {t : Text} (h : Outside p false t) : Outside p false (trimLeft t) := by
  induction t with
  | nil => exact h
  | cons c t ih =>
    cases hc : isSpace c with
    | true =>
      rw [Text.trimLeft, List.dropWhile_cons, if_pos hc]
      exact ih ((outside_cons_unquoted (ne_quote_of_isSpace hc)).mp h).2
    | false =>
      rw [Text.trimLeft, List.dropWhile_cons, if_neg (by simp [hc])]
      exact h

theorem Outside.trimRight {quoted : Bool} {t : Text} (h : Outside p quoted t) :
    Outside p quoted (trimRight t) := by
  induction t generalizing quoted with
  | nil => exact h
  | cons c t ih =>
    -- the state after `c` is the one in which the trimmed rest is read
    have hkeep : Outside p quoted (c :: Text.trimRight t) := by
      by_cases hq : c = '"'
      · subst hq
        exact outside_quote.mpr (ih (outside_quote.mp h))
      · cases quoted with
        | true => exact (outside_cons_quoted hq).mpr (ih ((outside_cons_quoted hq).mp h))
        | false =>
          have hc := (outside_cons_unquoted hq).mp h
          exact (outside_cons_unquoted hq).mpr ⟨hc.1, ih hc.2⟩
    cases hr : Text.trimRight t with
    | cons d ds => simpa [Text.trimRight, hr] using hkeep
    | nil =>
      rw [hr] at hkeep
      cases hc : isSpace c with
      | false => simpa [Text.trimRight, hr, hc] using hkeep
      | true =>
        rw [Text.trimRight, hr]
        simp only [hc, if_true]
        cases quoted with
        | true =>
          have hnil := (outside_cons_quoted (ne_quote_of_isSpace hc)).mp hkeep
          simp [Outside] at hnil
        | false => rfl

theorem Outside.trim {t : Text} (h : Outside p false t) : Outside p false (trim t) :=
  h.trimLeft.trimRight

theorem Outside.squeezeFrom (hp : ∀ c, p c → isBlank c = false) {quoted : Bool} {t : Text}
    (h : Outside p quoted t) (after : Bool) : Outside p quoted (squeezeFrom after t) := by
  induction t generalizing quoted after with
  | nil => exact h
  | cons c t ih =>
    rw [Text.squeezeFrom]
    by_cases hq : c = '"'
    · subst hq
      rw [if_neg (by decide)]
      exact outside_quote.mpr (ih (outside_quote.mp h) false)
    · cases quoted with
      | false =>
        have hc := (outside_cons_unquoted hq).mp h
        rw [if_neg (by simp [hp c hc.1])]
        exact (outside_cons_unquoted hq).mpr ⟨hc.1, ih hc.2 false⟩
      | true =>
        have hc := (outside_cons_quoted hq).mp h
        split_ifs
        · exact ih hc true
        · exact (outside_cons_quoted (by decide)).mpr (ih hc true)
        · exact (outside_cons_quoted hq).mpr (ih hc false)

end

/-- A character that a word may show outside quotes. -/
def WordChar (c : Char) : Prop := isBlank c = false ∧ c ≠ '(' ∧ c ≠ ')'

namespace Lexeme

def quotes : List Lexeme → Nat
  | [] => 0
  | opening :: ls => quotes ls
  | closing :: ls => quotes ls
  | word w :: ls => w.count '"' + quotes ls

theorem word_mem_lexemes {k : Cut} {w : Text} :
    word w ∈ k.lexemes ↔ (w = k.within ∧ w ≠ []) ∨ word w ∈ k.after := by
  rw [Cut.lexemes]
  split
  · next h => simp [h]
  · next c cs h =>
    rw [List.mem_cons, h, word.injEq]
    constructor
    · rintro (rfl | h')
      · exact Or.inl ⟨rfl, by simp⟩
      · exact Or.inr h'
    · rintro (h' | h')
      · exact Or.inl h'.1
      · exact Or.inr h'

private theorem quotes_lexemes (k : Cut) :
    quotes k.lexemes = k.within.count '"' + quotes k.after := by
  rw [Cut.lexemes]
  split
  · next h => simp [h]
  · next c cs h => simp [h, quotes]

private theorem quotes_scan (quoted : Bool) (t : Text) :
    (scan quoted t).within.count '"' + quotes (scan quoted t).after = t.count '"' := by
  induction t generalizing quoted with
  | nil => rfl
  | cons c t ih =>
    have hkeep (q : Bool) : ((scan q t).extend c).within.count '"' +
        quotes ((scan q t).extend c).after = (c :: t).count '"' := by
      have h := ih q
      simp only [Cut.extend, List.count_cons] at h ⊢
      omega
    have hcut (h : c ≠ '"') : quotes (scan quoted t).lexemes = (c :: t).count '"' := by
      rw [quotes_lexemes, ih, List.count_cons_of_ne h]
    rw [scan]
    split_ifs with h1 h2 h3 h4 h5
    · exact hkeep (!quoted)
    · exact hkeep quoted
    · simpa using hcut h1
    · simpa [quotes] using hcut h1
    · simpa [quotes] using hcut h1
    · exact hkeep quoted

theorem quotes_ofText (t : Text) : quotes (ofText t) = t.count '"' := by
  rw [ofText, quotes_lexemes, quotes_scan]

private theorem mem_of_mem_scan (quoted : Bool) (t : Text) (c : Char) :
    (c ∈ (scan quoted t).within → c ∈ t) ∧
      ∀ w, word w ∈ (scan quoted t).after → c ∈ w → c ∈ t := by
  induction t generalizing quoted with
  | nil => simp [scan]
  | cons d t ih =>
    have hkeep (q : Bool) : (c ∈ ((scan q t).extend d).within → c ∈ d :: t) ∧
        ∀ w, word w ∈ ((scan q t).extend d).after → c ∈ w → c ∈ d :: t := by
      refine ⟨?_, fun w hw hc => List.mem_cons_of_mem d ((ih q).2 w hw hc)⟩
      intro hc
      rcases List.mem_cons.mp hc with rfl | hc
      · simp
      · exact List.mem_cons_of_mem d ((ih q).1 hc)
    have hcut (w : Text) (hw : word w ∈ (scan quoted t).lexemes) (hc : c ∈ w) : c ∈ d :: t := by
      rcases word_mem_lexemes.mp hw with ⟨rfl, _⟩ | hw
      · exact List.mem_cons_of_mem d ((ih quoted).1 hc)
      · exact List.mem_cons_of_mem d ((ih quoted).2 w hw hc)
    rw [scan]
    split_ifs
    · exact hkeep (!quoted)
    · exact hkeep quoted
    · exact ⟨by simp, hcut⟩
    · exact ⟨by simp, by simpa using hcut⟩
    · exact ⟨by simp, by simpa using hcut⟩
    · exact hkeep quoted

theorem mem_of_mem_word {t w : Text} (hw : word w ∈ ofText t) {c : Char} (hc : c ∈ w) : c ∈ t := by
  rcases word_mem_lexemes.mp hw with ⟨rfl, _⟩ | hw
  · exact (mem_of_mem_scan false t c).1 hc
  · exact (mem_of_mem_scan false t c).2 w hw hc

/-- Tells that a text, read inside quotes if `quoted`, stays within one word. A word at the end of a
query may leave a quote open. -/
def Unbroken (atEnd quoted : Bool) (w : Text) : Prop :=
  Outside WordChar quoted w ∨ atEnd = true ∧ Outside WordChar quoted (w ++ ['"'])

theorem unbroken_quote {atEnd quoted : Bool} {w : Text} :
    Unbroken atEnd quoted ('"' :: w) ↔ Unbroken atEnd (!quoted) w := by
  rw [Unbroken, List.cons_append, outside_quote, outside_quote, Unbroken]

theorem unbroken_cons_quoted {atEnd : Bool} {c : Char} (hc : c ≠ '"') {w : Text} :
    Unbroken atEnd true (c :: w) ↔ Unbroken atEnd true w := by
  rw [Unbroken, List.cons_append, outside_cons_quoted hc, outside_cons_quoted hc, Unbroken]

theorem unbroken_cons_unquoted {atEnd : Bool} {c : Char} (hc : c ≠ '"') {w : Text} :
    Unbroken atEnd false (c :: w) ↔ WordChar c ∧ Unbroken atEnd false w := by
  rw [Unbroken, List.cons_append, outside_cons_unquoted hc, outside_cons_unquoted hc, Unbroken,
    and_left_comm, ← and_or_left]

def Worded : List Lexeme → Prop
  | [] => True
  | opening :: ls => Worded ls
  | closing :: ls => Worded ls
  | word w :: ls => w ≠ [] ∧ Unbroken ls.isEmpty false w ∧ Worded ls

private theorem worded_lexemes {k : Cut}
    (h : Unbroken k.after.isEmpty false k.within ∧ Worded k.after) : Worded k.lexemes := by
  rw [Cut.lexemes]
  cases hw : k.within with
  | nil => exact h.2
  | cons c w => exact ⟨by simp, hw ▸ h.1, h.2⟩

private theorem worded_scan (quoted : Bool) (t : Text) :
    Unbroken (scan quoted t).after.isEmpty quoted (scan quoted t).within ∧
      Worded (scan quoted t).after := by
  fun_induction scan quoted t with
  | case1 quoted =>
    cases quoted with
    | false => exact ⟨.inl rfl, trivial⟩
    | true => exact ⟨.inr ⟨rfl, by simp [Outside]⟩, trivial⟩
  | case2 quoted cs ih => exact ⟨unbroken_quote.mpr ih.1, ih.2⟩
  | case3 c cs hq ih => exact ⟨(unbroken_cons_quoted hq).mpr ih.1, ih.2⟩
  | case4 quoted c cs hq hquoted hb ih =>
    obtain rfl : quoted = false := by simpa using hquoted
    exact ⟨.inl rfl, worded_lexemes ih⟩
  | case5 quoted cs hquoted hq hb ih =>
    obtain rfl : quoted = false := by simpa using hquoted
    exact ⟨.inl rfl, worded_lexemes ih⟩
  | case6 quoted cs hquoted hq hb ho ih =>
    obtain rfl : quoted = false := by simpa using hquoted
    exact ⟨.inl rfl, worded_lexemes ih⟩
  | case7 quoted c cs hq hquoted hb ho hc ih =>
    obtain rfl : quoted = false := by simpa using hquoted
    exact ⟨(unbroken_cons_unquoted hq).mpr ⟨⟨by simpa using hb, ho, hc⟩, ih.1⟩, ih.2⟩

theorem worded_ofText (t : Text) : Worded (ofText t) := worded_lexemes (worded_scan false t)

private theorem Worded.outside {ls : List Lexeme} (h : Worded ls) (heven : quotes ls % 2 = 0)
    {w : Text} (hw : word w ∈ ls) : Outside WordChar false w := by
  induction ls with
  | nil => simp at hw
  | cons l ls ih =>
    cases l with
    | opening => exact ih h heven (by simpa using hw)
    | closing => exact ih h heven (by simpa using hw)
    | word v =>
      obtain ⟨_, hv, hls⟩ := h
      rw [quotes] at heven
      rcases hv with hclosed | ⟨hend, hopen⟩
      · have hcount := hclosed.even
        rcases List.mem_cons.mp hw with hwv | hw
        · exact word.inj hwv ▸ hclosed
        · exact ih hls (by omega) hw
      · -- the open word is the last one, so the quotes would be odd
        have hcount := hopen.even
        obtain rfl := List.isEmpty_iff.mp hend
        rw [List.count_append, List.count_singleton_self] at hcount
        rw [quotes] at heven
        omega

theorem outside_of_word {t w : Text} (heven : t.count '"' % 2 = 0) (hw : word w ∈ ofText t) :
    Outside WordChar false w :=
  (worded_ofText t).outside (by rwa [quotes_ofText]) hw

end Lexeme

namespace Item

def quotes : List Item → Nat
  | [] => 0
  | i :: is => i.glyph.count '"' + quotes is

@[simp] theorem quotes_nil : quotes [] = 0 := rfl

@[simp] theorem quotes_cons (i : Item) (is : List Item) :
    quotes (i :: is) = i.glyph.count '"' + quotes is := rfl

@[simp] theorem count_glyph_keyword (c : Connective) : (keyword c).glyph.count '"' = 0 := by
  cases c <;> rfl

theorem connective?_eq_some {w : Text} {c : Connective} (h : connective? w = some c) :
    w = c.keyword ∧ (c = .and ∨ c = .or) := by
  rw [connective?] at h
  split_ifs at h with h1 h2
  · obtain rfl := Option.some.inj h
    exact ⟨h1, Or.inl rfl⟩
  · obtain rfl := Option.some.inj h
    exact ⟨h2, Or.inr rfl⟩

private theorem count_quote_of_connective? {w : Text} {c : Connective}
    (h : connective? w = some c) : w.count '"' = 0 := by
  obtain ⟨rfl, rfl | rfl⟩ := connective?_eq_some h <;> decide

theorem quotes_ofLexemes (ls : List Lexeme) :
    quotes (ofLexemes ls) = Lexeme.quotes ls := by
  fun_induction ofLexemes ls with
  | case1 => rfl
  | case2 rest ih => simpa [glyph, text, Lexeme.quotes] using ih
  | case3 rest ih => simpa [glyph, text, Lexeme.quotes] using ih
  | case4 w rest hw ih =>
    simp [glyph, text, Lexeme.quotes, ih, count_squeeze (c := '"') (by decide)]
  | case5 w c hw later ih =>
    simp [Lexeme.quotes, ih, count_quote_of_connective? hw]
  | case6 w c hw v later hv ih =>
    rw [quotes_cons, ih]
    simp [Lexeme.quotes, count_quote_of_connective? hw]
  | case7 w c hw later ih =>
    rw [quotes_cons, ih]
    simp [Lexeme.quotes, count_quote_of_connective? hw]
  | case8 w c hw later ih =>
    rw [quotes_cons, ih]
    simp [Lexeme.quotes, count_quote_of_connective? hw]
  | case9 w c hw => simp [Lexeme.quotes, count_quote_of_connective? hw]

theorem quotes_joinOperands (c : Connective) (is : List Item) :
    quotes (joinOperands c is) = quotes is := by
  fun_induction joinOperands c is with
  | case1 => rfl
  | case2 i => rfl
  | case3 i j rest h ih => simp [ih]
  | case4 i j rest h ih => simp [ih]

theorem count_render (is : List Item) : (render is).count '"' = quotes is := by
  have hgap (i j : Item) : (gapBetween i j).count '"' = 0 := by
    rw [gapBetween]
    split_ifs <;> decide
  fun_induction render is with
  | case1 => rfl
  | case2 i => simp
  | case3 i j rest ih => rw [List.count_append, List.count_append, hgap, ih]; simp

theorem exists_word_of_term {ls : List Lexeme} {u : Text} (hu : term u ∈ ofLexemes ls) :
    ∃ w, .word w ∈ ls ∧ connective? w = none ∧ u = w.squeeze := by
  have hlater {l : Lexeme} {ls : List Lexeme}
      (h : ∃ w, .word w ∈ ls ∧ connective? w = none ∧ u = w.squeeze) :
      ∃ w, .word w ∈ l :: ls ∧ connective? w = none ∧ u = w.squeeze := by
    obtain ⟨w, hw, hrest⟩ := h
    exact ⟨w, List.mem_cons_of_mem l hw, hrest⟩
  fun_induction ofLexemes ls with
  | case1 => simp at hu
  | case2 rest ih => exact hlater (ih (by simpa using hu))
  | case3 rest ih => exact hlater (ih (by simpa using hu))
  | case4 w rest hw ih =>
    rcases List.mem_cons.mp hu with h | hu
    · exact ⟨w, by simp, hw, by simpa using h⟩
    · exact hlater (ih hu)
  | case5 w c hw later ih => exact hlater (hlater (ih (by simpa using hu)))
  | case6 w c hw v later hv ih => exact hlater (ih (by simpa using hu))
  | case7 w c hw later ih => exact hlater (ih (by simpa using hu))
  | case8 w c hw later ih => exact hlater (ih (by simpa using hu))
  | case9 w c hw => simp at hu

theorem term_mem_joinOperands {c : Connective} {is : List Item} {u : Text} :
    term u ∈ joinOperands c is ↔ term u ∈ is := by
  fun_induction joinOperands c is with
  | case1 => rfl
  | case2 i => rfl
  | case3 i j rest h ih => rw [List.mem_cons, List.mem_cons, ih, List.mem_cons]; simp
  | case4 i j rest h ih => rw [List.mem_cons, ih, ← List.mem_cons]

theorem mem_of_mem_term {t u : Text} (hu : term u ∈ ofText t) {c : Char} (hc : c ∈ u) :
    c ∈ t ∨ c = ' ' := by
  obtain ⟨w, hw, _, rfl⟩ := exists_word_of_term hu
  exact (mem_of_mem_squeezeFrom hc).imp_left (Lexeme.mem_of_mem_word hw)

/-- The terms of a query with an even number of quotes have their quotes closed, and blanks and
brackets inside quotes only. -/
theorem outside_of_term {t u : Text} (heven : t.count '"' % 2 = 0) (hu : term u ∈ ofText t) :
    Outside WordChar false u := by
  obtain ⟨w, hw, _, rfl⟩ := exists_word_of_term hu
  exact (Lexeme.outside_of_word heven hw).squeezeFrom (fun c hc => hc.1) false

end Item

end BooleanSearch
