import BooleanSearch.Proofs.ScanStates
import BooleanSearch.Proofs.SpelledItems

/-!
# Signs of normalized text

The brackets and the reserved characters that normalized text shows outside quotes are the brackets
and the keywords of the query, in order, and no reserved character stands inside quotes. The items
were cut word by word while a scan goes by single quotes; the two agree because only the last term
may leave a quote open, so that a scan is outside quotes where an item begins.
-/

namespace BooleanSearch

open Text Segment

/-- Tells whether a character is a bracket or a reserved character. -/
def isSign (c : Char) : Bool := c = '(' ∨ c = ')' ∨ c ∈ Connective.symbols

def Segment.Place.sign? (x : Place) : Option Char :=
  if x.standing.quoted = false ∧ isSign x.char then some x.char else none

namespace Item

def sign? : Item → Option Char
  | term _ => none
  | opening => some '('
  | closing => some ')'
  | keyword c => some c.symbol

/-- Tells that an item can be told from the text around it: a term leaves its quotes closed unless
it comes last, and holds no reserved character. -/
def Fits (last : Bool) : Item → Prop
  | term u => Lexeme.Unbroken last false u ∧ ∀ c ∈ u, c ∉ Connective.symbols
  | opening => True
  | closing => True
  | keyword c => c.isKnown = true

def Fit : List Item → Prop
  | [] => True
  | i :: is => i.Fits is.head?.isNone ∧ Fit is

theorem ReadsBefore.fits {next : Option Item} {i : Item} (h : i.ReadsBefore next)
    (hclean : ∀ u, i = term u → ∀ c ∈ u, c ∉ Connective.symbols) : i.Fits next.isNone := by
  cases i with
  | term u => exact ⟨h.2.2.2, hclean u rfl⟩
  | opening => trivial
  | closing => trivial
  | keyword c => exact h.1

theorem fit_joinOperands {c : Connective} (hc : c.isKnown = true) {is : List Item}
    (h : ReadsBack is) (hclean : ∀ u, term u ∈ is → ∀ c ∈ u, c ∉ Connective.symbols) :
    Fit (joinOperands c is) := by
  have hfits {i : Item} {rest : List Item} {last : Bool} (h : ReadsBack (i :: rest))
      (hclean : ∀ u, term u ∈ i :: rest → ∀ c ∈ u, c ∉ Connective.symbols)
      (hlast : last = rest.head?.isNone) : i.Fits last := by
    subst hlast
    exact h.1.fits fun u hu => hclean u (by simp [hu])
  fun_induction joinOperands c is with
  | case1 => trivial
  | case2 i => exact ⟨hfits h hclean rfl, trivial⟩
  | case3 i j rest hij ih =>
    have hrest := ih h.2 fun u hu => hclean u (List.mem_cons_of_mem i hu)
    exact ⟨hfits h hclean rfl, hc, hrest⟩
  | case4 i j rest hij ih =>
    have hrest := ih h.2 fun u hu => hclean u (List.mem_cons_of_mem i hu)
    exact ⟨hfits h hclean (by rw [Query.head?_joinOperands]), hrest⟩

end Item

namespace Segment

open Standing

/-! ### Words -/

theorem outside_step {p : Char → Prop} {q : Standing} {c : Char} {w : Text}
    (h : Outside p q.quoted (c :: w)) : Outside p (q.step c).quoted w := by
  rw [quoted_step]
  by_cases hc : c = '"'
  · subst hc
    exact outside_quote.mp h
  · rw [if_neg hc]
    cases hq : q.quoted with
    | true => exact (outside_cons_quoted hc).mp (hq ▸ h)
    | false => exact ((outside_cons_unquoted hc).mp (hq ▸ h)).2

theorem quoted_after_of_outside {p : Char → Prop} {q : Standing} {w : Text}
    (h : Outside p q.quoted w) : (q.after w).quoted = false := by
  induction w generalizing q with
  | nil => exact h
  | cons c w ih => exact ih (outside_step h)

theorem of_outside {p : Char → Prop} {q : Standing} {offset : Nat} {w : Text}
    (h : Outside p q.quoted w) {x : Place} (hx : x ∈ places q offset w)
    (hquoted : x.standing.quoted = false) (hquote : x.char ≠ '"') : p x.char := by
  induction w generalizing q offset with
  | nil => simp [places] at hx
  | cons c w ih =>
    rcases List.mem_cons.mp hx with rfl | hx
    · exact ((outside_cons_unquoted hquote).mp (hquoted ▸ h)).1
    · exact ih (outside_step h) hx

theorem char_mem_of_mem_places {q : Standing} {offset : Nat} {t : Text} {x : Place}
    (hx : x ∈ places q offset t) : x.char ∈ t := by
  induction t generalizing q offset with
  | nil => simp [places] at hx
  | cons c t ih =>
    rcases List.mem_cons.mp hx with rfl | hx
    · exact List.mem_cons_self
    · exact List.mem_cons_of_mem c (ih hx)

theorem sign?_of_unbroken {last : Bool} {q : Standing} {offset : Nat} {w : Text}
    (h : Lexeme.Unbroken last q.quoted w) (hclean : ∀ c ∈ w, c ∉ Connective.symbols) {x : Place}
    (hx : x ∈ places q offset w) : x.sign? = none := by
  have hword (hquoted : x.standing.quoted = false) (hquote : x.char ≠ '"') : WordChar x.char := by
    rcases h with hclosed | ⟨_, hopen⟩
    · exact of_outside hclosed hx hquoted hquote
    · have hplace : x ∈ places q offset (w ++ ['"']) := by
        rw [places_append]
        exact List.mem_append_left _ hx
      exact of_outside hopen hplace hquoted hquote
  rw [Place.sign?, if_neg]
  rintro ⟨hquoted, hsign⟩
  have hreserved := hclean _ (char_mem_of_mem_places hx)
  simp only [isSign, decide_eq_true_eq] at hsign
  have hquote : x.char ≠ '"' := by
    intro he
    rw [he] at hsign
    exact absurd hsign (by decide)
  obtain ⟨_, hopening, hclosing⟩ := hword hquoted hquote
  rcases hsign with hsign | hsign | hsign
  · exact hopening hsign
  · exact hclosing hsign
  · exact hreserved hsign

/-! ### Items -/

/-- What the places of a text show: some signs, and every reserved character outside quotes. -/
structure Shows (xs : List Place) (signs : List Char) : Prop where
  signs : xs.filterMap Place.sign? = signs
  reserved : ∀ x ∈ xs, x.char ∈ Connective.symbols → x.standing.quoted = false

theorem Shows.append {xs ys : List Place} {cs ds : List Char} (hx : Shows xs cs)
    (hy : Shows ys ds) : Shows (xs ++ ys) (cs ++ ds) where
  signs := by rw [List.filterMap_append, hx.signs, hy.signs]
  reserved := List.forall_mem_append.mpr ⟨hx.reserved, hy.reserved⟩

theorem Shows.single {q : Standing} (hq : q.quoted = false) {c : Char} (hc : isSign c = true)
    (offset : Nat) : Shows (places q offset [c]) [c] where
  signs := by simp [places, Place.sign?, hq, hc]
  reserved := by simp [places, hq]

section

variable {q : Standing}

theorem shows_glyph (hq : q.quoted = false) {i : Item} {last : Bool} (h : i.Fits last)
    (offset : Nat) : Shows (places q offset i.glyph) i.sign?.toList := by
  cases i with
  | term u =>
    obtain ⟨hunbroken, hclean⟩ := h
    constructor
    · refine List.filterMap_eq_nil_iff.mpr fun x hx => ?_
      exact sign?_of_unbroken (hq ▸ hunbroken) hclean hx
    · intro x hx hreserved
      exact absurd hreserved (hclean _ (char_mem_of_mem_places hx))
  | opening => exact .single hq rfl offset
  | closing => exact .single hq rfl offset
  | keyword c =>
    have hsign : isSign c.symbol = true := by simp [isSign, Connective.symbol_mem h]
    exact .single hq hsign offset

theorem quoted_after_glyph (hq : q.quoted = false) {i : Item} (h : i.Fits false) :
    (q.after i.glyph).quoted = false := by
  cases i with
  | term u =>
    obtain ⟨hclosed | ⟨hlast, _⟩, _⟩ := h
    · exact quoted_after_of_outside (hq ▸ hclosed)
    · cases hlast
  | opening => exact (quoted_step q '(').trans hq
  | closing => exact (quoted_step q ')').trans hq
  | keyword c => exact (congrArg Standing.quoted (step_symbol q c)).trans hq

theorem shows_gap (hq : q.quoted = false) (i j : Item) (offset : Nat) :
    Shows (places q offset (Item.gapBetween i j)) [] ∧
      (q.after (Item.gapBetween i j)).quoted = false := by
  rw [Item.gapBetween]
  split_ifs
  · exact ⟨⟨rfl, by simp [places]⟩, hq⟩
  · have hspace : isSign ' ' = false := by decide
    refine ⟨⟨?_, ?_⟩, (quoted_step q ' ').trans hq⟩
    · simp [places, Place.sign?, hspace]
    · simp [places, hq]

/-- The places of normalized text show the signs of its items. -/
theorem shows_render (hq : q.quoted = false) {is : List Item} (h : Item.Fit is) (offset : Nat) :
    Shows (places q offset (Item.render is)) (is.flatMap fun i => i.sign?.toList) := by
  fun_induction Item.render is generalizing q offset with
  | case1 => exact ⟨rfl, by simp [places]⟩
  | case2 i => simpa using shows_glyph hq h.1 offset
  | case3 i j rest ih =>
    obtain ⟨hgap, hafter⟩ := shows_gap (quoted_after_glyph hq h.1) i j (offset + byteSize i.glyph)
    rw [places_append, places_append, List.flatMap_cons]
    exact (shows_glyph hq h.1 offset).append (hgap.append (ih hafter h.2 _))

end

end Segment

namespace Query

open Segment

/-- The scans of normalized text and the items of its query agree on what is quoted. The brackets
and reserved characters that a scan shows outside quotes are the signs of the items in order, and no
reserved character stands inside quotes, also where a quote is left open. The offsets at which the
text is split, closed or cut at a character are those of the places that this scan shows. -/
theorem signs_of_normalize {implicit : Connective} (hk : implicit.isKnown = true) {query s : Text}
    (h : normalize implicit query = .ok s) :
    (places .start 0 s).filterMap Place.sign? = (itemsOf implicit query).filterMap Item.sign? ∧
      (∀ x ∈ places .start 0 s, x.char ∈ Connective.symbols → x.standing.quoted = false) ∧
      (∀ c, splitPoints c s =
        ((places .start 0 s).filter (Place.splits c)).map Place.offset) ∧
      closingOffset? s = ((places .start 0 s).find? Place.closes).map Place.offset ∧
      ∀ mark, mark ≠ '"' →
        offsetUnquoted? mark s =
          ((places .start 0 s).find? (Place.shows mark)).map Place.offset := by
  obtain ⟨_, hreserved, _, rfl⟩ := normalize_eq_ok_iff.mp h
  have hfit : Item.Fit (itemsOf implicit query) := by
    apply Item.fit_joinOperands hk
    · exact Item.readsBack_ofLexemes (Lexeme.worded_ofText query.trim)
    · exact fun u hu => clean_of_mem_term hreserved hu
  have hshows := shows_render (q := .start) rfl hfit 0
  refine ⟨?_, hshows.reserved, fun c => splitPoints_eq c _, closingOffset?_eq _,
    fun mark hmark => offsetUnquoted?_eq hmark _⟩
  rw [hshows.signs, List.filterMap_eq_flatMap_toList]

theorem signs_of_normalize_open_quote :
    (.and : Connective).isKnown = true ∧
      normalize .and "x\"(\"y (b OR NOT c) \") OR d".toList =
        .ok "x\"(\"y \uE000 (b \uE003 c) \uE000 \") OR d".toList ∧
      (places .start 0 "x\"(\"y \uE000 (b \uE003 c) \uE000 \") OR d".toList).filterMap Place.sign? =
        ['\uE000', '(', '\uE003', ')', '\uE000'] := by
  have h : normalize .and "x\"(\"y (b OR NOT c) \") OR d".toList =
      .ok "x\"(\"y \uE000 (b \uE003 c) \uE000 \") OR d".toList := by decide +kernel
  refine ⟨rfl, h, (signs_of_normalize rfl h).1.trans ?_⟩
  decide +kernel

end Query

end BooleanSearch
