import BooleanSearch.Proofs.Grammar
import BooleanSearch.Proofs.Scanning
import Mathlib.Data.List.Chain

/-!
# Texts that spell items

A text spells a sequence of items if it consists of their characters in order, with nothing but
spaces before, between and after them. Trimming, splitting at a connective and unwrapping brackets
act on such a text as they act on the items, whatever its terms hold inside quotes.
-/

namespace BooleanSearch

open Text Segment

def Item.core : Item → Text
  | .term t => t.trim
  | .opening => ['(']
  | .closing => [')']
  | .keyword c => [c.symbol]

/-- Tells that a text consists of the characters of the items with spaces around them. -/
inductive Spells : Text → List Item → Prop
  | nil {s : Text} (hs : AllSpace s) : Spells s []
  | cons {s t : Text} {i : Item} {is : List Item} (hs : AllSpace s) (ht : Spells t is) :
      Spells (s ++ (i.core ++ t)) (i :: is)

/-- Tells that a sequence of items can be read back from a text that spells it: scans pass over
its terms, its keywords are known and no two of its operands are neighbours. -/
structure Legible (is : List Item) : Prop where
  quiet : ∀ t, .term t ∈ is → Quiet false t.trim
  known : ∀ c, .keyword c ∈ is → c.isKnown = true
  apart : is.IsChain fun i j => ¬(i.closesOperand = true ∧ j.opensOperand = true)

theorem Legible.of_isInfix {is js : List Item} (h : Legible is) (hj : js <:+: is) : Legible js where
  quiet t ht := h.quiet t (hj.subset ht)
  known c hc := h.known c (hj.subset hc)
  apart := List.IsChain.infix h.apart hj

theorem Legible.tail {i : Item} {is : List Item} (h : Legible (i :: is)) : Legible is :=
  h.of_isInfix (List.suffix_cons i is).isInfix

theorem Connective.isKnown_iff_mem {c : Connective} :
    c.isKnown = true ↔ c ∈ Connective.bindingOrder := by
  cases c <;> simp [Connective.isKnown, Connective.bindingOrder]

theorem Connective.symbol_mem {c : Connective} (h : c.isKnown = true) :
    c.symbol ∈ Connective.symbols := by
  cases c <;> simp [Connective.isKnown, Connective.symbols] at h ⊢

theorem Connective.symbol_injective {c d : Connective} (hc : c.isKnown = true)
    (hd : d.isKnown = true) (h : c.symbol = d.symbol) : c = d := by
  cases c <;> cases d <;> first | rfl | (simp [Connective.isKnown] at hc hd; done) |
    exact absurd h (by decide)

theorem Connective.symbol_ne_symbol {c d : Connective} (hd : d.isKnown = true) (h : d ≠ c) :
    c.symbol ≠ d.symbol := by
  intro hs
  cases c with
  | other word =>
    cases d with
    | other word' => simp [isKnown] at hd
    | _ => exact absurd hs (by simp only [symbol]; decide)
  | _ => exact h (symbol_injective hd rfl hs.symm)

theorem Connective.symbol_ne {c : Connective} :
    c.symbol ≠ '"' ∧ c.symbol ≠ '(' ∧ c.symbol ≠ ')' ∧ isSpace c.symbol = false := by
  cases c <;> simp only [Connective.symbol] <;> decide

/-! ### Spaces -/

theorem Spells.space {s t : Text} {is : List Item} (hs : AllSpace s) (h : Spells t is) :
    Spells (s ++ t) is := by
  cases h with
  | nil hs' => exact .nil (allSpace_append.mpr ⟨hs, hs'⟩)
  | cons hs' ht =>
    rw [← List.append_assoc]
    exact .cons (allSpace_append.mpr ⟨hs, hs'⟩) ht

theorem Spells.allSpace {t : Text} (h : Spells t []) : AllSpace t := by
  cases h with
  | nil hs => exact hs

private theorem spells_glyph_append {t : Text} {i : Item} {is : List Item} (h : Spells t is) :
    Spells (i.glyph ++ t) (i :: is) := by
  cases i with
  | term u =>
    obtain ⟨s, s', hs, hs', hu⟩ := exists_trim u
    have he : Item.glyph (.term u) ++ t = s ++ (Item.core (.term u) ++ (s' ++ t)) := by
      simp only [Item.glyph, Item.text, Item.core]
      conv_lhs => rw [hu]
      simp
    rw [he]
    exact .cons hs (h.space hs')
  | opening => exact .cons (s := []) (i := .opening) allSpace_nil h
  | closing => exact .cons (s := []) (i := .closing) allSpace_nil h
  | keyword c => exact .cons (s := []) (i := .keyword c) allSpace_nil h

/-- The normalized text of a sequence of items spells it. -/
theorem spells_render (is : List Item) : Spells (Item.render is) is := by
  have hgap (i j : Item) : AllSpace (Item.gapBetween i j) := by
    rw [Item.gapBetween]
    split_ifs
    · exact allSpace_nil
    · exact allSpace_cons.mpr ⟨by decide, allSpace_nil⟩
  fun_induction Item.render is with
  | case1 => exact .nil allSpace_nil
  | case2 i => simpa using spells_glyph_append (i := i) (.nil allSpace_nil)
  | case3 i j rest ih => exact spells_glyph_append (ih.space (hgap i j))

private theorem trimLeft_core (i : Item) : trimLeft i.core = i.core := by
  cases i with
  | term u => exact trimLeft_trim u
  | keyword c =>
    exact trimLeft_eq_self_iff.mpr fun d u h => (List.cons.inj h).1 ▸ Connective.symbol_ne.2.2.2
  | _ => rfl

private theorem trimRight_core (i : Item) : trimRight i.core = i.core := by
  cases i with
  | term u => exact trimRight_trim u
  | keyword c => simp [Item.core, Text.trimRight, Connective.symbol_ne.2.2.2]
  | _ => rfl

theorem Spells.trimLeft {t : Text} {is : List Item} (h : Spells t is) : Spells t.trimLeft is := by
  induction h with
  | @nil s hs =>
    obtain ⟨s', _, h'⟩ := exists_trimLeft s
    exact .nil (allSpace_append.mp (h' ▸ hs)).2
  | @cons s t i is hs ht ih =>
    rw [trimLeft_append_of_allSpace hs]
    cases hcore : i.core with
    | nil =>
      have h' : Spells ([] ++ (i.core ++ t.trimLeft)) (i :: is) := .cons allSpace_nil ih
      simpa [hcore] using h'
    | cons c u =>
      have hc := trimLeft_eq_self_iff.mp (trimLeft_core i) c u hcore
      have he : Text.trimLeft (c :: u ++ t) = c :: u ++ t := by
        apply trimLeft_eq_self_iff.mpr
        intro d v hd
        rw [List.cons_append] at hd
        exact (List.cons.inj hd).1 ▸ hc
      rw [he, ← hcore]
      exact .cons (s := []) allSpace_nil ht

theorem Spells.trimRight {t : Text} {is : List Item} (h : Spells t is) :
    Spells t.trimRight is := by
  induction h with
  | nil hs => rw [trimRight_eq_nil_iff.mpr hs]; exact .nil allSpace_nil
  | @cons s t i is hs ht ih =>
    rw [trimRight_append, trimRight_append, trimRight_core]
    by_cases hnil : t.trimRight = []
    · rw [hnil] at ih
      rw [if_pos hnil]
      by_cases hcore : i.core = []
      · rw [if_pos hcore, trimRight_eq_nil_iff.mpr hs]
        have h' : Spells ([] ++ (i.core ++ [])) (i :: is) := .cons allSpace_nil ih
        simpa [hcore] using h'
      · rw [if_neg hcore]
        have h' : Spells (s ++ (i.core ++ [])) (i :: is) := .cons hs ih
        simpa using h'
    · rw [if_neg hnil, if_neg (by simp [hnil])]
      exact .cons hs ih

theorem Spells.trim {t : Text} {is : List Item} (h : Spells t is) : Spells t.trim is :=
  h.trimLeft.trimRight

theorem Spells.eq_of_term {t u : Text} (h : Spells t [.term u]) (ht : t.trim = t) :
    t = u.trim := by
  cases h with
  | cons hs h =>
    rw [← ht, trim_append_of_allSpace hs h.allSpace]
    exact trim_trim u

/-! ### Splitting -/

section

variable {c : Connective} {i : Item}

private theorem piecesFrom_core_append (hc : c.isKnown = true)
    (hq : ∀ t, i = .term t → Quiet false t.trim) (hk : ∀ d, i = .keyword d → d.isKnown = true)
    {depth : Int} (hne : ¬(i = .keyword c ∧ depth = 0)) (t : Text) :
    piecesFrom c.symbol depth false (i.core ++ t) =
      (piecesFrom c.symbol (depth + i.rise) false t).modifyHead (i.core ++ ·) := by
  cases i with
  | term u =>
    rw [Item.rise, Int.add_zero]
    exact piecesFrom_append_of_quiet (Connective.symbol_mem hc) depth (hq u rfl) t
  | opening => rfl
  | closing => rfl
  | keyword d =>
    have hd : ¬(d.symbol = c.symbol ∧ depth = 0) := by
      rintro ⟨hs, hz⟩
      exact hne ⟨by rw [Connective.symbol_injective (hk d rfl) hc hs], hz⟩
    rw [Item.rise, Int.add_zero, Item.core, List.singleton_append, piecesFrom,
      if_neg Connective.symbol_ne.1, if_neg (by simp), if_neg Connective.symbol_ne.2.1,
      if_neg Connective.symbol_ne.2.2.1, if_neg hd]
    rfl

private theorem piecesFrom_symbol (t : Text) :
    piecesFrom c.symbol 0 false (Item.core (.keyword c) ++ t) =
      [] :: piecesFrom c.symbol 0 false t := by
  rw [Item.core, List.singleton_append, piecesFrom, if_neg Connective.symbol_ne.1, if_neg (by simp),
    if_neg Connective.symbol_ne.2.1, if_neg Connective.symbol_ne.2.2.1, if_pos ⟨rfl, rfl⟩]

private theorem Spells.modifyHead {s : Text} (hs : AllSpace s) {ts : List Text}
    {iss : List (List Item)} (h : List.Forall₂ Spells ts iss) :
    List.Forall₂ Spells (ts.modifyHead fun t => s ++ (i.core ++ t)) (iss.modifyHead (i :: ·)) := by
  cases h with
  | nil => exact .nil
  | cons h hrest => exact .cons (.cons hs h) hrest

/-- The pieces of a text at a connective spell the pieces of its items. -/
theorem Spells.pieces (hc : c.isKnown = true) {t : Text} {is : List Item} (h : Spells t is)
    (hl : Legible is) (depth : Int) :
    List.Forall₂ Spells (piecesFrom c.symbol depth false t) (Item.splitFrom c depth is) := by
  have hmem := Connective.symbol_mem hc
  induction h generalizing depth with
  | @nil s hs =>
    have he := piecesFrom_append_of_quiet hmem depth (quiet_of_allSpace hs) []
    rw [List.append_nil] at he
    rw [he]
    exact .cons (by simpa using Spells.nil hs) .nil
  | @cons s t i is hs ht ih =>
    rw [piecesFrom_append_of_quiet hmem depth (quiet_of_allSpace hs), Item.splitFrom]
    by_cases hsplit : i = .keyword c ∧ depth = 0
    · obtain ⟨rfl, rfl⟩ := hsplit
      rw [if_pos ⟨rfl, rfl⟩, piecesFrom_symbol]
      exact .cons (by simpa using Spells.nil hs) (ih hl.tail 0)
    · have hcore := piecesFrom_core_append (i := i) hc (fun u hu => hl.quiet u (by simp [hu]))
        (fun d hd => hl.known d (by simp [hd])) hsplit t
      rw [if_neg hsplit, hcore, List.modifyHead_modifyHead]
      exact Spells.modifyHead hs (ih hl.tail _)

end

theorem length_splitFrom {c : Connective} (hc : c.isKnown = true) {t : Text} {is : List Item}
    (h : Spells t is) (hl : Legible is) :
    (Item.splitFrom c 0 is).length = (splitPoints c t).length + 1 := by
  rw [← (h.pieces hc hl 0).length_eq]
  exact length_piecesFrom c.symbol 0 0 false t

theorem infix_of_mem_splitFrom {c : Connective} {depth : Int} {is js : List Item}
    (h : js ∈ Item.splitFrom c depth is) : js <:+: is := by
  have hall (jss : List (List Item)) (hj : js ∈ jss) :
      js <:+: List.intercalate [Item.keyword c] jss := by
    induction jss with
    | nil => simp at hj
    | cons ks jss ih =>
      cases jss with
      | nil =>
        rw [List.mem_singleton.mp hj]
        simp [List.intercalate]
      | cons ls jss =>
        have he : List.intercalate [Item.keyword c] (ks :: ls :: jss) =
            ks ++ (Item.keyword c :: List.intercalate [Item.keyword c] (ls :: jss)) := by
          simp [List.intercalate, List.intersperse_cons_cons]
        rw [he]
        rcases List.mem_cons.mp hj with rfl | hj
        · exact (List.prefix_append _ _).isInfix
        · exact (ih hj).trans (((List.suffix_cons _ _).trans (List.suffix_append _ _)).isInfix)
  have := hall _ h
  rwa [Item.intercalate_splitFrom] at this

/-! ### Brackets -/

private theorem closeFrom_keyword (d : Connective) (depth : Nat) (t : Text) :
    Segment.closeFrom depth false (d.symbol :: t) =
      (Segment.closeFrom depth false t).map (Prod.map (d.symbol :: ·) id) := by
  rw [Segment.closeFrom, if_neg Connective.symbol_ne.1, if_neg (by simp),
    if_neg Connective.symbol_ne.2.1, if_neg Connective.symbol_ne.2.2.1]

private theorem Spells.closeRel {s : Text} (hs : AllSpace s) {i : Item} {p : Option (Text × Text)}
    {q : Option (List Item × List Item)}
    (h : Option.Rel (fun p q => Spells p.1 q.1 ∧ Spells p.2 q.2) p q) :
    Option.Rel (fun p q => Spells p.1 q.1 ∧ Spells p.2 q.2)
      (p.map (Prod.map (fun t => s ++ (i.core ++ t)) id)) (q.map (Prod.map (i :: ·) id)) := by
  cases h with
  | none => exact .none
  | some h => exact .some ⟨.cons hs h.1, h.2⟩

theorem Spells.close {t : Text} {is : List Item} (h : Spells t is) (hl : Legible is)
    (depth : Nat) :
    Option.Rel (fun p q => Spells p.1 q.1 ∧ Spells p.2 q.2)
      (Segment.closeFrom depth false t) (Item.closeFrom depth is) := by
  induction h generalizing depth with
  | @nil s hs =>
    have he := closeFrom_append_of_quiet depth (quiet_of_allSpace hs) []
    rw [List.append_nil] at he
    rw [he]
    exact .none
  | @cons s t i is hs ht ih =>
    rw [closeFrom_append_of_quiet depth (quiet_of_allSpace hs)]
    cases i with
    | term u =>
      have hq := hl.quiet u (by simp)
      rw [show Item.core (.term u) = u.trim from rfl, closeFrom_append_of_quiet depth hq,
        Option.map_map]
      exact Spells.closeRel (i := .term u) hs (ih hl.tail depth)
    | keyword d =>
      rw [show Item.core (.keyword d) ++ t = d.symbol :: t from rfl, closeFrom_keyword,
        Option.map_map]
      exact Spells.closeRel (i := .keyword d) hs (ih hl.tail depth)
    | opening =>
      rw [show Item.core .opening ++ t = '(' :: t from rfl, Segment.closeFrom, if_neg (by decide),
        if_neg (by simp), if_pos rfl, Option.map_map]
      exact Spells.closeRel (i := .opening) hs (ih hl.tail (depth + 1))
    | closing =>
      rw [show Item.core .closing ++ t = ')' :: t from rfl, Segment.closeFrom, if_neg (by decide),
        if_neg (by simp), if_neg (by decide), if_pos rfl, Item.closeFrom]
      by_cases hd : depth = 0
      · rw [if_pos hd, if_pos hd]
        exact .some ⟨by simpa using Spells.nil hs, ht⟩
      · rw [if_neg hd, if_neg hd, Option.map_map]
        exact Spells.closeRel (i := .closing) hs (ih hl.tail (depth - 1))

private theorem append_ne_opening {s : Text} (hs : AllSpace s) {w : Text} (hw : w ≠ [])
    (hhead : ∀ v, w ≠ '(' :: v) {t cs : Text} : s ++ (w ++ t) ≠ '(' :: cs := by
  intro h
  cases s with
  | cons d s =>
    have hd := (allSpace_cons.mp hs).1
    rw [List.cons_append] at h
    rw [(List.cons.inj h).1] at hd
    exact absurd hd (by decide)
  | nil =>
    obtain ⟨d, v, rfl⟩ := List.exists_cons_of_ne_nil hw
    rw [List.nil_append, List.cons_append] at h
    exact hhead v (by rw [(List.cons.inj h).1])

private theorem quiet_ne_opening {w : Text} (hw : Quiet false w) (v : Text) : w ≠ '(' :: v := by
  rintro rfl
  exact ((outside_cons_unquoted (by decide)).mp hw).1.1 rfl

theorem Spells.opening {cs : Text} {is : List Item} (h : Spells ('(' :: cs) is)
    (hl : Legible is) : ∃ js, is = .opening :: js ∧ Spells cs js := by
  generalize ht : '(' :: cs = t at h
  induction h with
  | nil hs =>
    rw [← ht] at hs
    exact absurd (allSpace_cons.mp hs).1 (by decide)
  | @cons s t i is hs h ih =>
    cases i with
    | opening =>
      cases s with
      | nil =>
        obtain rfl := (List.cons.inj ht).2
        exact ⟨is, rfl, h⟩
      | cons d s =>
        have hd := (allSpace_cons.mp hs).1
        rw [← (List.cons.inj ht).1] at hd
        exact absurd hd (by decide)
    | closing =>
      exact absurd ht.symm (append_ne_opening hs (by decide) (by simp [Item.core]))
    | keyword d =>
      refine absurd ht.symm (append_ne_opening hs (by simp [Item.core]) ?_)
      intro v hv
      exact Connective.symbol_ne.2.1 (List.cons.inj hv).1
    | term u =>
      by_cases hu : u.trim = []
      · -- a blank term cannot stand before the bracket, as two operands are never neighbours
        exfalso
        cases h with
        | nil hs' =>
          have hall : AllSpace (s ++ (Item.core (.term u) ++ t)) := by
            rw [show Item.core (.term u) = [] from hu]
            exact allSpace_append.mpr ⟨hs, hs'⟩
          rw [← ht] at hall
          exact absurd (allSpace_cons.mp hall).1 (by decide)
        | @cons s' t' j js hs' h' =>
          have hss : AllSpace (s ++ s') := allSpace_append.mpr ⟨hs, hs'⟩
          have he : '(' :: cs = (s ++ s') ++ (j.core ++ t') := by
            rw [ht, show Item.core (.term u) = [] from hu]
            simp
          have hap := (List.isChain_cons_cons.mp hl.apart).1
          cases j with
          | closing =>
            exact append_ne_opening hss (by decide) (by simp [Item.core]) he.symm
          | keyword d =>
            refine append_ne_opening hss (by simp [Item.core]) ?_ he.symm
            intro v hv
            exact Connective.symbol_ne.2.1 (List.cons.inj hv).1
          | opening => exact hap ⟨rfl, rfl⟩
          | term w => exact hap ⟨rfl, rfl⟩
      · exact absurd ht.symm (append_ne_opening hs hu (quiet_ne_opening (hl.quiet u (by simp))))

private theorem eq_nil_of_allSpace_suffix {a b : Text} (hb : AllSpace b)
    (h : trimRight (a ++ b) = a ++ b) : b = [] := by
  rw [trimRight_append_of_allSpace hb] at h
  have hlen := length_trimRight_le a
  have he := congrArg List.length h
  rw [List.length_append] at he
  exact List.length_eq_zero_iff.mp (by omega)

theorem Spells.unwrap_of_close {t : Text} {is js : List Item} (h : Spells t (.opening :: is))
    (hl : Legible (.opening :: is)) (ht : t.trim = t) (hc : Item.closeFrom 0 is = some (js, [])) :
    ∃ u, unwrap? t = some u ∧ Spells u js := by
  have hleft : Text.trimLeft t = t := by rw [← ht]; exact trimLeft_trim t
  have hright : Text.trimRight t = t := by rw [← ht]; exact trimRight_trim t
  cases h with
  | @cons s t _ _ hs h =>
    have hnil : s = [] := by
      rw [trimLeft_append_of_allSpace hs] at hleft
      have hlen := length_trimLeft_le (Item.core .opening ++ t)
      have he := congrArg List.length hleft
      rw [List.length_append] at he
      exact List.length_eq_zero_iff.mp (by omega)
    subst hnil
    have hrel := h.close hl.tail 0
    rw [hc] at hrel
    generalize hclose : Segment.closeFrom 0 false t = o at hrel
    cases hrel with
    | @some p q hp =>
      obtain ⟨a, b⟩ := p
      have hte := eq_append_of_closeFrom hclose
      have hb : b = [] := by
        apply eq_nil_of_allSpace_suffix (a := '(' :: (a ++ [')'])) hp.2.allSpace
        rw [show '(' :: (a ++ [')']) ++ b = [] ++ (Item.core .opening ++ t) by
          rw [hte]; simp [Item.core]]
        exact hright
      subst hb
      exact ⟨a, unwrap?_eq_some_iff.mpr ⟨t, rfl, hclose⟩, hp.1⟩

theorem Spells.close_of_unwrap {t u : Text} {is : List Item} (h : Spells t is) (hl : Legible is)
    (hu : unwrap? t = some u) :
    ∃ js, is = .opening :: (js ++ [.closing]) ∧
      Item.closeFrom 0 (js ++ [.closing]) = some (js, []) ∧ Spells u js := by
  obtain ⟨cs, rfl, hclose⟩ := unwrap?_eq_some_iff.mp hu
  obtain ⟨ks, rfl, hk⟩ := h.opening hl
  have hrel := hk.close hl.tail 0
  rw [hclose] at hrel
  generalize hitems : Item.closeFrom 0 ks = o at hrel
  cases hrel with
  | @some p q hp =>
    obtain ⟨js, rs⟩ := q
    have hks := Item.eq_append_of_closeFrom hitems
    -- what follows the closing bracket shows no character, and a blank term cannot follow it
    have hrs : rs = [] := by
      cases rs with
      | nil => rfl
      | cons i rs =>
        have hap := (hl.of_isInfix ⟨.opening :: js, rs, by rw [hks]; simp⟩ :
          Legible [.closing, i]).apart
        have hne := (List.isChain_cons_cons.mp hap).1
        have hnil := hp.2
        generalize ht : ([] : Text) = t at hnil
        cases hnil with
        | cons hs hrest =>
          have hcore : i.core = [] :=
            (List.append_eq_nil_iff.mp (List.append_eq_nil_iff.mp ht.symm).2).1
          cases i with
          | term w => exact absurd ⟨rfl, rfl⟩ hne
          | _ => simp [Item.core] at hcore
    subst hrs
    rw [hks] at hitems
    exact ⟨js, by rw [hks], hitems, hp.1⟩

end BooleanSearch
