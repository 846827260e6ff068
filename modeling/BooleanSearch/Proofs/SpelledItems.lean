import BooleanSearch.Proofs.Respacing

/-!
# Items spelled out

The items of a query, the implied connectives among them, can be written one after another with a
space between any two. They are read back from this text item by item, also where the last word
leaves a quote open. Only a `NOT` after an implied connective would be read as part of it.
-/

namespace BooleanSearch

open Text

def Lexeme.text : Lexeme → Text
  | opening => ['(']
  | closing => [')']
  | word w => w

namespace Item

/-- The items before which the implicit connective is put. -/
def joined : List Item → List Item
  | [] => []
  | [_] => []
  | i :: j :: rest =>
    if i.closesOperand && j.opensOperand then j :: joined (j :: rest) else joined (j :: rest)

/-- The texts of items with a space between any two. -/
def spelledOut : List Item → Text
  | [] => []
  | [i] => i.text
  | i :: j :: rest => i.text ++ ' ' :: spelledOut (j :: rest)

def lexemes : Item → List Lexeme
  | term t => [.word t]
  | opening => [.opening]
  | closing => [.closing]
  | keyword c => c.words

/-- Tells that the text of an item is read back as this item where `next` comes after it. -/
def ReadsBefore (next : Option Item) : Item → Prop
  | term t =>
    t ≠ [] ∧ Squeezed t ∧ connective? t = none ∧ Lexeme.Unbroken next.isNone false t
  | opening => True
  | closing => True
  | keyword c => c.isKnown = true ∧ (c.isNegated = false → next ≠ some (term "NOT".toList))

def ReadsBack : List Item → Prop
  | [] => True
  | i :: is => i.ReadsBefore is.head? ∧ ReadsBack is

end Item

/-! ### Reading items back -/

private theorem isBlank_of_isSpace {c : Char} (hc : isSpace c = false) : isBlank c = false := by
  rw [← Bool.not_eq_true] at hc ⊢
  exact fun hb => hc (isSpace_of_isBlank hb)

namespace Lexeme

private theorem squeezeFrom_concat {c : Char} (hc : isBlank c = false) (after : Bool) (w : Text) :
    squeezeFrom after (w ++ [c]) = squeezeFrom after w ++ [c] := by
  induction w generalizing after with
  | nil => simp [squeezeFrom, hc]
  | cons d w ih =>
    rw [List.cons_append, squeezeFrom, squeezeFrom, ih, ih]
    split_ifs <;> rfl

private theorem Unbroken.squeeze {atEnd : Bool} {w : Text} (h : Unbroken atEnd false w) :
    Unbroken atEnd false w.squeeze := by
  have hchar (c : Char) (hc : WordChar c) : isBlank c = false := hc.1
  refine h.imp (fun h => h.squeezeFrom hchar false) fun h => ⟨h.1, ?_⟩
  rw [Text.squeeze, ← squeezeFrom_concat (by decide)]
  exact h.2.squeezeFrom hchar false

private theorem Unbroken.mono {atEnd atEnd' quoted : Bool} {w : Text}
    (h : Unbroken atEnd quoted w) (hend : atEnd = true → atEnd' = true) :
    Unbroken atEnd' quoted w :=
  h.imp_right fun h => ⟨hend h.1, h.2⟩

private theorem scan_unbroken {atEnd quoted : Bool} {w : Text} (h : Unbroken atEnd quoted w) :
    scan quoted w = ⟨w, []⟩ := by
  have hchar {q : Bool} {c : Char} {cs : Text} (hq : ¬c = '"') (hquoted : ¬q = true)
      (h : Unbroken atEnd q (c :: cs)) : WordChar c ∧ Unbroken atEnd q cs := by
    obtain rfl : q = false := by simpa using hquoted
    exact (unbroken_cons_unquoted hq).mp h
  fun_induction scan quoted w with
  | case1 => rfl
  | case2 quoted cs ih => rw [ih (unbroken_quote.mp h)]; rfl
  | case3 c cs hq ih => rw [ih ((unbroken_cons_quoted hq).mp h)]; rfl
  | case4 quoted c cs hq hquoted hb => simp [(hchar hq hquoted h).1.1] at hb
  | case5 quoted cs hquoted hq => exact absurd rfl (hchar hq hquoted h).1.2.1
  | case6 quoted cs hquoted hq => exact absurd rfl (hchar hq hquoted h).1.2.2
  | case7 quoted c cs hq hquoted _ _ _ ih => rw [ih (hchar hq hquoted h).2]; rfl

end Lexeme

namespace Item

private theorem ofLexemes_eq_nil_iff {ls : List Lexeme} : ofLexemes ls = [] ↔ ls = [] := by
  fun_cases ofLexemes ls <;> simp

private theorem head?_ofLexemes {ls : List Lexeme} {u : Text}
    (h : (ofLexemes ls).head? = some (term u)) :
    ∃ w, ls.head? = some (.word w) ∧ u = w.squeeze := by
  revert h
  fun_cases ofLexemes ls with
  | case4 w rest hw =>
    intro h
    exact ⟨w, rfl, by simpa using h.symm⟩
  | _ => simp

private theorem getLast?_ofLexemes {ls : List Lexeme} {u : Text}
    (h : (ofLexemes ls).getLast? = some (term u)) :
    ∃ w, ls.getLast? = some (.word w) ∧ u = w.squeeze := by
  have hlater {i : Item} {l : Lexeme} {rest : List Lexeme} (hi : rest = [] → i ≠ term u)
      (ih : (ofLexemes rest).getLast? = some (term u) →
        ∃ w, rest.getLast? = some (.word w) ∧ u = w.squeeze)
      (h : (i :: ofLexemes rest).getLast? = some (term u)) :
      ∃ w, (l :: rest).getLast? = some (.word w) ∧ u = w.squeeze := by
    by_cases hrest : rest = []
    · subst hrest
      exact absurd (by simpa [ofLexemes] using h) (hi rfl)
    · have hne : ofLexemes rest ≠ [] := fun hnil => hrest (ofLexemes_eq_nil_iff.mp hnil)
      rw [List.getLast?_cons_of_ne_nil hne] at h
      rw [List.getLast?_cons_of_ne_nil hrest]
      exact ih h
  fun_induction ofLexemes ls with
  | case1 => simp at h
  | case2 rest ih => exact hlater (by simp) ih h
  | case3 rest ih => exact hlater (by simp) ih h
  | case4 w rest hw ih =>
    by_cases hrest : rest = []
    · subst hrest
      exact ⟨w, rfl, by simpa [ofLexemes] using h.symm⟩
    · exact hlater (fun hnil => absurd hnil hrest) ih h
  | case5 w c hw later ih => rw [List.getLast?_cons_cons]; exact hlater (by simp) ih h
  | case6 w c hw v later hv ih => exact hlater (by simp) ih h
  | case7 w c hw later ih => exact hlater (by simp) ih h
  | case8 w c hw later ih => exact hlater (by simp) ih h
  | case9 w c hw => simp at h

theorem readsBack_ofLexemes {ls : List Lexeme} (h : Lexeme.Worded ls) :
    ReadsBack (ofLexemes ls) := by
  have hknown {w : Text} {c : Connective} (hw : connective? w = some c) :
      c.isKnown = true ∧ c.withNot.isKnown = true ∧ c.withNot.isNegated = true := by
    obtain ⟨_, rfl | rfl⟩ := connective?_eq_some hw <;> exact ⟨rfl, rfl, rfl⟩
  fun_induction ofLexemes ls with
  | case1 => trivial
  | case2 rest ih => exact ⟨trivial, ih h⟩
  | case3 rest ih => exact ⟨trivial, ih h⟩
  | case4 w rest hw ih =>
    obtain ⟨hne, hunbroken, hrest⟩ := h
    refine ⟨⟨?_, squeezed_squeeze w, by rw [connective?_squeeze, hw], ?_⟩, ih hrest⟩
    · exact fun hnil => hne (squeeze_eq_nil_iff.mp hnil)
    · refine hunbroken.squeeze.mono fun hend => ?_
      rw [List.isEmpty_iff.mp hend]
      rfl
  | case5 w c hw later ih =>
    exact ⟨⟨(hknown hw).2.1, fun hplain => by simp [(hknown hw).2.2] at hplain⟩, ih h.2.2.2.2⟩
  | case6 w c hw v later hv ih =>
    refine ⟨⟨(hknown hw).1, fun _ hnot => ?_⟩, ih h.2.2⟩
    obtain ⟨w', hw', hsqueeze⟩ := head?_ofLexemes hnot
    obtain rfl : v = w' := by simpa using hw'
    exact hv ((squeeze_eq_iff (by simp [isBlank])).mp hsqueeze.symm)
  | case7 w c hw later ih => exact ⟨⟨(hknown hw).1, by simp [ofLexemes]⟩, ih h.2.2⟩
  | case8 w c hw later ih => exact ⟨⟨(hknown hw).1, by simp [ofLexemes]⟩, ih h.2.2⟩
  | case9 w c hw => exact ⟨⟨(hknown hw).1, by simp⟩, trivial⟩

theorem readsBack_joinOperands {c : Connective} (hc : c.isKnown = true) {is : List Item}
    (h : ReadsBack is) (hnot : term "NOT".toList ∉ joined is) : ReadsBack (joinOperands c is) := by
  fun_induction joinOperands c is with
  | case1 => trivial
  | case2 i => exact h
  | case3 i j rest hij ih =>
    rw [joined, if_pos hij] at hnot
    refine ⟨?_, ⟨hc, fun _ hhead => ?_⟩, ih h.2 (List.not_mem_of_not_mem_cons hnot)⟩
    · cases i with
      | term t => exact h.1
      | closing => trivial
      | opening => simp [closesOperand] at hij
      | keyword d => simp [closesOperand] at hij
    · rw [Query.head?_joinOperands] at hhead
      exact List.ne_of_not_mem_cons hnot (Option.some.inj hhead).symm
  | case4 i j rest hij ih =>
    rw [joined, if_neg hij] at hnot
    refine ⟨?_, ih h.2 hnot⟩
    rw [Query.head?_joinOperands]
    exact h.1

private theorem lexemes_text_append {i : Item} {next : Option Item} (h : i.ReadsBefore next)
    {t : Text} (ht : (Lexeme.scan false t).within = []) (hnext : next = none → t = []) :
    (Lexeme.scan false (i.text ++ t)).lexemes = i.lexemes ++ (Lexeme.scan false t).lexemes := by
  cases i with
  | term u =>
    obtain ⟨hne, _, _, hclosed | ⟨hend, hopen⟩⟩ := h
    · exact Lexeme.lexemes_word hclosed hne ht
    · rw [hnext (Option.isNone_iff_eq_none.mp hend), text, List.append_nil,
        Lexeme.scan_unbroken (.inr ⟨rfl, hopen⟩)]
      obtain ⟨c, u, rfl⟩ := List.exists_cons_of_ne_nil hne
      rfl
  | opening => rw [text, List.singleton_append, Lexeme.scan_opening]; rfl
  | closing => rw [text, List.singleton_append, Lexeme.scan_closing]; rfl
  | keyword c => exact Lexeme.lexemes_keyword h.1 ht

theorem ofText_spelledOut_lexemes {is : List Item} (h : ReadsBack is) :
    Lexeme.ofText (spelledOut is) = is.flatMap lexemes := by
  fun_induction spelledOut is with
  | case1 => rfl
  | case2 i =>
    have hi := lexemes_text_append h.1 (t := []) rfl fun _ => rfl
    rwa [List.append_nil] at hi
  | case3 i j rest ih =>
    have hspace := Lexeme.scan_space (spelledOut (j :: rest))
    rw [Lexeme.ofText, lexemes_text_append h.1 (by rw [hspace]) (by simp), hspace,
      Lexeme.lexemes_mk_nil, List.flatMap_cons]
    exact congrArg (i.lexemes ++ ·) (ih h.2)

private theorem head?_flatMap_lexemes {is : List Item} (h : ReadsBack is)
    (hnot : is.head? ≠ some (term "NOT".toList)) :
    (is.flatMap lexemes).head? ≠ some (.word "NOT".toList) := by
  cases is with
  | nil => simp
  | cons i is =>
    cases i with
    | term t => simpa [lexemes] using hnot
    | opening => simp [lexemes]
    | closing => simp [lexemes]
    | keyword c =>
      obtain ⟨hc, _⟩ := h.1
      cases c with
      | other word => simp [Connective.isKnown] at hc
      | _ => simp [lexemes, Connective.words]

theorem ofLexemes_flatMap_lexemes {is : List Item} (h : ReadsBack is) :
    ofLexemes (is.flatMap lexemes) = is := by
  induction is with
  | nil => rfl
  | cons i is ih =>
    rw [List.flatMap_cons]
    cases i with
    | term t =>
      obtain ⟨_, hsqueezed, hplain, _⟩ := h.1
      rw [lexemes, List.singleton_append, ofLexemes, hplain]
      simp only [hsqueezed.squeeze_eq, ih h.2]
    | opening => rw [lexemes, List.singleton_append, ofLexemes, ih h.2]
    | closing => rw [lexemes, List.singleton_append, ofLexemes, ih h.2]
    | keyword c =>
      obtain ⟨hc, hnext⟩ := h.1
      rw [lexemes, Node.ofLexemes_words hc fun hplain => head?_flatMap_lexemes h.2 (hnext hplain),
        ih h.2]

theorem ofText_spelledOut {is : List Item} (h : ReadsBack is) : ofText (spelledOut is) = is := by
  rw [ofText, ofText_spelledOut_lexemes h, ofLexemes_flatMap_lexemes h]

end Item

/-! ### The ends of the text -/

namespace Lexeme

private theorem lexemes_extend (c : Char) (k : Cut) :
    (k.extend c).lexemes = word (c :: k.within) :: k.after := rfl

theorem flatMap_text_extend (c : Char) (k : Cut) :
    (k.extend c).lexemes.flatMap text = c :: k.lexemes.flatMap text := by
  rw [lexemes_extend, Cut.lexemes]
  cases k.within <;> rfl

private theorem head?_of_word {t w : Text} {c : Char} (hw : (ofText t).head? = some (word w))
    (ht : t.head? = some c) (hc : isBlank c = false) : w.head? = some c := by
  have hkeep {k : Cut} (h : (k.extend c).lexemes.head? = some (word w)) : w.head? = some c := by
    rw [lexemes_extend, List.head?_cons, Option.some.injEq, word.injEq] at h
    rw [← h, List.head?_cons]
  obtain ⟨t, rfl⟩ := List.head?_eq_some_iff.mp ht
  rw [ofText, scan] at hw
  simp only [hc, Bool.false_eq_true, if_false] at hw
  split_ifs at hw
  · exact hkeep hw
  · simp [Cut.lexemes] at hw
  · simp [Cut.lexemes] at hw
  · exact hkeep hw

private theorem getLast?_flatMap_text_scan {t : Text} {c : Char} (ht : t.getLast? = some c)
    (hc : isBlank c = false) (quoted : Bool) :
    ((scan quoted t).lexemes.flatMap text).getLast? = some c := by
  have hkeep {q : Bool} {d : Char} {cs : Text} (ht : (d :: cs).getLast? = some c)
      (ih : cs.getLast? = some c → ((scan q cs).lexemes.flatMap text).getLast? = some c) :
      (d :: (scan q cs).lexemes.flatMap text).getLast? = some c := by
    cases cs with
    | nil => exact ht
    | cons e cs => rw [List.getLast?_cons, ih ht, Option.getD_some]
  fun_induction scan quoted t with
  | case1 => simp at ht
  | case2 quoted cs ih => rw [flatMap_text_extend, hkeep ht ih]
  | case3 d cs hq ih => rw [flatMap_text_extend, hkeep ht ih]
  | case4 quoted d cs hq hquoted hb ih =>
    cases cs with
    | nil => simp_all
    | cons e cs => exact ih ht
  | case5 quoted cs hquoted hq hb ih => exact hkeep ht ih
  | case6 quoted cs hquoted hq hb ho ih => exact hkeep ht ih
  | case7 quoted d cs hq hquoted hb ho hcl ih => rw [flatMap_text_extend, hkeep ht ih]

private theorem Worded.ne_nil {ls : List Lexeme} (h : Worded ls) {w : Text} (hw : word w ∈ ls) :
    w ≠ [] := by
  induction ls with
  | nil => simp at hw
  | cons l ls ih =>
    cases l with
    | opening => exact ih h (by simpa using hw)
    | closing => exact ih h (by simpa using hw)
    | word v =>
      rcases List.mem_cons.mp hw with hwv | hw
      · exact word.inj hwv ▸ h.1
      · exact ih h.2.2 hw

private theorem getLast?_of_word {t w : Text} {c : Char} (hw : (ofText t).getLast? = some (word w))
    (ht : t.getLast? = some c) (hc : isBlank c = false) : w.getLast? = some c := by
  obtain ⟨ls, hls⟩ := List.getLast?_eq_some_iff.mp hw
  have hne : w ≠ [] := (worded_ofText t).ne_nil (by simp [hls])
  have hlast := getLast?_flatMap_text_scan ht hc false
  rwa [← ofText, hls, List.flatMap_append, List.flatMap_singleton, text,
    List.getLast?_append_of_ne_nil _ hne] at hlast

end Lexeme

namespace Item

private theorem head?_spelledOut {is : List Item}
    (h : ∀ i, is.head? = some i → ∃ c, i.text.head? = some c ∧ isSpace c = false) :
    ∀ c ∈ (spelledOut is).head?, isSpace c = false := by
  cases is with
  | nil => simp [spelledOut]
  | cons i rest =>
    obtain ⟨c, hc, hspace⟩ := h i rfl
    obtain ⟨t, ht⟩ := List.head?_eq_some_iff.mp hc
    cases rest with
    | nil => simpa [spelledOut, ht] using hspace
    | cons j rest => simpa [spelledOut, ht] using hspace

private theorem text_suffix_spelledOut {i : Item} {is : List Item} (h : is.getLast? = some i) :
    i.text <:+ spelledOut is := by
  fun_induction spelledOut is with
  | case1 => simp at h
  | case2 j => simp_all
  | case3 j k rest ih =>
    rw [List.getLast?_cons_cons] at h
    exact ((ih h).trans (List.suffix_cons ' ' _)).trans (List.suffix_append j.text _)

private theorem getLast?_spelledOut {is : List Item}
    (h : ∀ i, is.getLast? = some i → ∃ c, i.text.getLast? = some c ∧ isSpace c = false) :
    ∀ c ∈ (spelledOut is).getLast?, isSpace c = false := by
  cases hlast : is.getLast? with
  | none =>
    rw [List.getLast?_eq_none_iff.mp hlast]
    simp [spelledOut]
  | some i =>
    obtain ⟨c, hc, hspace⟩ := h i hlast
    obtain ⟨t, ht⟩ := List.getLast?_eq_some_iff.mp hc
    obtain ⟨v, hv⟩ := text_suffix_spelledOut hlast
    rw [← hv, ht]
    simpa using hspace

private theorem head?_text_ofText {t : Text} (ht : t.trim = t) {i : Item}
    (hi : (ofText t).head? = some i) (hplain : ∀ c, i ≠ keyword c) :
    ∃ c, i.text.head? = some c ∧ isSpace c = false := by
  cases i with
  | term u =>
    obtain ⟨w, hw, rfl⟩ := head?_ofLexemes hi
    cases t with
    | nil => simp [Lexeme.ofText, Lexeme.scan, Lexeme.Cut.lexemes] at hw
    | cons c t =>
      have hc : isSpace c = false := (trim_eq_self_iff.mp ht).1 c rfl
      have hb := isBlank_of_isSpace hc
      obtain ⟨w, rfl⟩ := List.head?_eq_some_iff.mp (Lexeme.head?_of_word hw rfl hb)
      exact ⟨c, by simp [text, squeeze, squeezeFrom, hb], hc⟩
  | opening => exact ⟨'(', rfl, by decide⟩
  | closing => exact ⟨')', rfl, by decide⟩
  | keyword c => exact absurd rfl (hplain c)

private theorem getLast?_text_ofText {t : Text} (ht : t.trim = t) {i : Item}
    (hi : (ofText t).getLast? = some i) (hplain : ∀ c, i ≠ keyword c) :
    ∃ c, i.text.getLast? = some c ∧ isSpace c = false := by
  cases i with
  | term u =>
    obtain ⟨w, hw, rfl⟩ := getLast?_ofLexemes hi
    cases hlast : t.getLast? with
    | none =>
      rw [List.getLast?_eq_none_iff.mp hlast] at hw
      simp [Lexeme.ofText, Lexeme.scan, Lexeme.Cut.lexemes] at hw
    | some c =>
      have hc : isSpace c = false := (trim_eq_self_iff.mp ht).2 c hlast
      have hb := isBlank_of_isSpace hc
      obtain ⟨v, rfl⟩ := List.getLast?_eq_some_iff.mp (Lexeme.getLast?_of_word hw hlast hb)
      exact ⟨c, by simp [text, squeeze, Lexeme.squeezeFrom_concat hb], hc⟩
  | opening => exact ⟨'(', rfl, by decide⟩
  | closing => exact ⟨')', rfl, by decide⟩
  | keyword c => exact absurd rfl (hplain c)

end Item

namespace Query

private theorem not_keyword_of_refuseOuterKeywords {is : List Item}
    (h : refuseOuterKeywords is = .ok ()) :
    (∀ c, is.head? ≠ some (.keyword c)) ∧ ∀ c, is.getLast? ≠ some (.keyword c) := by
  refine ⟨fun c hi => ?_, fun c hi => ?_⟩
  · simp [refuseOuterKeywords, hi] at h
  · rw [refuseOuterKeywords, hi] at h
    split at h <;> simp_all

theorem trim_spelledOut {implicit : Connective} {query : Text}
    (h : refuseOuterKeywords (Item.ofText query.trim) = .ok ()) :
    (Item.spelledOut (itemsOf implicit query)).trim = Item.spelledOut (itemsOf implicit query) := by
  obtain ⟨hfirst, hlast⟩ := not_keyword_of_refuseOuterKeywords h
  refine trim_eq_self_iff.mpr
    ⟨Item.head?_spelledOut fun i hi => ?_, Item.getLast?_spelledOut fun i hi => ?_⟩
  · rw [itemsOf, head?_joinOperands] at hi
    exact Item.head?_text_ofText (trim_trim query) hi fun c hc => hfirst c (hc ▸ hi)
  · rw [itemsOf, getLast?_joinOperands] at hi
    exact Item.getLast?_text_ofText (trim_trim query) hi fun c hc => hlast c (hc ▸ hi)

end Query

end BooleanSearch
