import BooleanSearch.Filter.Operand
import BooleanSearch.Proofs.Outcomes
import Mathlib.Data.List.Basic

/-!
# Operands of comparisons

A plain value is read as a date and, failing that, as a number. A comparison looks at the characters
of its operand first and tries only one of the two. Every date is written with a dash or a slash, so
no date is missed. A number is missed if it is written with a minus sign or a capital `T`.
-/

namespace BooleanSearch

/-! ### Dates -/

namespace Calendar

private theorem suffix_of_twoDigits? {t rest : Text} {n : Nat}
    (h : twoDigits? t = some (n, rest)) : rest <:+ t := by
  unfold twoDigits? at h
  split at h
  · next a b tail =>
    split at h
    · obtain ⟨_, rfl⟩ := Prod.mk.inj (Option.some.inj h)
      exact List.suffix_append [a, b] tail
    · cases h
  · cases h

private theorem suffix_of_oneOrTwoDigits? {t rest : Text} {n : Nat}
    (h : oneOrTwoDigits? t = some (n, rest)) : rest <:+ t := by
  unfold oneOrTwoDigits? at h
  split at h
  · next r hr => exact suffix_of_twoDigits? (hr.trans h)
  · split at h
    · cases h
    · next a tail _ =>
      obtain ⟨_, _, he⟩ := Option.map_eq_some_iff.mp h
      obtain ⟨_, rfl⟩ := Prod.mk.inj he
      exact List.suffix_cons a tail

private theorem suffix_of_twoDigitsBelow? {bound : Nat} {t rest : Text} {n : Nat}
    (h : twoDigitsBelow? bound t = some (n, rest)) : rest <:+ t :=
  suffix_of_twoDigits? (Option.filter_eq_some_iff.mp h).1

private theorem suffix_of_fourDigits? {t rest : Text} {n : Nat}
    (h : fourDigits? t = some (n, rest)) : rest <:+ t := by
  obtain ⟨⟨century, u⟩, hu, h⟩ := Option.bind_eq_some_iff.mp h
  obtain ⟨⟨year, v⟩, hv, h⟩ := Option.bind_eq_some_iff.mp h
  obtain ⟨_, rfl⟩ := Prod.mk.inj (Option.some.inj h)
  exact (suffix_of_twoDigits? hv).trans (suffix_of_twoDigits? hu)

private theorem suffix_splitFraction (t : Text) : (splitFraction t).2 <:+ t := by
  unfold splitFraction
  split
  · next c d rest =>
    split_ifs
    · exact (List.dropWhile_suffix _).trans (List.suffix_append [c, d] rest)
    · exact List.suffix_refl _
  · exact List.suffix_refl _

private theorem suffix_of_readZone? {t rest : Text} {offset : Int}
    (h : readZone? t = some (offset, rest)) : rest <:+ t := by
  unfold readZone? at h
  split at h
  · cases h
  · next c tail =>
    split at h
    · obtain ⟨_, rfl⟩ := Prod.mk.inj (Option.some.inj h)
      exact List.suffix_cons c tail
    · split at h
      · obtain ⟨⟨hours, u⟩, hu, h⟩ := Option.bind_eq_some_iff.mp h
        dsimp only at h
        split at h
        · next v =>
          obtain ⟨⟨minutes, w⟩, hw, h⟩ := Option.bind_eq_some_iff.mp h
          obtain ⟨_, rfl⟩ := Prod.mk.inj (Option.some.inj h)
          have htail := (suffix_of_twoDigitsBelow? hw).trans (List.suffix_cons ':' v)
          exact (htail.trans (suffix_of_twoDigitsBelow? hu)).trans (List.suffix_cons c tail)
        · cases h
      · cases h

private theorem suffix_of_read? {f : Field} {p p' : Parts} {t rest : Text}
    (h : f.read? p t = some (p', rest)) : rest <:+ t ∧ ∀ c, f = .mark c → c ∈ t := by
  have hmap {α : Type} {x : Option (α × Text)} {g : α × Text → Parts}
      (hx : x.map (fun r => (g r, r.2)) = some (p', rest))
      (hsuffix : ∀ {a u}, x = some (a, u) → u <:+ t) : rest <:+ t := by
    obtain ⟨⟨a, u⟩, hu, he⟩ := Option.map_eq_some_iff.mp hx
    obtain ⟨_, rfl⟩ := Prod.mk.inj he
    exact hsuffix hu
  cases f with
  | year => exact ⟨hmap h suffix_of_fourDigits?, by simp⟩
  | month =>
    refine ⟨hmap h fun hx => ?_, by simp⟩
    exact suffix_of_twoDigitsBelow? (Option.filter_eq_some_iff.mp hx).1
  | day => exact ⟨hmap h suffix_of_twoDigits?, by simp⟩
  | hour =>
    refine ⟨hmap h fun hx => ?_, by simp⟩
    exact suffix_of_oneOrTwoDigits? (Option.filter_eq_some_iff.mp hx).1
  | minute => exact ⟨hmap h suffix_of_twoDigitsBelow?, by simp⟩
  | second =>
    obtain ⟨⟨n, u⟩, hu, he⟩ := Option.map_eq_some_iff.mp h
    obtain ⟨_, rfl⟩ := Prod.mk.inj he
    exact ⟨(suffix_splitFraction u).trans (suffix_of_twoDigitsBelow? hu), by simp⟩
  | zone => exact ⟨hmap h suffix_of_readZone?, by simp⟩
  | mark c =>
    unfold Field.read? at h
    dsimp only at h
    split at h
    · cases h
    · next d tail =>
      split_ifs at h with hd
      obtain ⟨_, rfl⟩ := Prod.mk.inj (Option.some.inj h)
      subst hd
      exact ⟨List.suffix_cons d tail, by simp⟩

private theorem mem_of_readParts? {c : Char} {layout : List Field} {p p' : Parts} {t : Text}
    (h : readParts? layout p t = some p') (hc : .mark c ∈ layout) : c ∈ t := by
  induction layout generalizing p t with
  | nil => simp at hc
  | cons f layout ih =>
    simp only [readParts?] at h
    obtain ⟨⟨q, rest⟩, hread, h⟩ := Option.bind_eq_some_iff.mp h
    obtain ⟨hsuffix, hmark⟩ := suffix_of_read? hread
    rcases List.mem_cons.mp hc with hf | hc
    · exact hmark c hf.symm
    · exact hsuffix.subset (ih h hc)

theorem dash_or_slash_of_readDate? {t : Text} {i : Instant} (h : readDate? t = some i) :
    '-' ∈ t ∨ '/' ∈ t := by
  obtain ⟨layout, hlayout, h⟩ := List.exists_of_findSome?_eq_some h
  obtain ⟨p, hp, _⟩ := Option.bind_eq_some_iff.mp h
  have hmarks : ∀ layout ∈ layouts, .mark '-' ∈ layout ∨ .mark '/' ∈ layout := by
    simp [layouts, dashedTime, dashedDate]
  rcases hmarks layout hlayout with hc | hc
  · exact Or.inl (mem_of_readParts? hp hc)
  · exact Or.inr (mem_of_readParts? hp hc)

end Calendar

/-! ### Numerals -/

namespace Numeral

def isNumeralChar (c : Char) : Bool := c.isAlphanum || ['+', '-', '.', '_'].contains c

private theorem isAlphanum_of_isDigit {c : Char} (h : c.isDigit = true) : c.isAlphanum = true :=
  Bool.or_eq_true_iff.mpr (Or.inr h)

private theorem isAlphanum_of_isLower {c : Char} (h : c.isLower = true) : c.isAlphanum = true :=
  Bool.or_eq_true_iff.mpr (Or.inl (Bool.or_eq_true_iff.mpr (Or.inr h)))

private theorem isAlphanum_of_isUpper {c : Char} (h : c.isUpper = true) : c.isAlphanum = true :=
  Bool.or_eq_true_iff.mpr (Or.inl (Bool.or_eq_true_iff.mpr (Or.inl h)))

private theorem isAlphanum_of_hexValue? {c : Char} {n : Nat} (h : hexValue? c = some n) :
    c.isAlphanum = true := by
  unfold hexValue? at h
  split_ifs at h with hdigit hlower hupper
  · apply isAlphanum_of_isDigit
    exact Bool.and_eq_true_iff.mpr ⟨decide_eq_true hdigit.1, decide_eq_true hdigit.2⟩
  · apply isAlphanum_of_isLower
    have hle : c ≤ 'z' := Char.le_trans hlower.2 (by decide)
    exact Bool.and_eq_true_iff.mpr ⟨decide_eq_true hlower.1, decide_eq_true hle⟩
  · apply isAlphanum_of_isUpper
    have hle : c ≤ 'Z' := Char.le_trans hupper.2 (by decide)
    exact decide_eq_true ⟨hupper.1, hle⟩

private theorem isAlphanum_of_digitValue? {c : Char} {n : Nat} (h : digitValue? c = some n) :
    c.isAlphanum = true := by
  unfold digitValue? at h
  split_ifs at h with hdigit
  exact @isAlphanum_of_hexValue? c (c.toNat - 48) (by rw [hexValue?, if_pos hdigit])

private theorem isAlphanum_of_lowerChar {c : Char} (h : (lowerChar c).isAlphanum = true) :
    c.isAlphanum = true := by
  unfold lowerChar at h
  split_ifs at h with hupper
  · exact isAlphanum_of_isUpper (decide_eq_true hupper)
  · exact h

private theorem isNumeralChar_of_isAlphanum {c : Char} (h : c.isAlphanum = true) :
    isNumeralChar c = true := by
  rw [isNumeralChar, h, Bool.true_or]

private theorem all_of_spells {word t : Text} (hw : word.all Char.isAlphanum = true)
    (h : spells word t = true) : t.all isNumeralChar = true := by
  have hmap : t.map lowerChar = word := by simpa [spells] using h
  rw [List.all_eq_true]
  intro c hc
  have hlower : lowerChar c ∈ word := hmap ▸ List.mem_map_of_mem hc
  have halnum := List.all_eq_true.mp hw _ hlower
  exact isNumeralChar_of_isAlphanum (isAlphanum_of_lowerChar halnum)

private theorem all_of_splitSign {t : Text} (h : (splitSign t).2.all isNumeralChar = true) :
    t.all isNumeralChar = true := by
  unfold splitSign at h
  split at h
  · rfl
  · split_ifs at h with hminus hplus
    · rw [hminus, List.all_cons, h]
      rfl
    · rw [hplus, List.all_cons, h]
      rfl
    · exact h

private theorem all_of_readMantissa {hex : Bool} {m : Mantissa} {t : Text}
    (h : (readMantissa hex m t).2.all isNumeralChar = true) : t.all isNumeralChar = true := by
  induction t generalizing m with
  | nil => rfl
  | cons c t ih =>
    rw [readMantissa] at h
    split at h
    · next hunderscore =>
      rw [hunderscore, List.all_cons, ih h]
      rfl
    · split at h
      · next hpoint =>
        split at h
        · exact h
        · rw [hpoint, List.all_cons, ih h]
          rfl
      · split at h
        · next digit hdigit =>
          have halnum : c.isAlphanum = true := by
            cases hex with
            | true => exact isAlphanum_of_hexValue? hdigit
            | false => exact isAlphanum_of_digitValue? hdigit
          rw [List.all_cons, isNumeralChar_of_isAlphanum halnum, ih h]
          rfl
        · exact h

private theorem all_of_readExponentDigits {value n : Nat} {t : Text}
    (h : readExponentDigits value t = some n) : t.all isNumeralChar = true := by
  induction t generalizing value with
  | nil => rfl
  | cons c t ih =>
    rw [readExponentDigits] at h
    split at h
    · next hunderscore =>
      rw [hunderscore, List.all_cons, ih h]
      rfl
    · split at h
      · next digit hdigit =>
        have halnum := isAlphanum_of_digitValue? hdigit
        rw [List.all_cons, isNumeralChar_of_isAlphanum halnum, ih h]
        rfl
      · cases h

private theorem all_of_readExponent? {t : Text} {e : Int} (h : readExponent? t = some e) :
    t.all isNumeralChar = true := by
  apply all_of_splitSign
  unfold readExponent? at h
  dsimp only at h
  split at h
  · cases h
  · next c cs hsign =>
    split at h
    · cases h
    · next digit hdigit =>
      have halnum := isAlphanum_of_digitValue? hdigit
      obtain ⟨_, hn, _⟩ := Option.map_eq_some_iff.mp h
      obtain ⟨n, hn, _⟩ := Option.bind_eq_some_iff.mp hn
      rw [hsign, List.all_cons, isNumeralChar_of_isAlphanum halnum, all_of_readExponentDigits hn]
      rfl

private theorem all_of_exponentOf? {hex : Bool} {t : Text} {e : Int}
    (h : exponentOf? hex t = some e) : t.all isNumeralChar = true := by
  unfold exponentOf? at h
  split at h
  · rfl
  · next c cs =>
    obtain ⟨hletter, h⟩ := Option.ite_none_right_eq_some.mp h
    have hlower : (lowerChar c).isAlphanum = true := by
      rw [hletter]
      cases hex <;> decide
    rw [List.all_cons, isNumeralChar_of_isAlphanum (isAlphanum_of_lowerChar hlower),
      all_of_readExponent? h]
    rfl

private theorem all_of_splitHexMark? {t rest : Text} (h : splitHexMark? t = some rest)
    (hrest : (t.drop 2).all isNumeralChar = true) : t.all isNumeralChar = true := by
  unfold splitHexMark? at h
  split at h
  · next c tail =>
    obtain ⟨hx, _⟩ := Option.ite_none_right_eq_some.mp h
    have hlower : (lowerChar c).isAlphanum = true := by rw [hx]; decide
    have htail : tail.all isNumeralChar = true := hrest
    rw [List.all_cons, List.all_cons, htail,
      isNumeralChar_of_isAlphanum (isAlphanum_of_lowerChar hlower)]
    rfl
  · cases h

private theorem all_of_ratio? {t : Text} {r : Nat × Nat} (h : ratio? t = some r) :
    t.all isNumeralChar = true := by
  unfold ratio? at h
  obtain ⟨_, h⟩ := Option.ite_none_left_eq_some.mp h
  obtain ⟨e, he, _⟩ := Option.map_eq_some_iff.mp h
  have hdigits := all_of_readMantissa (all_of_exponentOf? he)
  split at hdigits
  · next hhex =>
    obtain ⟨rest, hrest⟩ := Option.isSome_iff_exists.mp (Bool.and_eq_true_iff.mp hhex).1
    exact all_of_splitHexMark? hrest hdigits
  · exact hdigits

private theorem all_of_named? {t : Text} {x : Binary64} (h : named? t = some x) :
    t.all isNumeralChar = true := by
  unfold named? at h
  dsimp only at h
  split at h
  · next hword =>
    apply all_of_splitSign
    rcases Bool.or_eq_true_iff.mp hword with hword | hword
    · exact all_of_spells (by decide) hword
    · exact all_of_spells (by decide) hword
  · obtain ⟨hword, _⟩ := Option.ite_none_right_eq_some.mp h
    exact all_of_spells (by decide) hword

/-- A text that is read as a number holds no other characters than those of numerals. -/
theorem all_of_read {t : Text} {x : Binary64} (h : read t = .ok x) :
    t.all isNumeralChar = true := by
  unfold read at h
  split at h
  · next hnamed => exact all_of_named? hnamed
  · dsimp only at h
    split at h
    · cases h
    · next hratio => exact all_of_splitSign (all_of_ratio? hratio)

end Numeral

/-! ### Comparisons -/

namespace Filter

def Comparison.sign : Comparison → Text
  | greater => ['>']
  | greaterEqual => ['>', '=']
  | less => ['<']
  | lessEqual => ['<', '=']

private theorem splitComparison?_sign (c : Comparison) {x : Text} (h : x.head? ≠ some '=') :
    splitComparison? (c.sign ++ x) = some (c, x) := by
  cases x with
  | nil => cases c <;> rfl
  | cons d x =>
    have hd : d ≠ '=' := by simpa using h
    cases c <;> simp [Comparison.sign, splitComparison?, hd]

private theorem readComparison_sign (c : Comparison) {x : Text} (htrim : x.trim = x) (hne : x ≠ [])
    (h : x.head? ≠ some '=') :
    readComparison (c.sign ++ x) =
      (readOperand x).map fun v => .document (single c.operator v) := by
  rw [readComparison, splitComparison?_sign c h]
  dsimp only
  rw [htrim, if_neg (by simpa using hne)]

private theorem looksLikeDate_iff {x : Text} :
    looksLikeDate x = true ↔ '-' ∈ x ∨ '/' ∈ x ∨ ':' ∈ x ∨ 'T' ∈ x := by
  simp only [looksLikeDate, List.any_eq_true, Bool.or_eq_true, decide_eq_true_eq]
  constructor
  · rintro ⟨c, hc, ((rfl | rfl) | rfl) | rfl⟩ <;> simp [hc]
  · rintro (h | h | h | h) <;> exact ⟨_, h, by simp⟩

private theorem readOperand_of_date {x : Text} {i : Instant} (h : Calendar.readDate? x = some i) :
    readOperand x = .ok (.date i) := by
  have hlooks : looksLikeDate x = true := by
    rw [looksLikeDate_iff]
    rcases Calendar.dash_or_slash_of_readDate? h with h | h <;> simp [h]
  rw [readOperand, if_pos hlooks, readDate, h]
  rfl

private theorem readOperand_of_number {x : Text} {n : Binary64}
    (hdate : Calendar.readDate? x = none) (h : Numeral.read x = .ok n) :
    readOperand x = if '-' ∈ x ∨ 'T' ∈ x then .error (.notDate x) else .ok (.number n) := by
  have hchars := List.all_eq_true.mp (Numeral.all_of_read h)
  -- of the four characters that make a date, a numeral can hold two
  have hlooks : looksLikeDate x = true ↔ '-' ∈ x ∨ 'T' ∈ x := by
    have hslash : '/' ∉ x := fun hmem => absurd (hchars _ hmem) (by decide)
    have hcolon : ':' ∉ x := fun hmem => absurd (hchars _ hmem) (by decide)
    simp [looksLikeDate_iff, hslash, hcolon]
  rw [readOperand, readDate, hdate, h]
  simp only [hlooks]
  rfl

private theorem readOperand_of_neither {x : Text} {e : NumberError}
    (hdate : Calendar.readDate? x = none) (h : Numeral.read x = .error e) :
    ∃ e', readOperand x = .error e' := by
  rw [readOperand, readDate, hdate, h]
  split_ifs
  · exact ⟨_, rfl⟩
  · exact ⟨_, rfl⟩

private theorem eq_plainValue_of_readOperand {x : Text} {v : Value} (h : readOperand x = .ok v) :
    v = plainValue x := by
  cases hdate : Calendar.readDate? x with
  | some i =>
    rw [readOperand_of_date hdate] at h
    rw [plainValue, hdate]
    exact (Except.ok.inj h).symm
  | none =>
    cases hnumber : Numeral.read x with
    | ok n =>
      rw [readOperand_of_number hdate hnumber] at h
      split_ifs at h
      rw [plainValue, hdate, hnumber]
      exact (Except.ok.inj h).symm
    | error e =>
      obtain ⟨e', he'⟩ := readOperand_of_neither hdate hnumber
      rw [he'] at h
      cases h

/-- The operand of a comparison is typed as a date if it reads as one, and else as a number if it
reads as one and is written without minus sign and capital `T`; with one of these it is refused as a
date. Whatever is accepted has the type of the plain value. -/
theorem operand_of_readComparison (c : Comparison) {x : Text} (htrim : x.trim = x) (hne : x ≠ [])
    (hsign : x.head? ≠ some '=') :
    (∀ d, Calendar.readDate? x = some d →
        readComparison (c.sign ++ x) = .ok (.document (single c.operator (.date d)))) ∧
      (∀ n, Calendar.readDate? x = none → Numeral.read x = .ok n → '-' ∉ x → 'T' ∉ x →
        readComparison (c.sign ++ x) = .ok (.document (single c.operator (.number n)))) ∧
      (∀ n, Calendar.readDate? x = none → Numeral.read x = .ok n → '-' ∈ x ∨ 'T' ∈ x →
        readComparison (c.sign ++ x) = .error (.notDate x)) ∧
      (∀ e, Calendar.readDate? x = none → Numeral.read x = .error e →
        ∃ e', readComparison (c.sign ++ x) = .error e') ∧
      ∀ v, readComparison (c.sign ++ x) = .ok v →
        v = .document (single c.operator (plainValue x)) := by
  rw [readComparison_sign c htrim hne hsign]
  refine ⟨?_, ?_, ?_, ?_, ?_⟩
  · intro d hd
    rw [readOperand_of_date hd]
    rfl
  · intro n hdate hn hminus ht
    rw [readOperand_of_number hdate hn, if_neg (by simp [hminus, ht])]
    rfl
  · intro n hdate hn hletter
    rw [readOperand_of_number hdate hn, if_pos hletter]
    rfl
  · intro e hdate he
    obtain ⟨e', he'⟩ := readOperand_of_neither hdate he
    exact ⟨e', by rw [he']; rfl⟩
  · intro v hv
    obtain ⟨w, hw, rfl⟩ := map_eq_ok.mp hv
    rw [eq_plainValue_of_readOperand hw]

theorem operand_of_readComparison_exponent :
    Numeral.read "25e2".toList = .ok (.finite false 5497558138880000 (-41)) ∧
      readComparison "<=25e2".toList =
        .ok (.document (single "$lte".toList (.number (.finite false 5497558138880000 (-41))))) ∧
      readComparison ">25e-2".toList = .error (.notDate "25e-2".toList) := by
  have hread : Numeral.read "25e2".toList = .ok (.finite false 5497558138880000 (-41)) := by
    decide +kernel
  have hsmall : Numeral.read "25e-2".toList = .ok (.finite false 4503599627370496 (-54)) := by
    decide +kernel
  obtain ⟨_, hplain, _⟩ := operand_of_readComparison .lessEqual (x := "25e2".toList)
    (by decide) (by decide) (by decide)
  obtain ⟨_, _, hminus, _⟩ := operand_of_readComparison .greater (x := "25e-2".toList)
    (by decide) (by decide) (by decide)
  refine ⟨hread, hplain _ (by decide) hread (by decide) (by decide), ?_⟩
  exact hminus _ (by decide) hsmall (Or.inl (by decide))

theorem negative_operand_refused :
    Calendar.readDate? "-5".toList = none ∧
      Numeral.read "-5".toList = .ok (.finite true 5629499534213120 (-50)) ∧
      readValue "-5".toList = .ok (.number (.finite true 5629499534213120 (-50))) ∧
      readComparison ">-5".toList = .error (.notDate "-5".toList) := by
  refine ⟨by decide, by decide +kernel, ?_, ?_⟩
  · rfl
  · rfl

end Filter

end BooleanSearch
