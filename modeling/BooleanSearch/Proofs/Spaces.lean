import BooleanSearch.Text.Blank
import Mathlib.Data.List.Chain

/-!
# Trimming and squeezing

A text is its trimmed form between two runs of spaces, and spaces at its ends never show in that
form. Squeezing keeps every character that is not a blank, and leaves a squeezed text and each part
of it alone.
-/

namespace BooleanSearch.Text

def AllSpace (t : Text) : Prop := ∀ c ∈ t, isSpace c = true

@[simp] theorem allSpace_nil : AllSpace [] := by simp [AllSpace]

theorem allSpace_cons {c : Char} {t : Text} :
    AllSpace (c :: t) ↔ isSpace c = true ∧ AllSpace t := by
  simp [AllSpace]

theorem allSpace_append {s t : Text} : AllSpace (s ++ t) ↔ AllSpace s ∧ AllSpace t := by
  simp [AllSpace, or_imp, forall_and]

theorem AllSpace.not_mem {s : Text} (hs : AllSpace s) {c : Char} (hc : isSpace c = false) :
    c ∉ s := by
  intro hm
  simp [hs c hm] at hc

theorem exists_trimLeft (t : Text) : ∃ s, AllSpace s ∧ t = s ++ trimLeft t := by
  refine ⟨t.takeWhile isSpace, ?_, (List.takeWhile_append_dropWhile).symm⟩
  intro c hc
  exact List.all_eq_true.mp List.all_takeWhile c hc

theorem trimLeft_append_of_allSpace {s : Text} (hs : AllSpace s) (t : Text) :
    trimLeft (s ++ t) = trimLeft t := by
  induction s with
  | nil => rfl
  | cons c s ih =>
    have h := allSpace_cons.mp hs
    rw [← ih h.2]
    simp [trimLeft, h.1]

theorem trimLeft_eq_self_iff {t : Text} :
    trimLeft t = t ↔ ∀ c u, t = c :: u → isSpace c = false := by
  cases t with
  | nil => simp [trimLeft]
  | cons c u =>
    cases hc : isSpace c with
    | false => simp [trimLeft, hc]
    | true =>
      have hlen := length_trimLeft_le u
      constructor
      · intro h
        have he := congrArg List.length h
        simp only [trimLeft, List.dropWhile_cons, hc, if_true, List.length_cons] at he hlen
        omega
      · intro h
        simp [h c u rfl] at hc

@[simp] theorem trimLeft_trimLeft (t : Text) : trimLeft (trimLeft t) = trimLeft t := by
  obtain ⟨s, hs, ht⟩ := exists_trimLeft t
  have h := trimLeft_append_of_allSpace hs (trimLeft t)
  rw [← ht] at h
  exact h.symm

theorem trimRight_append (s t : Text) :
    trimRight (s ++ t) = if trimRight t = [] then trimRight s else s ++ trimRight t := by
  induction s with
  | nil => by_cases h : trimRight t = [] <;> simp [h, trimRight]
  | cons c s ih =>
    simp only [List.cons_append, trimRight, ih]
    by_cases h : trimRight t = []
    · simp [h]
    · have hne : s ++ trimRight t ≠ [] := by simp [h]
      obtain ⟨d, ds, hd⟩ := List.exists_cons_of_ne_nil hne
      simp [h, hd]

theorem trimRight_eq_nil_iff {t : Text} : trimRight t = [] ↔ AllSpace t := by
  induction t with
  | nil => simp [trimRight]
  | cons c t ih =>
    rw [allSpace_cons, ← ih]
    cases hr : trimRight t with
    | nil => cases hc : isSpace c <;> simp [trimRight, hr, hc]
    | cons d ds => simp [trimRight, hr]

theorem trimRight_append_of_allSpace {s : Text} (hs : AllSpace s) (t : Text) :
    trimRight (t ++ s) = trimRight t := by
  rw [trimRight_append, if_pos (trimRight_eq_nil_iff.mpr hs)]

theorem exists_trimRight (t : Text) : ∃ s, AllSpace s ∧ t = trimRight t ++ s := by
  induction t with
  | nil => exact ⟨[], by simp, rfl⟩
  | cons c t ih =>
    obtain ⟨s, hs, ht⟩ := ih
    cases hr : trimRight t with
    | cons d ds =>
      refine ⟨s, hs, ?_⟩
      rw [hr] at ht
      simpa [trimRight, hr] using ht
    | nil =>
      have hsp : AllSpace t := trimRight_eq_nil_iff.mp hr
      cases hc : isSpace c with
      | true => exact ⟨c :: t, allSpace_cons.mpr ⟨hc, hsp⟩, by simp [trimRight, hr, hc]⟩
      | false => exact ⟨t, hsp, by simp [trimRight, hr, hc]⟩

@[simp] theorem trimRight_trimRight (t : Text) : trimRight (trimRight t) = trimRight t := by
  obtain ⟨s, hs, ht⟩ := exists_trimRight t
  have h := trimRight_append_of_allSpace hs (trimRight t)
  rw [← ht] at h
  exact h.symm

theorem trimLeft_trimRight {t : Text} (h : trimLeft t = t) :
    trimLeft (trimRight t) = trimRight t := by
  obtain ⟨s, _, ht⟩ := exists_trimRight t
  apply trimLeft_eq_self_iff.mpr
  intro c u hu
  exact trimLeft_eq_self_iff.mp h c (u ++ s) (by rw [ht, hu]; rfl)

@[simp] theorem trimLeft_trim (t : Text) : trimLeft (trim t) = trim t :=
  trimLeft_trimRight (trimLeft_trimLeft t)

@[simp] theorem trimRight_trim (t : Text) : trimRight (trim t) = trim t :=
  trimRight_trimRight (trimLeft t)

@[simp] theorem trim_trim (t : Text) : trim (trim t) = trim t := by
  rw [trim, trimLeft_trim, trimRight_trim]

theorem exists_trim (t : Text) : ∃ s s', AllSpace s ∧ AllSpace s' ∧ t = s ++ (trim t ++ s') := by
  obtain ⟨s, hs, ht⟩ := exists_trimLeft t
  obtain ⟨s', hs', ht'⟩ := exists_trimRight (trimLeft t)
  refine ⟨s, s', hs, hs', ?_⟩
  calc t = s ++ trimLeft t := ht
    _ = s ++ (trim t ++ s') := by rw [trim, ← ht']

theorem trim_append_of_allSpace {s s' : Text} (hs : AllSpace s) (hs' : AllSpace s') (t : Text) :
    trim (s ++ (t ++ s')) = trim t := by
  rw [trim, trimLeft_append_of_allSpace hs]
  obtain ⟨r, hr, ht⟩ := exists_trimLeft t
  by_cases hn : trimLeft t = []
  · have hall : AllSpace (t ++ s') := by
      rw [ht, hn, List.append_nil]
      exact allSpace_append.mpr ⟨hr, hs'⟩
    have he : trimLeft (t ++ s') = [] := by
      simpa [trimLeft] using trimLeft_append_of_allSpace hall []
    simp [trim, he, hn, trimRight]
  · have he : trimLeft (t ++ s') = trimLeft t ++ s' := by
      rw [show t ++ s' = r ++ (trimLeft t ++ s') by rw [← List.append_assoc, ← ht],
        trimLeft_append_of_allSpace hr]
      obtain ⟨c, u, hu⟩ := List.exists_cons_of_ne_nil hn
      have hc := trimLeft_eq_self_iff.mp (trimLeft_trimLeft t) c u hu
      apply trimLeft_eq_self_iff.mpr
      intro d v hv
      rw [hu, List.cons_append] at hv
      exact (List.cons.inj hv).1 ▸ hc
    rw [he, trimRight_append_of_allSpace hs', trim]

theorem trim_eq_nil_iff {t : Text} : trim t = [] ↔ AllSpace t := by
  obtain ⟨s, s', hs, hs', ht⟩ := exists_trim t
  constructor
  · intro h
    rw [ht, h]
    exact allSpace_append.mpr ⟨hs, hs'⟩
  · intro h
    have hw : AllSpace (trimLeft t) := by
      obtain ⟨r, _, hr⟩ := exists_trimLeft t
      exact (allSpace_append.mp (hr ▸ h)).2
    exact trimRight_eq_nil_iff.mpr hw

theorem mem_of_mem_trim {t : Text} {c : Char} (h : c ∈ trim t) : c ∈ t := by
  obtain ⟨s, s', _, _, ht⟩ := exists_trim t
  rw [ht]
  simp [h]

theorem filter_trim {p : Char → Bool} (hp : ∀ c, isSpace c = true → p c = false) (t : Text) :
    (trim t).filter p = t.filter p := by
  obtain ⟨s, s', hs, hs', ht⟩ := exists_trim t
  have hnone {r : Text} (hr : AllSpace r) : r.filter p = [] :=
    List.filter_eq_nil_iff.mpr fun c hc => by simp [hp c (hr c hc)]
  conv_rhs => rw [ht, List.filter_append, List.filter_append, hnone hs, hnone hs']
  rw [List.nil_append, List.append_nil]

private theorem count_eq_of_filter {s t : Text} {c : Char} {f : Char → Bool} (hc : f c = false)
    (h : (∀ d, f d = true → (d == c) = false) → s.filter (· == c) = t.filter (· == c)) :
    s.count c = t.count c := by
  rw [List.count_eq_length_filter, List.count_eq_length_filter, h]
  intro d hd
  apply beq_false_of_ne
  rintro rfl
  exact absurd hd (by simp [hc])

theorem count_trim {c : Char} (hc : isSpace c = false) (t : Text) :
    (trim t).count c = t.count c :=
  count_eq_of_filter hc fun hp => filter_trim hp t

theorem mem_of_mem_squeezeFrom {after : Bool} {t : Text} {c : Char}
    (h : c ∈ squeezeFrom after t) : c ∈ t ∨ c = ' ' := by
  induction t generalizing after with
  | nil => simp [squeezeFrom] at h
  | cons d t ih =>
    rw [squeezeFrom] at h
    split at h
    · split at h
      · exact (ih h).imp_left (List.mem_cons_of_mem d)
      · rcases List.mem_cons.mp h with rfl | h
        · exact Or.inr rfl
        · exact (ih h).imp_left (List.mem_cons_of_mem d)
    · rcases List.mem_cons.mp h with rfl | h
      · exact Or.inl (by simp)
      · exact (ih h).imp_left (List.mem_cons_of_mem d)

theorem filter_squeezeFrom {p : Char → Bool} (hp : ∀ c, isBlank c = true → p c = false)
    (after : Bool) (t : Text) : (squeezeFrom after t).filter p = t.filter p := by
  induction t generalizing after with
  | nil => rfl
  | cons d t ih =>
    rw [squeezeFrom]
    split_ifs with hd hafter
    · rw [ih, List.filter_cons_of_neg (by simp [hp d hd])]
    · rw [List.filter_cons_of_neg (by simp [hp ' ' (by decide)]), ih,
        List.filter_cons_of_neg (by simp [hp d hd])]
    · rw [List.filter_cons, List.filter_cons, ih]

theorem filter_squeeze {p : Char → Bool} (hp : ∀ c, isBlank c = true → p c = false) (t : Text) :
    (squeeze t).filter p = t.filter p :=
  filter_squeezeFrom hp false t

theorem count_squeeze {c : Char} (hc : isBlank c = false) (t : Text) :
    (squeeze t).count c = t.count c :=
  count_eq_of_filter hc fun hp => filter_squeeze hp t

theorem trim_isInfix (t : Text) : trim t <:+: t := by
  obtain ⟨s, s', _, _, ht⟩ := exists_trim t
  exact ⟨s, s', by rw [List.append_assoc, ← ht]⟩

theorem trimRight_eq_self_iff {t : Text} :
    trimRight t = t ↔ ∀ c ∈ t.getLast?, isSpace c = false := by
  rcases List.eq_nil_or_concat t with rfl | ⟨u, d, rfl⟩
  · simp [trimRight]
  · rw [List.concat_eq_append, trimRight_append, List.getLast?_append]
    cases hd : isSpace d with
    | false => simp [trimRight, hd]
    | true =>
      have hshort : trimRight u ≠ u ++ [d] := by
        intro h
        have hle := length_trimRight_le u
        rw [h, List.length_append, List.length_singleton] at hle
        omega
      simp [trimRight, hd, hshort]

theorem trim_eq_self_iff {t : Text} :
    trim t = t ↔ (∀ c ∈ t.head?, isSpace c = false) ∧ ∀ c ∈ t.getLast?, isSpace c = false := by
  have hleft : trimLeft t = t ↔ ∀ c ∈ t.head?, isSpace c = false := by
    rw [trimLeft_eq_self_iff]
    cases t <;> simp
  rw [← hleft, ← trimRight_eq_self_iff]
  constructor
  · intro h
    rw [← h]
    exact ⟨trimLeft_trim t, trimRight_trim t⟩
  · rintro ⟨hl, hr⟩
    rw [trim, hl, hr]

theorem trim_eq_self {c d : Char} (t : Text) (hc : isSpace c = false) (hd : isSpace d = false) :
    trim (c :: (t ++ [d])) = c :: (t ++ [d]) :=
  trim_eq_self_iff.mpr ⟨by simp [hc], by simp [List.getLast?_cons, hd]⟩

/-- A tab, a line feed, a form feed, a carriage return or a space. -/
def Blank (c : Char) : Prop := c = '\t' ∨ c = '\n' ∨ c = '\x0c' ∨ c = '\r' ∨ c = ' '

instance : DecidablePred Blank := fun c =>
  inferInstanceAs (Decidable (c = '\t' ∨ c = '\n' ∨ c = '\x0c' ∨ c = '\r' ∨ c = ' '))

theorem isBlank_iff {c : Char} : isBlank c = true ↔ Blank c := by
  have hfeed : Char.ofNat 0x0C = '\x0c' := by decide
  simp only [isBlank, Blank, hfeed, Bool.or_eq_true, beq_iff_eq]
  tauto

/-- Tells that every blank of a text is a space and that no two of them are neighbours. -/
structure Squeezed (t : Text) : Prop where
  apart : t.IsChain fun c d => ¬(Blank c ∧ Blank d)
  spaces : ∀ c ∈ t, Blank c → c = ' '

theorem Squeezed.of_isInfix {s t : Text} (h : Squeezed t) (hs : s <:+: t) : Squeezed s where
  apart := List.IsChain.infix h.apart hs
  spaces c hc := h.spaces c (hs.subset hc)

private theorem squeezeFrom_apart (after : Bool) (t : Text) :
    (squeezeFrom after t).IsChain (fun c d => ¬(isBlank c = true ∧ isBlank d = true)) ∧
      (after = true → ∀ c ∈ (squeezeFrom after t).head?, isBlank c = false) := by
  induction t generalizing after with
  | nil => simp [squeezeFrom]
  | cons c t ih =>
    rw [squeezeFrom]
    split_ifs with hc ha
    · exact ⟨(ih true).1, fun _ => (ih true).2 rfl⟩
    · refine ⟨List.isChain_cons.mpr ⟨?_, (ih true).1⟩, fun h => absurd h ha⟩
      intro d hd
      simp [(ih true).2 rfl d hd]
    · refine ⟨List.isChain_cons.mpr ⟨?_, (ih false).1⟩, fun _ => ?_⟩
      · intro d _ h
        exact hc h.1
      · simpa using hc

theorem squeezed_squeeze (t : Text) : Squeezed (squeeze t) := by
  constructor
  · simpa only [squeeze, isBlank_iff] using (squeezeFrom_apart false t).1
  simp only [← isBlank_iff]
  suffices ∀ after, ∀ c ∈ squeezeFrom after t, isBlank c = true → c = ' ' from this false
  induction t with
  | nil => simp [squeezeFrom]
  | cons d t ih =>
    intro after c hc hb
    rw [squeezeFrom] at hc
    split_ifs at hc with hd
    · exact ih true c hc hb
    · rcases List.mem_cons.mp hc with rfl | hc
      · rfl
      · exact ih true c hc hb
    · rcases List.mem_cons.mp hc with rfl | hc
      · exact absurd hb hd
      · exact ih false c hc hb

theorem Squeezed.squeeze_eq {t : Text} (h : Squeezed t) : squeeze t = t := by
  suffices ∀ after, (after = true → ∀ c ∈ t.head?, isBlank c = false) →
      squeezeFrom after t = t from this false (by simp)
  induction t with
  | nil => intro after _; rfl
  | cons c t ih =>
    intro after hafter
    have ht : Squeezed t := h.of_isInfix (List.suffix_cons c t).isInfix
    have hnext : isBlank c = true → ∀ d ∈ t.head?, isBlank d = false := by
      intro hc d hd
      have hcd := (List.isChain_cons.mp h.apart).1 d hd
      simpa [← isBlank_iff, hc] using hcd
    rw [squeezeFrom]
    split_ifs with hc ha
    · have hne := hafter ha c (by simp)
      simp [hc] at hne
    · rw [ih ht true fun _ => hnext hc, h.spaces c (by simp) (isBlank_iff.mp hc)]
    · rw [ih ht false (by simp)]

theorem squeezed_iff {t : Text} : Squeezed t ↔ squeeze t = t := by
  constructor
  · exact Squeezed.squeeze_eq
  · intro h
    rw [← h]
    exact squeezed_squeeze t

end BooleanSearch.Text
