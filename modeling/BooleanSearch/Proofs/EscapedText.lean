import BooleanSearch.Json.Reader

/-!
# Escaped text

A text is put into a string either as it is or, if one of its characters asks for it, with every
piece in its quoted form. Quoting knows escapes that strings do not, and these are left as they are
when the escapes of a string are undone. So a text survives if it is not quoted at all or holds no
piece with such an escape. Stray bytes have one; they survive only in a text that is not quoted.
-/

namespace BooleanSearch.Json

/-- Tells that a piece does not ask for its text to be quoted. -/
def Ordinary : Piece → Prop
  | .char c => c ≠ '"' ∧ c ≠ '\\' ∧ 0x20 ≤ c.toNat
  | .byte _ => True

instance : DecidablePred Ordinary
  | .char c => inferInstanceAs (Decidable (c ≠ '"' ∧ c ≠ '\\' ∧ 0x20 ≤ c.toNat))
  | .byte _ => inferInstanceAs (Decidable True)

variable [CharacterData]

def ForeignChar (c : Char) : Prop :=
  c.toNat ≤ 0x07 ∨ c.toNat = 0x0B ∨ (0x0E ≤ c.toNat ∧ c.toNat ≤ 0x1F) ∨ c.toNat = 0x7F ∨
    (0x10000 ≤ c.toNat ∧ isPrintable c = false)

instance : DecidablePred ForeignChar := fun c =>
  inferInstanceAs (Decidable (_ ∨ _ ∨ (_ ∧ _) ∨ _ ∨ (0x10000 ≤ c.toNat ∧ _)))

/-- Tells that the quoted form of a piece is an escape that strings do not know. -/
def Foreign : Piece → Prop
  | .char c => ForeignChar c
  | .byte _ => True

instance : DecidablePred Foreign
  | .char c => inferInstanceAs (Decidable (ForeignChar c))
  | .byte _ => inferInstanceAs (Decidable True)

/-- Tells that a text survives being put into a string: nothing in it asks for quoting, or all of
it can be quoted. -/
def QuoteSafe (t : RawText) : Prop := (∀ p ∈ t, Ordinary p) ∨ ∀ p ∈ t, ¬Foreign p

instance : DecidablePred QuoteSafe := fun t =>
  @instDecidableOr _ _ (List.decidableBAll _ t) (List.decidableBAll _ t)

omit [CharacterData]

def Closed (written : RawText) : Prop :=
  ∀ rest, rawFrom false (written ++ .char '"' :: rest) = some (written, rest)

def Plain (t : RawText) : Prop := ∀ p ∈ t, p ≠ .char '"' ∧ p ≠ .char '\\'

instance : DecidablePred Plain := fun t => List.decidableBAll _ t

/-- The forms that a piece takes in a quoted text. -/
private inductive Quoted [CharacterData] (p : Piece) : RawText → Prop where
  | itself (hq : p ≠ .char '"') (hb : p ≠ .char '\\') (hp : ¬Foreign p) : Quoted p [p]
  | letter (e : Char) (he : escapedPiece? (.char e) = some p) (hp : ¬Foreign p) :
    Quoted p [.char '\\', .char e]
  | unit (c : Char) (hc : p = .char c) (hn : c.toNat < 0x10000) (hp : ¬Foreign p) :
    Quoted p (.char '\\' :: .char 'u' :: RawText.ofText (hexDigits 4 c.toNat))
  | foreign (e : Char) (ds : Text) (he : escapedPiece? (.char e) = none) (hu : e ≠ 'u')
    (hd : Plain (.ofText ds)) (hb : p ≠ .char '\\') (hp : Foreign p) :
    Quoted p (.char '\\' :: .char e :: RawText.ofText ds)

/-! ### Hexadecimal digits -/

private theorem hexDigit_ne : ∀ k < 16, hexDigit k ≠ '"' ∧ hexDigit k ≠ '\\' := by
  decide

private theorem hexValue?_hexDigit : ∀ k < 16, hexValue? (hexDigit k) = some k := by
  decide

private theorem plain_hexDigits (width n : Nat) : Plain (.ofText (hexDigits width n)) := by
  induction width generalizing n with
  | zero => exact List.forall_mem_nil _
  | succ width ih =>
    have hlast := hexDigit_ne (n % 16) (Nat.mod_lt n (by decide))
    rw [hexDigits, RawText.ofText, List.map_append, Plain, List.forall_mem_append,
      List.map_singleton, List.forall_mem_singleton]
    exact ⟨ih (n / 16), by simpa using hlast.1, by simpa using hlast.2⟩

private theorem hexUnit?_hexDigits {n : Nat} (h : n < 0x10000) :
    ∃ a b c d, RawText.ofText (hexDigits 4 n) = [a, b, c, d] ∧ hexUnit? a b c d = some n := by
  refine ⟨_, _, _, _, rfl, ?_⟩
  have hdigit : ∀ k, hexValue? (hexDigit (k % 16)) = some (k % 16) := by
    intro k
    exact hexValue?_hexDigit (k % 16) (Nat.mod_lt k (by decide))
  simp only [hexUnit?, hexPiece?, hdigit, Option.bind_eq_bind, Option.bind_some, Option.some.injEq]
  omega

/-! ### The quoted form of a piece -/

section

variable [CharacterData]

private theorem not_foreignChar {c : Char}
    (h : (0x08 ≤ c.toNat ∧ c.toNat ≤ 0x0D ∧ c.toNat ≠ 0x0B) ∨
      (0x20 ≤ c.toNat ∧ c.toNat < 0x10000 ∧ c.toNat ≠ 0x7F)) : ¬ForeignChar c := by
  simp only [ForeignChar]
  omega

private theorem not_foreign_of_isPrintable {c : Char} (h : isPrintable c = true) :
    ¬ForeignChar c := by
  intro hf
  have hascii : c.toNat < 0x80 → 0x20 ≤ c.toNat ∧ c.toNat < 0x7F := by
    intro hn
    simpa [isPrintable, hn] using h
  rcases hf with hf | hf | hf | hf | hf
  · omega
  · omega
  · omega
  · omega
  · rw [hf.2] at h
    cases h

private theorem quoted_letter {c d e : Char} (hn : c.toNat = d.toNat)
    (he : escapedPiece? (.char e) = some (.char d))
    (hd : 0x08 ≤ d.toNat ∧ d.toNat ≤ 0x0D ∧ d.toNat ≠ 0x0B) :
    Quoted (.char c) [.char '\\', .char e] := by
  obtain rfl : c = d := Char.toNat_inj.mp hn
  exact .letter e he (not_foreignChar (Or.inl hd))

private theorem quoted_quotedChar (c : Char) : Quoted (.char c) (.ofText (quotedChar c)) := by
  by_cases hs : c = '"' ∨ c = '\\'
  · rcases hs with rfl | rfl
    · exact .letter '"' (by decide) (not_foreignChar (by decide))
    · exact .letter '\\' (by decide) (not_foreignChar (by decide))
  rw [not_or] at hs
  have hback : Piece.char c ≠ .char '\\' := by simpa using hs.2
  rw [quotedChar, if_neg (by simpa using hs)]
  by_cases hp : isPrintable c = true
  · rw [if_pos hp]
    exact .itself (by simpa using hs.1) hback (not_foreign_of_isPrintable hp)
  rw [if_neg hp]
  have hascii : c.toNat < 0x80 → c.toNat < 0x20 ∨ c.toNat = 0x7F := by
    intro hn
    simp [isPrintable, hn] at hp
    omega
  simp only [beq_iff_eq]
  -- what is left cannot be printed, and the splits follow the table of its escapes
  split
  · next hn =>
    refine .foreign 'a' [] (by decide) (by decide) (List.forall_mem_nil _) hback ?_
    exact Or.inl (Nat.le_of_eq hn)
  split
  · next hn => exact quoted_letter (d := Char.ofNat 0x08) hn (by decide) (by decide)
  split
  · next hn => exact quoted_letter (d := Char.ofNat 0x0C) hn (by decide) (by decide)
  split
  · next hn => exact quoted_letter (d := '\n') hn (by decide) (by decide)
  split
  · next hn => exact quoted_letter (d := '\r') hn (by decide) (by decide)
  split
  · next hn => exact quoted_letter (d := '\t') hn (by decide) (by decide)
  split
  · next hn =>
    refine .foreign 'v' [] (by decide) (by decide) (List.forall_mem_nil _) hback ?_
    exact Or.inr (Or.inl hn)
  split
  · next hn =>
    have := hascii hn
    refine .foreign 'x' _ (by decide) (by decide) (plain_hexDigits 2 _) hback ?_
    simp only [Foreign, ForeignChar]
    omega
  split
  · next hn =>
    refine .unit c rfl hn ?_
    simp only [Foreign, ForeignChar]
    omega
  · next hn =>
    refine .foreign 'U' _ (by decide) (by decide) (plain_hexDigits 8 _) hback ?_
    refine Or.inr (Or.inr (Or.inr (Or.inr ⟨Nat.le_of_not_lt hn, ?_⟩)))
    simpa using hp

private theorem quoted_quoted (p : Piece) : Quoted p (quoted p) := by
  cases p with
  | char c => exact quoted_quotedChar c
  | byte high =>
    exact .foreign (p := .byte high) 'x' _ (by decide) (by decide) (plain_hexDigits 2 _) (by simp)
      trivial

end

/-! ### Undoing escapes -/

private theorem unescape_cons {p : Piece} (h : p ≠ .char '\\') (s : RawText) :
    unescape (p :: s) = p :: unescape s := by
  cases s with
  | nil => rfl
  | cons e s =>
    rw [unescape.eq_def]
    exact if_pos h

private theorem unescape_letter {e : Char} (h : e ≠ 'u') (s : RawText) :
    unescape (.char '\\' :: .char e :: s) =
      match escapedPiece? (.char e) with
      | some d => d :: unescape s
      | none => .char '\\' :: .char e :: unescape s := by
  have hu : Piece.char e ≠ .char 'u' := by simpa using h
  rw [unescape.eq_def]
  exact if_pos hu

private theorem unescape_plain {q : RawText} (h : Plain q) (s : RawText) :
    unescape (q ++ s) = q ++ unescape s := by
  induction q with
  | nil => rfl
  | cons p q ih =>
    rw [Plain, List.forall_mem_cons] at h
    rw [List.cons_append, unescape_cons h.1.2, ih h.2, List.cons_append]

theorem Plain.unescape_eq {t : RawText} (h : Plain t) : unescape t = t := by
  have he := unescape_plain h []
  rwa [List.append_nil, unescape, List.append_nil] at he

private theorem unescape_unit {n : Nat} (hn : n < 0x10000) (hs : isSurrogate n = false)
    (s : RawText) :
    unescape (.char '\\' :: .char 'u' :: (RawText.ofText (hexDigits 4 n) ++ s)) =
      .char (Char.ofNat n) :: unescape s := by
  obtain ⟨a, b, c, d, he, hu⟩ := hexUnit?_hexDigits hn
  rw [he]
  simp [unescape, hu, hs]

private theorem isSurrogate_toNat (c : Char) : isSurrogate c.toNat = false := by
  have := c.valid
  simp only [isSurrogate, UInt32.isValidChar, Nat.isValidChar] at *
  change c.toNat < 0xd800 ∨ 0xdfff < c.toNat ∧ c.toNat < 0x110000 at this
  simp
  omega

section

variable [CharacterData]

/-- What becomes of a quoted piece: a foreign escape stays, any other is undone. -/
private theorem unescape_quoted (p : Piece) (s : RawText) :
    unescape (quoted p ++ s) =
      (if Foreign p then quoted p else [p]) ++ unescape s := by
  have hq := quoted_quoted p
  generalize quoted p = q at hq
  cases hq with
  | itself hq hb hp =>
    rw [if_neg hp, List.singleton_append, unescape_cons hb, List.singleton_append]
  | letter e he hp =>
    have hu : e ≠ 'u' := by
      rintro rfl
      cases he
    rw [if_neg hp, List.cons_append, List.singleton_append, unescape_letter hu, he,
      List.singleton_append]
  | unit c hc hn hp =>
    rw [if_neg hp, List.cons_append, List.cons_append, unescape_unit hn (isSurrogate_toNat c),
      Char.ofNat_toNat, List.singleton_append, hc]
  | foreign e ds he hu hd hb hp =>
    rw [if_pos hp, List.cons_append, List.cons_append, unescape_letter hu, he, unescape_plain hd]
    rfl

private theorem unescape_flatMap_quoted (t : RawText) :
    unescape (t.flatMap quoted) =
      t.flatMap fun p => if Foreign p then quoted p else [p] := by
  induction t with
  | nil => rfl
  | cons p t ih => rw [List.flatMap_cons, unescape_quoted, ih, List.flatMap_cons]

private theorem quoted_of_foreign {p : Piece} (h : Foreign p) :
    p ≠ .char '\\' ∧ ∃ q, quoted p = .char '\\' :: q := by
  have hq := quoted_quoted p
  generalize quoted p = q at hq
  cases hq with
  | itself _ _ hp => exact absurd h hp
  | letter _ _ hp => exact absurd h hp
  | unit _ _ _ hp => exact absurd h hp
  | foreign e ds _ _ _ hb _ => exact ⟨hb, .char e :: RawText.ofText ds, rfl⟩

private theorem flatMap_quoted_eq_iff (t : RawText) :
    (t.flatMap fun p => if Foreign p then quoted p else [p]) = t ↔ ∀ p ∈ t, ¬Foreign p := by
  induction t with
  | nil => simp
  | cons p t ih =>
    rw [List.flatMap_cons, List.forall_mem_cons]
    by_cases hp : Foreign p
    · -- a foreign escape begins with a backslash, which the piece is not
      obtain ⟨hb, q, hq⟩ := quoted_of_foreign hp
      rw [if_pos hp, hq, List.cons_append, List.cons.injEq]
      exact ⟨fun h => absurd h.1.symm hb, fun h => absurd hp h.1⟩
    · rw [if_neg hp, List.singleton_append, List.cons.injEq, ih]
      exact ⟨fun h => ⟨hp, h.2⟩, fun h => ⟨rfl, h.2⟩⟩

end

private theorem any_needsEscape_eq_false_iff (t : RawText) :
    t.any needsEscape = false ↔ ∀ p ∈ t, Ordinary p := by
  rw [List.any_eq_false]
  apply forall₂_congr
  intro p _
  cases p <;> simp [needsEscape, Ordinary, and_assoc]

private theorem plain_of_ordinary {t : RawText} (h : ∀ p ∈ t, Ordinary p) : Plain t := by
  intro p hp
  have ho := h p hp
  cases p with
  | char c => exact ⟨by simpa using ho.1, by simpa using ho.2.1⟩
  | byte high => exact ⟨by simp, by simp⟩

private theorem escape_of_ordinary [CharacterData] {t : RawText} (h : ∀ p ∈ t, Ordinary p) :
    escape t = t := by
  rw [escape, (any_needsEscape_eq_false_iff t).mpr h]
  rfl

private theorem escape_of_not_ordinary [CharacterData] {t : RawText} (h : ¬∀ p ∈ t, Ordinary p) :
    escape t = t.flatMap quoted := by
  rw [← any_needsEscape_eq_false_iff, Bool.not_eq_false] at h
  rw [escape, if_pos h]

/-- A text is what its written form stands for exactly if it is safe to quote. -/
theorem unescape_escape_iff [CharacterData] (t : RawText) :
    unescape (escape t) = t ↔ QuoteSafe t := by
  by_cases h : ∀ p ∈ t, Ordinary p
  · rw [escape_of_ordinary h, (plain_of_ordinary h).unescape_eq]
    exact iff_of_true rfl (Or.inl h)
  · rw [escape_of_not_ordinary h, unescape_flatMap_quoted, flatMap_quoted_eq_iff, QuoteSafe,
      or_iff_right h]

theorem unescape_escape_of_ordinary [CharacterData] {t : RawText} (h : ∀ p ∈ t, Ordinary p) :
    unescape (escape t) = t :=
  (unescape_escape_iff t).mpr (Or.inl h)

/-! ### The end of a string -/

private theorem rawFrom_plain {q : RawText} (h : Plain q) (s : RawText) :
    rawFrom false (q ++ s) = (rawFrom false s).map fun r => (q ++ r.1, r.2) := by
  induction q with
  | nil => simp
  | cons p q ih =>
    rw [Plain, List.forall_mem_cons] at h
    simp [rawFrom, h.1, ih h.2, Function.comp_def]

theorem Plain.closed {t : RawText} (h : Plain t) : Closed t := by
  intro rest
  rw [rawFrom_plain h, rawFrom]
  simp

private theorem rawFrom_escape (e : Char) (s : RawText) :
    rawFrom false (.char '\\' :: .char e :: s) =
      (rawFrom false s).map fun r => (.char '\\' :: .char e :: r.1, r.2) := by
  simp [rawFrom, Function.comp_def]

private theorem rawFrom_quoted [CharacterData] (p : Piece) (s : RawText) :
    rawFrom false (quoted p ++ s) =
      (rawFrom false s).map fun r => (quoted p ++ r.1, r.2) := by
  have hq := quoted_quoted p
  generalize quoted p = q at hq
  cases hq with
  | itself hq hb => exact rawFrom_plain (List.forall_mem_singleton.mpr ⟨hq, hb⟩) s
  | letter e => exact rawFrom_escape e s
  | unit =>
    rw [List.cons_append, List.cons_append, rawFrom_escape, rawFrom_plain (plain_hexDigits _ _)]
    simp [Function.comp_def]
  | foreign e ds _ _ hd =>
    rw [List.cons_append, List.cons_append, rawFrom_escape, rawFrom_plain hd]
    simp [Function.comp_def]

theorem closed_escape [CharacterData] (t : RawText) : Closed (escape t) := by
  by_cases h : ∀ p ∈ t, Ordinary p
  · rw [escape_of_ordinary h]
    exact (plain_of_ordinary h).closed
  · rw [escape_of_not_ordinary h]
    intro rest
    clear h
    induction t with
    | nil => rfl
    | cons p t ih =>
      rw [List.flatMap_cons, List.append_assoc, rawFrom_quoted, ih]
      rfl

end BooleanSearch.Json
