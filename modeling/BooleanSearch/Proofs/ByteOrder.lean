import BooleanSearch.Text.Basic
import Mathlib.Data.Char
import Mathlib.Data.List.Lex

/-!
# The order of texts

Texts are compared character by character. This is also the order of their UTF-8 forms, compared
byte by byte: of two characters the greater one has a greater first byte, or as many bytes, of which
the first that differs is greater.
-/

namespace BooleanSearch.Text

def bytes (t : Text) : List UInt8 := t.flatMap String.utf8EncodeChar

theorem le_iff {s t : Text} : le s t = true ↔ s ≤ t := by
  rw [← not_lt]
  induction s generalizing t with
  | nil => simp [le]
  | cons c cs ih =>
    cases t with
    | nil => simp [le]
    | cons d ds =>
      have hlt : (decide (c.val < d.val)) = decide (c < d) := rfl
      rw [List.cons_lt_cons_iff, le, hlt]
      rcases lt_trichotomy c d with h | rfl | h
      · simp [h, h.ne', h.not_gt]
      · simp [ih]
      · simp [h, h.ne', h.not_gt]

private theorem byte_lt {m n : Nat} (hm : m < 256) (hn : n < 256) :
    UInt8.ofNat m < UInt8.ofNat n ↔ m < n :=
  UInt8.ofNat_lt_iff_lt hm hn

private theorem byte_eq {m n : Nat} (hm : m < 256) (hn : n < 256) :
    UInt8.ofNat m = UInt8.ofNat n ↔ m = n := by
  rw [← UInt8.toNat_inj, UInt8.toNat_ofNat', UInt8.toNat_ofNat', Nat.mod_eq_of_lt hm,
    Nat.mod_eq_of_lt hn]

/-- The bytes of the greater character are greater, whatever follows. -/
private theorem utf8EncodeChar_lt {c d : Char} (h : c < d) (s t : List UInt8) :
    String.utf8EncodeChar c ++ s < String.utf8EncodeChar d ++ t := by
  have hlt : c.val.toNat < d.val.toNat := UInt32.lt_iff_toNat_lt.mp h
  have hmax : d.val.toNat < 0x110000 := by
    rcases d.valid with hd | ⟨_, hd⟩
    · exact Nat.lt_trans hd (by decide)
    · exact hd
  -- the six bits of a byte are a digit to the base of 64
  have hthird (k : Nat) : k / 4096 = k / 64 / 64 := (Nat.div_div_eq_div_mul k 64 64).symm
  have hfourth (k : Nat) : k / 262144 = k / 64 / 64 / 64 := by
    rw [Nat.div_div_eq_div_mul, Nat.div_div_eq_div_mul]
  simp only [String.utf8EncodeChar, hthird, hfourth]
  generalize c.val.toNat = m at *
  generalize d.val.toNat = n at *
  split_ifs
  all_goals
    simp (disch := omega) only [List.cons_append, List.nil_append, List.cons_lt_cons_iff, byte_lt,
      byte_eq]
    omega

theorem bytes_lt {s t : Text} (h : s < t) : s.bytes < t.bytes := by
  induction s generalizing t with
  | nil =>
    cases t with
    | nil => exact absurd h (List.not_lt_nil _)
    | cons d ds =>
      have hne : bytes (d :: ds) ≠ [] := by simp [bytes]
      obtain ⟨b, bs, hbs⟩ := List.exists_cons_of_ne_nil hne
      rw [hbs]
      exact List.nil_lt_cons b bs
  | cons c cs ih =>
    cases t with
    | nil => exact absurd h (List.not_lt_nil _)
    | cons d ds =>
      rw [bytes, bytes, List.flatMap_cons, List.flatMap_cons]
      rcases List.cons_lt_cons_iff.mp h with hc | ⟨rfl, hcs⟩
      · exact utf8EncodeChar_lt hc _ _
      · exact List.append_left_lt (ih hcs)

end BooleanSearch.Text
