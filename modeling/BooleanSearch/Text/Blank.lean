import BooleanSearch.Text.Basic

/-!
# White space

Two classes of white space take part in reading a query. *Blanks* separate lexemes and are
squeezed inside quotes; the wider class of *spaces* is what trimming removes.
-/

namespace BooleanSearch

/-- The characters that separate lexemes: tab, line feed, form feed, carriage return, space. -/
def isBlank (c : Char) : Bool :=
  c == ' ' || c == '\t' || c == '\n' || c == '\r' || c == Char.ofNat 0x0C

/-- The characters with the Unicode property `White_Space`. -/
def isSpace (c : Char) : Bool :=
  let n := c.toNat
  (0x09 ≤ n && n ≤ 0x0D) || n == 0x20 || n == 0x85 || n == 0xA0 || n == 0x1680 ||
    (0x2000 ≤ n && n ≤ 0x200A) || n == 0x2028 || n == 0x2029 || n == 0x202F ||
    n == 0x205F || n == 0x3000

theorem isSpace_of_isBlank {c : Char} (h : isBlank c = true) : isSpace c = true := by
  simp only [isBlank, Bool.or_eq_true, beq_iff_eq] at h
  rcases h with (((h | h) | h) | h) | h <;> subst h <;> decide

namespace Text

def trimLeft (t : Text) : Text := t.dropWhile isSpace

def trimRight : Text → Text
  | [] => []
  | c :: cs =>
    match trimRight cs with
    | [] => if isSpace c then [] else [c]
    | d :: ds => c :: d :: ds

def trim (t : Text) : Text := trimRight (trimLeft t)

def squeezeFrom (after : Bool) : Text → Text
  | [] => []
  | c :: cs =>
    if isBlank c then
      if after then squeezeFrom true cs else ' ' :: squeezeFrom true cs
    else c :: squeezeFrom false cs

def squeeze (t : Text) : Text := squeezeFrom false t

theorem length_trimLeft_le (t : Text) : (trimLeft t).length ≤ t.length := by
  induction t with
  | nil => simp [trimLeft]
  | cons c cs ih =>
    simp only [trimLeft, List.dropWhile] at ih ⊢
    split
    · simp only [List.length_cons]; omega
    · exact Nat.le_refl _

theorem length_trimRight_le (t : Text) : (trimRight t).length ≤ t.length := by
  induction t with
  | nil => simp [trimRight]
  | cons c cs ih =>
    simp only [trimRight]
    split
    · split <;> simp
    · next d ds h => rw [h] at ih; simpa using ih

theorem length_trim_le (t : Text) : (trim t).length ≤ t.length :=
  Nat.le_trans (length_trimRight_le _) (length_trimLeft_le t)

end Text

end BooleanSearch
