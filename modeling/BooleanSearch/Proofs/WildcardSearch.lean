import BooleanSearch.Filter.Pattern
import Mathlib.Data.List.Infix

/-!
# What match patterns find

The patterns made of plain texts and of wildcards are read as regular expressions: a sequence of
characters and of `.*`, anchored or not at each end. Searched for in a subject without line breaks,
the pattern of a wildcard finds exactly the subjects that the wildcard matches as a whole, and the
pattern of a plain text finds nothing but that text.
-/

namespace BooleanSearch.Filter

/-! ### Patterns -/

inductive Piece where
  | char (c : Char)
  | anything
  deriving DecidableEq, Repr

/-- A sequence of pieces, each end of which may be tied to that end of the subject. -/
structure Pattern where
  fromStart : Bool
  pieces : List Piece
  toEnd : Bool
  deriving DecidableEq, Repr

def patternOperators : List Char := ['\\', '^', '$', '.', '|', '?', '*', '+', '(', ')', '[', '{']

/-- Reads the pieces of a pattern and whether it is tied to the end. After a backslash a character
stands for itself, unless it is a letter or a digit. -/
def readPieces? : Text → Option (List Piece × Bool)
  | [] => some ([], false)
  | ['$'] => some ([], true)
  | '.' :: '*' :: rest => (readPieces? rest).map (Prod.map (.anything :: ·) id)
  | '\\' :: c :: rest =>
    if c.isAlphanum then none else (readPieces? rest).map (Prod.map (.char c :: ·) id)
  | c :: rest =>
    if patternOperators.contains c then none
    else (readPieces? rest).map (Prod.map (.char c :: ·) id)

/-- Reads a pattern; there is none for the regular expressions of another form. -/
def Pattern.read? (t : Text) : Option Pattern :=
  if t.head? = some '^' then (readPieces? t.tail).map fun r => ⟨true, r.1, r.2⟩
  else (readPieces? t).map fun r => ⟨false, r.1, r.2⟩

def lineRests : Text → List Text
  | [] => [[]]
  | c :: cs => (c :: cs) :: if c = '\n' then [] else lineRests cs

def matchesHere (toEnd : Bool) : List Piece → Text → Bool
  | [], s => !toEnd || s.isEmpty
  | .char c :: ps, s => s.head? == some c && matchesHere toEnd ps s.tail
  | .anything :: ps, s => (lineRests s).any (matchesHere toEnd ps)

def Pattern.finds (p : Pattern) (s : Text) : Bool :=
  (if p.fromStart then [s] else s.tails).any (matchesHere p.toEnd p.pieces)

/-- Tells whether a wildcard matches the whole of a text. -/
def globMatches : Text → Text → Bool
  | [], s => s.isEmpty
  | c :: v, s =>
    if c = '*' then s.tails.any (globMatches v) else s.head? == some c && globMatches v s.tail

def Piece.ofWildcard (c : Char) : Piece := if c = '*' then .anything else .char c

/-! ### Reading what was written -/

private theorem readPieces?_literalChar (c : Char) (rest : Text) :
    readPieces? (literalChar c ++ rest) = (readPieces? rest).map (Prod.map (.char c :: ·) id) := by
  rw [literalChar]
  split_ifs with hc
  · have hplain : c.isAlphanum = false := by
      have hall : regexSpecials.all (fun d => !d.isAlphanum) = true := by decide
      simpa using List.all_eq_true.mp hall c (by simpa using hc)
    simp [readPieces?, hplain]
  -- every operator is escaped, so a character that is not escaped is none
  · have hordinary : c ∉ patternOperators := by
      have hall : patternOperators.all (fun d => regexSpecials.contains d) = true := by decide
      exact fun hmem => hc (List.all_eq_true.mp hall c hmem)
    have hne {d : Char} (hd : d ∈ patternOperators) : c ≠ d := fun h => hordinary (h ▸ hd)
    have hdot : c ≠ '.' := hne (by decide)
    have hslash : c ≠ '\\' := hne (by decide)
    have hdollar : c ≠ '$' := hne (by decide)
    rw [List.singleton_append, readPieces?, if_neg (by simpa using hordinary)]
    all_goals simp [hdot, hslash, hdollar]

private theorem readPieces?_wildcardChar (c : Char) (rest : Text) :
    readPieces? ((if c = '*' then ['.', '*'] else literalChar c) ++ rest) =
      (readPieces? rest).map (Prod.map (Piece.ofWildcard c :: ·) id) := by
  by_cases hc : c = '*'
  · simp [hc, readPieces?, Piece.ofWildcard]
  · rw [if_neg hc, readPieces?_literalChar, Piece.ofWildcard, if_neg hc]

private theorem readPieces?_flatMap {f : Char → Text} {g : Char → Piece}
    (h : ∀ c rest, readPieces? (f c ++ rest) = (readPieces? rest).map (Prod.map (g c :: ·) id))
    (v rest : Text) :
    readPieces? (v.flatMap f ++ rest) = (readPieces? rest).map (Prod.map (v.map g ++ ·) id) := by
  induction v with
  | nil =>
    have hid : Prod.map (fun ps : List Piece => ps) (id : Bool → Bool) = id := Prod.map_id
    simp [hid]
  | cons c v ih =>
    rw [List.flatMap_cons, List.append_assoc, h, ih, Option.map_map]
    rfl

private theorem read?_exactPattern (v : Text) :
    Pattern.read? (exactPattern v) = some ⟨true, v.map .char, true⟩ := by
  have hpieces := readPieces?_flatMap readPieces?_literalChar v ['$']
  rw [Pattern.read?, exactPattern, List.head?_cons, if_pos rfl, List.tail_cons, literalPattern,
    hpieces]
  simp [readPieces?]

private theorem read?_wildcardPattern (v : Text) :
    Pattern.read? (wildcardPattern v) =
      some ⟨v.head? != some '*', v.map Piece.ofWildcard, !v.endsWith '*'⟩ := by
  have hpieces : readPieces? (wildcardBody v ++ if v.endsWith '*' then [] else ['$']) =
      some (v.map Piece.ofWildcard, !v.endsWith '*') := by
    rw [wildcardBody, readPieces?_flatMap readPieces?_wildcardChar]
    cases v.endsWith '*' <;> simp [readPieces?]
  rw [Pattern.read?, wildcardPattern]
  by_cases hstar : v.head? = some '*'
  · have hbody : (wildcardBody v ++ if v.endsWith '*' then [] else ['$']).head? ≠ some '^' := by
      cases v with
      | nil => simp at hstar
      | cons c v =>
        obtain rfl : c = '*' := by simpa using hstar
        simp [wildcardBody]
    simp only [hstar, beq_self_eq_true, if_true, List.nil_append]
    rw [if_neg hbody, hpieces]
    simp
  · have hbeq : (v.head? == some '*') = false := by simpa using hstar
    simp only [hbeq, Bool.false_eq_true, if_false, List.singleton_append, List.head?_cons, if_true,
      List.tail_cons]
    rw [hpieces]
    simp [bne, hbeq]

/-! ### Matching -/

private theorem lineRests_eq_tails {s : Text} (hs : '\n' ∉ s) : lineRests s = s.tails := by
  induction s with
  | nil => rfl
  | cons c s ih =>
    rw [List.mem_cons, not_or] at hs
    rw [lineRests, if_neg (Ne.symm hs.1), ih hs.2, List.tails_cons]

private theorem any_tails_congr {s : Text} {f g : Text → Bool} (h : ∀ r, r <:+ s → f r = g r) :
    s.tails.any f = s.tails.any g := by
  apply Bool.eq_iff_iff.mpr
  simp only [List.any_eq_true, List.mem_tails]
  refine exists_congr fun r => and_congr_right fun hr => ?_
  rw [h r hr]

private theorem matchesHere_anything {toEnd : Bool} {ps : List Piece} {s : Text} (hs : '\n' ∉ s) :
    matchesHere toEnd (.anything :: ps) s = s.tails.any (matchesHere toEnd ps) := by
  rw [matchesHere, lineRests_eq_tails hs]

private theorem matchesHere_ofWildcard (v : Text) {s : Text} (hs : '\n' ∉ s) :
    matchesHere true (v.map Piece.ofWildcard) s = globMatches v s := by
  induction v generalizing s with
  | nil => rfl
  | cons c v ih =>
    rw [List.map_cons, globMatches, Piece.ofWildcard]
    split_ifs
    · rw [matchesHere_anything hs]
      exact any_tails_congr fun r hr => ih fun h => hs (hr.subset h)
    · rw [matchesHere, ih fun h => hs (List.mem_of_mem_tail h)]

/-- A star at the end takes up what is left, so that the end need not be tied. -/
private theorem matchesHere_open {v : Text} (hv : v.endsWith '*' = true) {s : Text}
    (hs : '\n' ∉ s) :
    matchesHere false (v.map Piece.ofWildcard) s = matchesHere true (v.map Piece.ofWildcard) s := by
  induction v generalizing s with
  | nil => cases hv
  | cons c v ih =>
    cases v with
    | nil =>
      obtain rfl : c = '*' := by simpa [Text.endsWith] using hv
      have hopen : s.tails.any (matchesHere false []) = true :=
        List.any_eq_true.mpr ⟨s, (List.mem_tails _ _).mpr (List.suffix_refl s), rfl⟩
      have hclosed : s.tails.any (matchesHere true []) = true :=
        List.any_eq_true.mpr ⟨[], (List.mem_tails _ _).mpr List.nil_suffix, rfl⟩
      rw [List.map_singleton, Piece.ofWildcard, if_pos rfl, matchesHere_anything hs,
        matchesHere_anything hs, hopen, hclosed]
    | cons d v =>
      have hrest : Text.endsWith '*' (d :: v) = true := by
        rwa [Text.endsWith, List.getLast?_cons_cons] at hv
      rw [List.map_cons, Piece.ofWildcard]
      split_ifs
      · rw [matchesHere_anything hs, matchesHere_anything hs]
        exact any_tails_congr fun r hr => ih hrest fun h => hs (hr.subset h)
      · rw [matchesHere, matchesHere, ih hrest fun h => hs (List.mem_of_mem_tail h)]

private theorem any_tails_anything {toEnd : Bool} {ps : List Piece} {s : Text} (hs : '\n' ∉ s) :
    s.tails.any (matchesHere toEnd (.anything :: ps)) =
      matchesHere toEnd (.anything :: ps) s := by
  have hinner : s.tails.any (matchesHere toEnd (.anything :: ps)) =
      s.tails.any fun r => r.tails.any (matchesHere toEnd ps) :=
    any_tails_congr fun r hr => matchesHere_anything fun h => hs (hr.subset h)
  rw [hinner, matchesHere_anything hs]
  apply Bool.eq_iff_iff.mpr
  simp only [List.any_eq_true, List.mem_tails]
  constructor
  · rintro ⟨r, hr, u, hu, hmatch⟩
    exact ⟨u, hu.trans hr, hmatch⟩
  · rintro ⟨u, hu, hmatch⟩
    exact ⟨s, List.suffix_refl s, u, hu, hmatch⟩

private theorem finds_ofWildcard (v : Text) {s : Text} (hs : '\n' ∉ s) :
    Pattern.finds ⟨v.head? != some '*', v.map Piece.ofWildcard, !v.endsWith '*'⟩ s =
      globMatches v s := by
  have hhere : matchesHere (!v.endsWith '*') (v.map Piece.ofWildcard) s = globMatches v s := by
    cases hend : v.endsWith '*' with
    | true => exact (matchesHere_open hend hs).trans (matchesHere_ofWildcard v hs)
    | false => exact matchesHere_ofWildcard v hs
  rw [← hhere, Pattern.finds]
  by_cases hstar : v.head? = some '*'
  · cases v with
    | nil => simp at hstar
    | cons c v =>
      obtain rfl : c = '*' := by simpa using hstar
      have hfalse : ((some '*' : Option Char) != some '*') = false := rfl
      simp only [List.head?_cons, hfalse, Bool.false_eq_true, if_false, List.map_cons]
      exact any_tails_anything hs
  · have htrue : (v.head? != some '*') = true := by simpa using hstar
    simp [htrue]

private theorem matchesHere_chars (v s : Text) : matchesHere true (v.map .char) s = true ↔ s = v :=
    by
  induction v generalizing s with
  | nil => simp [matchesHere]
  | cons c v ih =>
    cases s with
    | nil => simp [matchesHere]
    | cons d s => simp [matchesHere, ih]

/-- Match patterns find what was written. Each character of a wildcard but the star, and each
character of a plain text, is read back as a character that matches itself. In a subject without
line breaks, the pattern of a wildcard matches somewhere exactly if the wildcard matches the whole
subject, and the pattern of a plain text exactly if the subject is that text. -/
theorem finds_what_was_written (v : Text) {s : Text} (hs : '\n' ∉ s) :
    (∃ p, Pattern.read? (wildcardPattern v) = some p ∧ p.pieces = v.map Piece.ofWildcard ∧
        (p.finds s = true ↔ globMatches v s = true)) ∧
      ∃ p, Pattern.read? (exactPattern v) = some p ∧ p.pieces = v.map .char ∧
        (p.finds s = true ↔ s = v) := by
  constructor
  · refine ⟨_, read?_wildcardPattern v, rfl, ?_⟩
    rw [finds_ofWildcard v hs]
  · refine ⟨_, read?_exactPattern v, rfl, ?_⟩
    simpa [Pattern.finds] using matchesHere_chars v s

theorem finds_what_was_written_dotted :
    wildcardPattern "a.*.com".toList = "^a\\..*\\.com$".toList ∧
      ∃ p, Pattern.read? "^a\\..*\\.com$".toList = some p ∧ p.finds "a.b.com".toList = true ∧
        p.finds "a-b.com".toList = false := by
  have hpattern : wildcardPattern "a.*.com".toList = "^a\\..*\\.com$".toList := by decide
  obtain ⟨⟨p, hp, _, hdotted⟩, _⟩ :=
    finds_what_was_written "a.*.com".toList (s := "a.b.com".toList) (by decide)
  obtain ⟨⟨p', hp', _, hdashed⟩, _⟩ :=
    finds_what_was_written "a.*.com".toList (s := "a-b.com".toList) (by decide)
  obtain rfl : p = p' := Option.some.inj (hp.symm.trans hp')
  rw [hpattern] at hp
  refine ⟨hpattern, p, hp, hdotted.mpr (by decide), ?_⟩
  exact Bool.eq_false_iff.mpr fun h => absurd (hdashed.mp h) (by decide)

end BooleanSearch.Filter
