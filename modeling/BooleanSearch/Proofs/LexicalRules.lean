import BooleanSearch.Proofs.Spaces
import BooleanSearch.Query.Lexeme

/-!
# The rules behind the lexemes

Lexemes are given by four rules, each with a pattern. At every place the first rule that matches
takes the text it prefers, and the rules go on behind it. Some rule matches wherever text is left,
and the brackets and words found this way are the lexemes that scanning finds. The preferred term
need not be the longest one: a quoted section ends at the next quote, even if more text would match
without it.
-/

namespace BooleanSearch.Lexeme

open Text

inductive Pattern where
  | oneOf (p : Char → Bool)
  | followed (p q : Pattern)
  | either (p q : Pattern)
  | optional (p : Pattern)
  | repeated (p : Pattern)

namespace Pattern

def inTurn (f g : Text → List (Text × Text)) (t : Text) : List (Text × Text) :=
  (f t).flatMap fun (u, r) => (g r).map fun (v, s) => (u ++ v, s)

def atMost (f : Text → List (Text × Text)) : Nat → Text → List (Text × Text)
  | 0, t => [([], t)]
  | k + 1, t => inTurn f (atMost f k) t ++ [([], t)]

/-- The ways in which a pattern matches at the front of a text, each with the text it takes and the
text it leaves. The preferred ones come first: an earlier alternative, an option that is taken and
one repetition more. No repeated part is empty, so a text has at most one for each character. -/
def splits : Pattern → Text → List (Text × Text)
  | oneOf _, [] => []
  | oneOf p, c :: cs => if p c then [([c], cs)] else []
  | followed p q, t => inTurn p.splits q.splits t
  | either p q, t => p.splits t ++ q.splits t
  | optional p, t => p.splits t ++ [([], t)]
  | repeated p, t => atMost p.splits t.length t

def onceOrMore (p : Pattern) : Pattern := p.followed p.repeated

end Pattern

inductive Kind where
  | whitespace
  | opening
  | closing
  | term
  deriving DecidableEq, Repr

def Plain (c : Char) : Prop := ¬(Blank c ∨ c = '(' ∨ c = ')' ∨ c = '"')

instance : DecidablePred Plain := fun c =>
  inferInstanceAs (Decidable ¬(Blank c ∨ c = '(' ∨ c = ')' ∨ c = '"'))

def quotedPart : Pattern :=
  .followed (.oneOf (· = '"'))
    (.followed (.repeated (.oneOf (· ≠ '"'))) (.optional (.oneOf (· = '"'))))

def termPart : Pattern := .either (.oneOf (Plain ·)) quotedPart

/-- The pattern of each rule: `\s+`, `\(`, `\)` and `(?:[^\s()"]|"[^"]*"?)+`. -/
def Kind.pattern : Kind → Pattern
  | whitespace => .onceOrMore (.oneOf (Blank ·))
  | opening => .oneOf (· = '(')
  | closing => .oneOf (· = ')')
  | term => .onceOrMore termPart

/-- The first rule that matches, with the text it takes and the text it leaves. -/
def next? (t : Text) : Option (Kind × Text × Text) :=
  [Kind.whitespace, .opening, .closing, .term].findSome? fun k =>
    (k.pattern.splits t).head?.map fun x => (k, x)

example : next? "\"a b\" c".toList = some (.term, "\"a b\"".toList, " c".toList) := by decide

/-- Tells that the rules cut a text into these tokens. -/
inductive Tokens : Text → List (Kind × Text) → Prop where
  | done : Tokens [] []
  | next {k : Kind} {t w r : Text} {ts : List (Kind × Text)} (h : next? t = some (k, w, r))
      (hrest : Tokens r ts) : Tokens t ((k, w) :: ts)

def ofToken? : Kind × Text → Option Lexeme
  | (.whitespace, _) => none
  | (.opening, _) => some .opening
  | (.closing, _) => some .closing
  | (.term, w) => some (.word w)

/-! ### Preferred matches -/

namespace Pattern

section

variable {f g : Text → List (Text × Text)} {t u v r s : Text}

private theorem inTurn_of_nil (hf : f t = []) : inTurn f g t = [] := by
  rw [inTurn, hf, List.flatMap_nil]

private theorem head?_inTurn (hf : (f t).head? = some (u, r)) (hg : (g r).head? = some (v, s)) :
    (inTurn f g t).head? = some (u ++ v, s) := by
  obtain ⟨xs, hxs⟩ := List.head?_eq_some_iff.mp hf
  obtain ⟨ys, hys⟩ := List.head?_eq_some_iff.mp hg
  rw [inTurn, hxs, List.flatMap_cons]
  simp [hys]

private theorem head?_atMost_of_nil (hf : f t = []) (k : Nat) :
    (atMost f k t).head? = some ([], t) := by
  cases k with
  | zero => rfl
  | succ k => rw [atMost, inTurn_of_nil hf, List.nil_append, List.head?_cons]

private theorem head?_atMost_succ {k : Nat} (hf : (f t).head? = some (u, r))
    (hrest : (atMost f k r).head? = some (v, s)) :
    (atMost f (k + 1) t).head? = some (u ++ v, s) := by
  rw [atMost, List.head?_append, head?_inTurn hf hrest, Option.some_or]

end

private theorem head?_repeated_oneOf (p : Char → Bool) (t : Text) :
    ((repeated (oneOf p)).splits t).head? = some (t.takeWhile p, t.dropWhile p) := by
  induction t with
  | nil => rfl
  | cons c t ih =>
    cases hc : p c with
    | true =>
      rw [List.takeWhile_cons_of_pos hc, List.dropWhile_cons_of_pos hc]
      exact head?_atMost_succ (u := [c]) (by simp [splits, hc]) ih
    | false =>
      rw [List.takeWhile_cons_of_neg (by simp [hc]), List.dropWhile_cons_of_neg (by simp [hc])]
      exact head?_atMost_of_nil (by simp [splits, hc]) _

end Pattern

open Pattern

private theorem head?_quotedPart {b r u s : Text} (hb : '"' ∉ b) (hr : ∀ c ∈ r.head?, c = '"')
    (hclose : ((optional (oneOf (· = '"'))).splits r).head? = some (u, s)) :
    (quotedPart.splits ('"' :: (b ++ r))).head? = some ('"' :: (b ++ u), s) := by
  have hne : ∀ c ∈ b, decide (c ≠ '"') = true := by
    intro c hc
    exact decide_eq_true (ne_of_mem_of_not_mem hc hb)
  have hbody : ((repeated (oneOf (· ≠ '"'))).splits (b ++ r)).head? = some (b, r) := by
    rw [head?_repeated_oneOf, List.takeWhile_append_of_pos hne, List.dropWhile_append_of_pos hne]
    cases r with
    | nil => simp
    | cons c r =>
      obtain rfl : c = '"' := hr c rfl
      simp
  exact head?_inTurn (u := ['"']) rfl (head?_inTurn hbody hclose)

/-! ### Terms -/

private theorem scan_quote (quoted : Bool) (t : Text) :
    scan quoted ('"' :: t) = (scan (!quoted) t).extend '"' := by
  rw [scan, if_pos rfl]

private theorem scan_quoted_append {b : Text} (hb : '"' ∉ b) (t : Text) :
    scan true (b ++ t) = ⟨b ++ (scan true t).within, (scan true t).after⟩ := by
  induction b with
  | nil => rfl
  | cons c b ih =>
    rw [List.mem_cons, not_or] at hb
    rw [List.cons_append, scan, if_neg (Ne.symm hb.1), if_pos rfl, ih hb.2]
    rfl

private theorem exists_termPart {c : Char} (hc : Plain c ∨ c = '"') (t : Text) :
    ∃ u r, (termPart.splits (c :: t)).head? = some (c :: u, r) ∧ t = u ++ r ∧
      scan false (c :: t) = ⟨c :: u ++ (scan false r).within, (scan false r).after⟩ := by
  by_cases hq : c = '"'
  · subst hq
    have hpart : termPart.splits ('"' :: t) = quotedPart.splits ('"' :: t) := by
      rw [termPart, splits, splits, if_neg (by decide), List.nil_append]
    rw [hpart, scan_quote]
    by_cases hclosed : '"' ∈ t
    · obtain ⟨b, r, rfl, hb⟩ := List.eq_append_cons_of_mem hclosed
      refine ⟨b ++ ['"'], r, head?_quotedPart hb (by simp) rfl, by simp, ?_⟩
      rw [Bool.not_false, scan_quoted_append hb, scan_quote]
      simp [Cut.extend]
    · have hopen := head?_quotedPart (r := []) hclosed (by simp) rfl
      have hend := scan_quoted_append hclosed []
      rw [List.append_nil] at hend
      rw [List.append_nil] at hopen
      refine ⟨t, [], hopen, by simp, ?_⟩
      rw [Bool.not_false, hend]
      rfl
  · have hplain : Plain c := hc.resolve_right hq
    obtain ⟨hblank, hopen, hclose, -⟩ := by simpa only [Plain, not_or] using hplain
    refine ⟨[], t, by simp [termPart, splits, hplain], rfl, ?_⟩
    rw [scan, if_neg hq, if_neg (by simp), if_neg (by simpa [isBlank_iff] using hblank),
      if_neg hopen, if_neg hclose]
    rfl

private theorem termPart_eq_nil {c : Char} (hc : ¬Plain c) (hq : c ≠ '"') (t : Text) :
    termPart.splits (c :: t) = [] := by
  have hquoted : quotedPart.splits (c :: t) = [] := inTurn_of_nil (by simp [splits, hq])
  rw [termPart, splits, hquoted, List.append_nil, splits, if_neg (by simpa using hc)]

private theorem within_eq_nil {c : Char} (hc : ¬Plain c) (hq : c ≠ '"') (t : Text) :
    (scan false (c :: t)).within = [] := by
  rw [scan, if_neg hq, if_neg (by simp)]
  split_ifs with hblank hopen hclose
  · rfl
  · rfl
  · rfl
  · rw [isBlank_iff] at hblank
    exact absurd (by simp [Plain, hblank, hopen, hclose, hq]) hc

/-- Parts of terms are taken until the word is at its end, and scanning goes on behind it with
another lexeme. -/
private theorem head?_atMost_termPart {k : Nat} {t : Text} (hk : t.length ≤ k) :
    ∃ r, (atMost termPart.splits k t).head? = some ((scan false t).within, r) ∧
      t = (scan false t).within ++ r ∧ scan false r = ⟨[], (scan false t).after⟩ := by
  induction k generalizing t with
  | zero =>
    obtain rfl := List.length_eq_zero_iff.mp (Nat.le_zero.mp hk)
    exact ⟨[], rfl, rfl, rfl⟩
  | succ k ih =>
    match t with
    | [] => exact ⟨[], rfl, rfl, rfl⟩
    | c :: t =>
      by_cases hc : Plain c ∨ c = '"'
      · obtain ⟨u, r, hpart, rfl, hscan⟩ := exists_termPart hc t
        rw [List.length_cons, List.length_append] at hk
        obtain ⟨s, hhead, hr, hs⟩ := ih (t := r) (by omega)
        rw [hscan]
        refine ⟨s, head?_atMost_succ hpart hhead, ?_, hs⟩
        rw [List.append_assoc, ← hr, List.cons_append]
      · obtain ⟨hplain, hq⟩ := not_or.mp hc
        have hwithin := within_eq_nil hplain hq t
        rw [hwithin]
        refine ⟨c :: t, head?_atMost_of_nil (termPart_eq_nil hplain hq t) _, rfl, ?_⟩
        rw [← hwithin]

/-! ### Tokens -/

private theorem splits_oneOf {p : Char → Bool} {c : Char} (hc : p c = true) (t : Text) :
    (oneOf p).splits (c :: t) = [([c], t)] := by
  rw [splits, if_pos hc]

private theorem splits_oneOf_eq_nil {p : Char → Bool} {c : Char} (hc : p c = false) (t : Text) :
    (oneOf p).splits (c :: t) = [] := by
  rw [splits, if_neg (by simp [hc])]

private theorem next?_whitespace {c : Char} (hc : Blank c) (t : Text) :
    next? (c :: t) = some (.whitespace, c :: t.takeWhile (Blank ·), t.dropWhile (Blank ·)) := by
  have hfirst := splits_oneOf (p := (Blank ·)) (by simpa using hc) t
  have hmatch : ((Kind.pattern .whitespace).splits (c :: t)).head? = _ :=
    head?_inTurn (by rw [hfirst]; rfl) (head?_repeated_oneOf (Blank ·) t)
  rw [next?, List.findSome?_cons, hmatch]
  rfl

private theorem whitespace_eq_nil {c : Char} (hc : ¬Blank c) (t : Text) :
    (Kind.pattern .whitespace).splits (c :: t) = [] :=
  inTurn_of_nil (splits_oneOf_eq_nil (by simpa using hc) t)

private theorem next?_opening (t : Text) : next? ('(' :: t) = some (.opening, ['('], t) := by
  rw [next?, List.findSome?_cons, whitespace_eq_nil (by decide)]
  rfl

private theorem next?_closing (t : Text) : next? (')' :: t) = some (.closing, [')'], t) := by
  rw [next?, List.findSome?_cons, whitespace_eq_nil (by decide)]
  rfl

private theorem next?_term {c : Char} (hblank : ¬Blank c) (hopen : c ≠ '(') (hclose : c ≠ ')')
    {t w r : Text} (h : ((Kind.pattern .term).splits (c :: t)).head? = some (w, r)) :
    next? (c :: t) = some (.term, w, r) := by
  have hnot : (Kind.pattern .opening).splits (c :: t) = [] ∧
      (Kind.pattern .closing).splits (c :: t) = [] :=
    ⟨splits_oneOf_eq_nil (by simpa using hopen) t, splits_oneOf_eq_nil (by simpa using hclose) t⟩
  simp [next?, whitespace_eq_nil hblank, hnot, h]

private theorem ofText_cons_blank {c : Char} (hc : Blank c) (t : Text) :
    ofText (c :: t) = ofText t := by
  have hblank := isBlank_iff.mpr hc
  rw [ofText, scan, if_neg (by rintro rfl; exact absurd hc (by decide)), if_neg (by simp),
    if_pos hblank]
  rfl

private theorem ofText_dropWhile_blank (t : Text) : ofText (t.dropWhile (Blank ·)) = ofText t := by
  induction t with
  | nil => rfl
  | cons c t ih =>
    rw [List.dropWhile_cons]
    split_ifs with hc
    · rw [ih, ofText_cons_blank (by simpa using hc)]
    · rfl

/-- Where text is left a rule matches. It takes some of the text, and the token is the next lexeme
or the whitespace before it. -/
private theorem exists_next (c : Char) (t : Text) : ∃ k u r,
    next? (c :: t) = some (k, c :: u, r) ∧ t = u ++ r ∧
      ofText (c :: t) = (ofToken? (k, c :: u)).toList ++ ofText r := by
  by_cases hblank : Blank c
  · refine ⟨_, _, _, next?_whitespace hblank t, List.takeWhile_append_dropWhile.symm, ?_⟩
    rw [ofText_cons_blank hblank, ofText_dropWhile_blank]
    rfl
  by_cases hopen : c = '('
  · subst hopen
    exact ⟨_, _, _, next?_opening t, rfl, rfl⟩
  by_cases hclose : c = ')'
  · subst hclose
    exact ⟨_, _, _, next?_closing t, rfl, rfl⟩
  have hc : Plain c ∨ c = '"' := by
    by_cases hq : c = '"'
    · exact Or.inr hq
    · exact Or.inl (by simp [Plain, hblank, hopen, hclose, hq])
  obtain ⟨u, r, hpart, rfl, hscan⟩ := exists_termPart hc t
  obtain ⟨s, hhead, hr, hs⟩ := head?_atMost_termPart (t := r) le_rfl
  have hmatch : ((Kind.pattern .term).splits (c :: (u ++ r))).head? = _ := head?_inTurn hpart hhead
  refine ⟨_, _, _, next?_term hblank hopen hclose hmatch, ?_, ?_⟩
  · exact (congrArg (u ++ ·) hr).trans (List.append_assoc _ _ _).symm
  · rw [ofText, hscan, ofText, hs]
    rfl

private theorem next?_nil : next? [] = none := rfl

private theorem next?_eq_some {k : Kind} {t w r : Text} (h : next? t = some (k, w, r)) :
    w ≠ [] ∧ w ++ r = t ∧ ofText t = (ofToken? (k, w)).toList ++ ofText r := by
  cases t with
  | nil => simp [next?_nil] at h
  | cons c t =>
    obtain ⟨k', u, r', hnext, rfl, hlexeme⟩ := exists_next c t
    rw [hnext] at h
    cases h
    exact ⟨by simp, rfl, hlexeme⟩

theorem exists_tokens (t : Text) : ∃ ts, Tokens t ts := by
  induction h : t.length using Nat.strong_induction_on generalizing t with
  | _ n ih =>
    cases t with
    | nil => exact ⟨[], .done⟩
    | cons c t =>
      obtain ⟨k, u, r, hnext, rfl, -⟩ := exists_next c t
      have hlt : r.length < n := by
        rw [← h, List.length_cons, List.length_append]
        omega
      obtain ⟨ts, hts⟩ := ih r.length hlt r rfl
      exact ⟨_, .next hnext hts⟩

namespace Tokens

variable {t : Text} {ts : List (Kind × Text)}

theorem unique {ts' : List (Kind × Text)} (h : Tokens t ts) (h' : Tokens t ts') : ts = ts' := by
  induction h generalizing ts' with
  | done =>
    cases h' with
    | done => rfl
    | next hnext _ => simp [next?_nil] at hnext
  | next hnext _ ih =>
    cases h' with
    | done => simp [next?_nil] at hnext
    | next hnext' hrest' =>
      rw [hnext] at hnext'
      cases hnext'
      rw [ih hrest']

theorem flatten_eq (h : Tokens t ts) : (ts.map Prod.snd).flatten = t := by
  induction h with
  | done => rfl
  | next hnext _ ih => rw [List.map_cons, List.flatten_cons, ih, (next?_eq_some hnext).2.1]

theorem ofText_eq (h : Tokens t ts) : ofText t = ts.filterMap ofToken? := by
  induction h with
  | done => rfl
  | @next k t w r ts hnext _ ih =>
    rw [(next?_eq_some hnext).2.2, ih, List.filterMap_cons]
    cases ofToken? (k, w) <;> rfl

end Tokens

/-- The lexemes of a text are the brackets and terms among the tokens that the rules cut it into. -/
theorem ofText_eq_iff {t : Text} {ls : List Lexeme} :
    ofText t = ls ↔ ∃ ts, Tokens t ts ∧ ts.filterMap ofToken? = ls := by
  obtain ⟨ts, hts⟩ := exists_tokens t
  constructor
  · rintro rfl
    exact ⟨ts, hts, hts.ofText_eq.symm⟩
  · rintro ⟨ts', hts', rfl⟩
    exact hts'.ofText_eq

end BooleanSearch.Lexeme
