import BooleanSearch.Proofs.CanonicalText
import Mathlib.Logic.Relation

/-!
# Blanks that make no difference

The blanks of a query take part in trimming, in cutting it into words and in squeezing what is
quoted. None of these tells one run of blanks from another, and next to a bracket outside quotes a
run may as well be missing. So queries that differ in such runs have the same items, also if a quote
is left open, and are normalized to the same text or refused for the same kind of fault.
-/

namespace BooleanSearch

namespace Text

def AllBlank (t : Text) : Prop := ∀ c ∈ t, Blank c

/-- Tells that a bracket outside quotes stands just before or just after the place between two
texts. -/
def AtBracket (u v : Text) : Prop :=
  u.count '"' % 2 = 0 ∧ ∃ b, (b = '(' ∨ b = ')') ∧ (u.getLast? = some b ∨ v.head? = some b)

/-- Tells that two texts differ in one run of blanks only. Where the run stands at a bracket outside
quotes, it may also be empty. -/
inductive Respaced : Text → Text → Prop where
  | run {u v r r' : Text} (hr : AllBlank r) (hr' : AllBlank r')
      (h : (r ≠ [] ∧ r' ≠ []) ∨ AtBracket u v) : Respaced (u ++ (r ++ v)) (u ++ (r' ++ v))

private theorem AllBlank.allSpace {r : Text} (hr : AllBlank r) : AllSpace r :=
  fun c hc => isSpace_of_isBlank (isBlank_iff.mpr (hr c hc))

private theorem allBlank_cons {c : Char} {r : Text} :
    AllBlank (c :: r) ↔ isBlank c = true ∧ AllBlank r := by
  simp [AllBlank, isBlank_iff]

/-! ### Squeezing and trimming around a run -/

private theorem squeezeFrom_true_append {r : Text} (hr : AllBlank r) (w : Text) :
    squeezeFrom true (r ++ w) = squeezeFrom true w := by
  induction r with
  | nil => rfl
  | cons c r ih =>
    have h := allBlank_cons.mp hr
    rw [List.cons_append, squeezeFrom, if_pos h.1, if_pos rfl, ih h.2]

private theorem squeezeFrom_run {r r' : Text} (hr : AllBlank r) (hr' : AllBlank r') (hne : r ≠ [])
    (hne' : r' ≠ []) (after : Bool) (w : Text) :
    squeezeFrom after (r ++ w) = squeezeFrom after (r' ++ w) := by
  have hone {s : Text} (hs : AllBlank s) (hsne : s ≠ []) : squeezeFrom after (s ++ w) =
      if after then squeezeFrom true w else ' ' :: squeezeFrom true w := by
    obtain ⟨c, s, rfl⟩ := List.exists_cons_of_ne_nil hsne
    have h := allBlank_cons.mp hs
    rw [List.cons_append, squeezeFrom, if_pos h.1, squeezeFrom_true_append h.2]
  rw [hone hr hne, hone hr' hne']

theorem squeeze_eq_nil_iff {w : Text} : squeeze w = [] ↔ w = [] := by
  cases w with
  | nil => simp [squeeze, squeezeFrom]
  | cons c w => by_cases hc : isBlank c = true <;> simp [squeeze, squeezeFrom, hc]

theorem squeeze_eq_iff {w t : Text} (ht : ∀ c ∈ t, isBlank c = false) :
    squeeze w = t ↔ w = t := by
  induction w generalizing t with
  | nil => rfl
  | cons c w ih =>
    by_cases hc : isBlank c = true
    · rw [squeeze, squeezeFrom, if_pos hc, if_neg (by simp)]
      constructor
      · rintro rfl
        exact absurd (ht ' ' (by simp)) (by decide)
      · rintro rfl
        simp [ht c (by simp)] at hc
    · rw [squeeze, squeezeFrom, if_neg hc]
      cases t with
      | nil => simp
      | cons d t =>
        rw [List.cons.injEq, List.cons.injEq]
        exact and_congr_right fun _ => ih fun e he => ht e (by simp [he])

private theorem trimLeft_append {u : Text} (hu : ¬AllSpace u) (w : Text) :
    trimLeft (u ++ w) = trimLeft u ++ w := by
  obtain ⟨s, hs, hsplit⟩ := exists_trimLeft u
  have hne : trimLeft u ≠ [] := by
    intro hnil
    rw [hnil, List.append_nil] at hsplit
    exact hu (hsplit ▸ hs)
  obtain ⟨c, t, ht⟩ := List.exists_cons_of_ne_nil hne
  have hc := trimLeft_eq_self_iff.mp (trimLeft_trimLeft u) c t ht
  have hkeep : trimLeft (trimLeft u ++ w) = trimLeft u ++ w := by
    apply trimLeft_eq_self_iff.mpr
    intro d v hv
    rw [ht, List.cons_append] at hv
    exact (List.cons.inj hv).1 ▸ hc
  calc trimLeft (u ++ w) = trimLeft (s ++ (trimLeft u ++ w)) := by
        rw [← List.append_assoc, ← hsplit]
    _ = trimLeft u ++ w := by rw [trimLeft_append_of_allSpace hs, hkeep]

private theorem trim_run {u v r : Text} (hu : ¬AllSpace u) (hv : ¬AllSpace v) :
    trim (u ++ (r ++ v)) = trimLeft u ++ (r ++ trimRight v) := by
  have hne : trimRight v ≠ [] := fun h => hv (trimRight_eq_nil_iff.mp h)
  rw [trim, trimLeft_append hu, ← List.append_assoc, trimRight_append, if_neg hne,
    List.append_assoc]

private theorem AtBracket.trim {u v : Text} (h : AtBracket u v) (hu : ¬AllSpace u)
    (hv : ¬AllSpace v) : AtBracket (trimLeft u) (trimRight v) := by
  obtain ⟨heven, b, hb, hplace⟩ := h
  obtain ⟨s, hs, hleft⟩ := exists_trimLeft u
  obtain ⟨s', _, hright⟩ := exists_trimRight v
  have hunsplit : trimLeft u ≠ [] := by
    intro hnil
    rw [hnil, List.append_nil] at hleft
    exact hu (hleft ▸ hs)
  have hvne : trimRight v ≠ [] := fun hnil => hv (trimRight_eq_nil_iff.mp hnil)
  have hquotes : s.count '"' = 0 := List.count_eq_zero_of_not_mem (hs.not_mem (by decide))
  refine ⟨?_, b, hb, hplace.imp (fun hlast => ?_) fun hhead => ?_⟩
  · rwa [hleft, List.count_append, hquotes, Nat.zero_add] at heven
  · rwa [hleft, List.getLast?_append_of_ne_nil _ hunsplit] at hlast
  · rwa [hright, List.head?_append_of_ne_nil _ hvne] at hhead

end Text

open Text

/-! ### Lexemes and items around a run -/

namespace Lexeme

def squeezed : Lexeme → Lexeme
  | opening => opening
  | closing => closing
  | word w => word w.squeeze

/-- Tells that two cut texts differ only in what squeezing removes. -/
private structure Alike (k k' : Cut) : Prop where
  within : ∀ after, squeezeFrom after k.within = squeezeFrom after k'.within
  after : k.after.map squeezed = k'.after.map squeezed

private theorem Alike.refl (k : Cut) : Alike k k := ⟨fun _ => rfl, rfl⟩

private theorem Alike.extend {k k' : Cut} (h : Alike k k') (c : Char) :
    Alike (k.extend c) (k'.extend c) := by
  refine ⟨fun after => ?_, h.after⟩
  simp only [Cut.extend, squeezeFrom, h.within]

private theorem Alike.lexemes {k k' : Cut} (h : Alike k k') :
    k.lexemes.map squeezed = k'.lexemes.map squeezed := by
  have hsqueeze : k.within.squeeze = k'.within.squeeze := h.within false
  rw [Cut.lexemes, Cut.lexemes]
  cases hw : k.within with
  | nil =>
    have hw' : k'.within = [] := by
      rwa [hw, eq_comm, show squeeze [] = [] from rfl, squeeze_eq_nil_iff] at hsqueeze
    rw [hw']
    exact h.after
  | cons c w =>
    cases hw' : k'.within with
    | nil =>
      rw [hw', show squeeze [] = [] from rfl, squeeze_eq_nil_iff] at hsqueeze
      simp [hw] at hsqueeze
    | cons c' w' =>
      rw [hw, hw'] at hsqueeze
      simp [squeezed, hsqueeze, h.after]

/-- What comes before a place is cut in the same way, whatever comes after it. The hypothesis is on
the state in which the place is reached. -/
private theorem alike_scan_append {x y : Text} (u : Text) (quoted : Bool)
    (h : ∀ q : Bool, (quoted.toNat + u.count '"') % 2 = q.toNat → Alike (scan q x) (scan q y)) :
    Alike (scan quoted (u ++ x)) (scan quoted (u ++ y)) := by
  induction u generalizing quoted with
  | nil => exact h quoted (by cases quoted <;> rfl)
  | cons c u ih =>
    rw [List.cons_append, List.cons_append, scan, scan]
    by_cases hq : c = '"'
    · subst hq
      rw [if_pos rfl, if_pos rfl]
      exact (ih (!quoted) fun q hq => h q (by rwa [parity_cons_quote])).extend '"'
    · have hrest := ih quoted fun q hparity => h q (by rwa [List.count_cons_of_ne hq])
      rw [if_neg hq, if_neg hq]
      split_ifs
      · exact hrest.extend c
      · exact ⟨fun _ => rfl, hrest.lexemes⟩
      · exact ⟨fun _ => rfl, congrArg (opening :: ·) hrest.lexemes⟩
      · exact ⟨fun _ => rfl, congrArg (closing :: ·) hrest.lexemes⟩
      · exact hrest.extend c

private theorem ne_of_isBlank {c : Char} (hc : isBlank c = true) : c ≠ '"' ∧ c ≠ '(' ∧ c ≠ ')' := by
  refine ⟨?_, ?_, ?_⟩
  all_goals
    rintro rfl
    exact absurd hc (by decide)

private theorem scan_quoted_run {r : Text} (hr : AllBlank r) (v : Text) :
    scan true (r ++ v) = ⟨r ++ (scan true v).within, (scan true v).after⟩ := by
  induction r with
  | nil => rfl
  | cons c r ih =>
    have h := allBlank_cons.mp hr
    rw [List.cons_append, scan, if_neg (ne_of_isBlank h.1).1, if_pos rfl, ih h.2]
    rfl

private theorem lexemes_scan_run {r : Text} (hr : AllBlank r) (v : Text) :
    (scan false (r ++ v)).lexemes = (scan false v).lexemes := by
  induction r with
  | nil => rfl
  | cons c r ih =>
    have h := allBlank_cons.mp hr
    rw [List.cons_append, scan, if_neg (ne_of_isBlank h.1).1, if_neg (by simp), if_pos h.1,
      ← ih h.2]
    rfl

private theorem scan_unquoted_run {r : Text} (hr : AllBlank r) (hne : r ≠ []) (v : Text) :
    scan false (r ++ v) = ⟨[], (scan false v).lexemes⟩ := by
  obtain ⟨c, r, rfl⟩ := List.exists_cons_of_ne_nil hne
  have h := allBlank_cons.mp hr
  rw [List.cons_append, scan, if_neg (ne_of_isBlank h.1).1, if_neg (by simp), if_pos h.1,
    lexemes_scan_run h.2]

private theorem alike_scan_run {r r' : Text} (hr : AllBlank r) (hr' : AllBlank r') (hne : r ≠ [])
    (hne' : r' ≠ []) (quoted : Bool) (v : Text) :
    Alike (scan quoted (r ++ v)) (scan quoted (r' ++ v)) := by
  cases quoted with
  | true =>
    rw [scan_quoted_run hr, scan_quoted_run hr']
    exact ⟨fun after => squeezeFrom_run hr hr' hne hne' after _, rfl⟩
  | false =>
    rw [scan_unquoted_run hr hne, scan_unquoted_run hr' hne']
    exact Alike.refl _

private theorem alike_scan_bracket {b : Char} (hb : b = '(' ∨ b = ')') {r r' : Text}
    (hr : AllBlank r) (hr' : AllBlank r') (v : Text) :
    Alike (scan false (b :: (r ++ v))) (scan false (b :: (r' ++ v))) := by
  have hlexemes : (scan false (r ++ v)).lexemes = (scan false (r' ++ v)).lexemes := by
    rw [lexemes_scan_run hr, lexemes_scan_run hr']
  rcases hb with rfl | rfl
  · rw [scan, scan, hlexemes]
    exact Alike.refl _
  · rw [scan, scan, hlexemes]
    exact Alike.refl _

private theorem scan_before_bracket {b : Char} (hb : b = '(' ∨ b = ')') {r : Text}
    (hr : AllBlank r) (v : Text) : scan false (r ++ b :: v) = scan false (b :: v) := by
  obtain ⟨ls, hls⟩ : ∃ ls, scan false (b :: v) = ⟨[], ls⟩ := by
    rcases hb with rfl | rfl
    · exact ⟨_, by rw [scan]; rfl⟩
    · exact ⟨_, by rw [scan]; rfl⟩
  by_cases hne : r = []
  · rw [hne, List.nil_append]
  · rw [scan_unquoted_run hr hne, hls]
    rfl

private theorem squeezed_ofText_run {u v r r' : Text} (hr : AllBlank r) (hr' : AllBlank r')
    (h : (r ≠ [] ∧ r' ≠ []) ∨ AtBracket u v) :
    (ofText (u ++ (r ++ v))).map squeezed = (ofText (u ++ (r' ++ v))).map squeezed := by
  apply Alike.lexemes
  rcases h with ⟨hne, hne'⟩ | ⟨heven, b, hb, hlast | hhead⟩
  · exact alike_scan_append u false fun q _ => alike_scan_run hr hr' hne hne' q v
  · obtain ⟨s, rfl⟩ := List.getLast?_eq_some_iff.mp hlast
    have hquote : [b].count '"' = 0 := by
      rcases hb with rfl | rfl
      · decide
      · decide
    rw [List.append_assoc, List.append_assoc]
    refine alike_scan_append s false fun q hq => ?_
    rw [List.count_append, hquote] at heven
    obtain rfl : q = false := by
      cases q with
      | false => rfl
      | true =>
        simp only [Bool.toNat_false, Nat.zero_add, Bool.toNat_true] at hq
        omega
    exact alike_scan_bracket hb hr hr' v
  · obtain ⟨s, rfl⟩ := List.head?_eq_some_iff.mp hhead
    refine alike_scan_append u false fun q hq => ?_
    obtain rfl : q = false := by
      cases q with
      | false => rfl
      | true =>
        simp only [Bool.toNat_false, Nat.zero_add, Bool.toNat_true] at hq
        omega
    rw [scan_before_bracket hb hr, scan_before_bracket hb hr']
    exact Alike.refl _

end Lexeme

namespace Item

theorem connective?_squeeze (w : Text) : connective? w.squeeze = connective? w := by
  have hand : w.squeeze = "AND".toList ↔ w = "AND".toList := squeeze_eq_iff (by simp [isBlank])
  have hor : w.squeeze = "OR".toList ↔ w = "OR".toList := squeeze_eq_iff (by simp [isBlank])
  simp only [connective?, hand, hor]

private theorem ofLexemes_squeezed (ls : List Lexeme) :
    ofLexemes (ls.map Lexeme.squeezed) = ofLexemes ls := by
  have hkeyword {w : Text} {c : Connective} (hw : connective? w = some c) {ls : List Lexeme}
      (hne : ls.head? ≠ some (.word "NOT".toList)) :
      ofLexemes (.word w.squeeze :: ls) = keyword c :: ofLexemes ls :=
    ofLexemes_keyword (by rw [connective?_squeeze, hw]) hne
  fun_induction ofLexemes ls with
  | case1 => rfl
  | case2 rest ih => rw [List.map_cons, Lexeme.squeezed, ofLexemes, ih]
  | case3 rest ih => rw [List.map_cons, Lexeme.squeezed, ofLexemes, ih]
  | case4 w rest hw ih =>
    rw [List.map_cons, Lexeme.squeezed, ofLexemes, connective?_squeeze, hw]
    simp only [(squeezed_squeeze w).squeeze_eq, ih]
  | case5 w c hw later ih =>
    have hnot : squeeze "NOT".toList = "NOT".toList := rfl
    rw [List.map_cons, List.map_cons, Lexeme.squeezed, Lexeme.squeezed, hnot, ofLexemes,
      connective?_squeeze, hw]
    simp only [if_pos, ih]
  | case6 w c hw v later hv ih =>
    have hnot : v.squeeze ≠ "NOT".toList := fun h => hv ((squeeze_eq_iff (by simp [isBlank])).mp h)
    rw [List.map_cons, Lexeme.squeezed, hkeyword hw (by simpa [Lexeme.squeezed] using hnot), ih]
  | case7 w c hw later ih =>
    rw [List.map_cons, Lexeme.squeezed, hkeyword hw (by simp [Lexeme.squeezed]), ih]
  | case8 w c hw later ih =>
    rw [List.map_cons, Lexeme.squeezed, hkeyword hw (by simp [Lexeme.squeezed]), ih]
  | case9 w c hw => exact hkeyword hw (by simp)

private theorem ofText_run {u v r r' : Text} (hr : AllBlank r) (hr' : AllBlank r')
    (h : (r ≠ [] ∧ r' ≠ []) ∨ AtBracket u v) :
    ofText (u ++ (r ++ v)) = ofText (u ++ (r' ++ v)) := by
  rw [ofText, ofText, ← ofLexemes_squeezed, Lexeme.squeezed_ofText_run hr hr' h,
    ofLexemes_squeezed]

theorem ofText_trim_respaced {t t' : Text} (h : Respaced t t') :
    ofText t.trim = ofText t'.trim := by
  obtain @⟨u, v, r, r', hr, hr', h⟩ := h
  by_cases hu : AllSpace u
  · have hends {s : Text} (hs : AllBlank s) : (u ++ (s ++ v)).trim = v.trim := by
      simpa using trim_append_of_allSpace (allSpace_append.mpr ⟨hu, hs.allSpace⟩) allSpace_nil v
    rw [hends hr, hends hr']
  by_cases hv : AllSpace v
  · have hends {s : Text} (hs : AllBlank s) : (u ++ (s ++ v)).trim = u.trim := by
      simpa using trim_append_of_allSpace allSpace_nil (allSpace_append.mpr ⟨hs.allSpace, hv⟩) u
    rw [hends hr, hends hr']
  rw [trim_run hu hv, trim_run hu hv]
  exact ofText_run hr hr' (h.imp_right fun hplace => hplace.trim hu hv)

end Item

namespace Query

/-! ### Normalizing and parsing -/

private theorem brackets_respaced {t t' : Text} (h : Respaced t t') : t.brackets = t'.brackets := by
  obtain @⟨u, v, r, r', hr, hr', _⟩ := h
  have hblank {s : Text} (hs : AllBlank s) : s.brackets = [] := by
    apply List.filter_eq_nil_iff.mpr
    intro c hc
    have hne := Lexeme.ne_of_isBlank (isBlank_iff.mpr (hs c hc))
    simp [hne.2.1, hne.2.2]
  have hplace {s : Text} (hs : AllBlank s) :
      (u ++ (s ++ v)).brackets = u.brackets ++ v.brackets := by
    rw [brackets, List.filter_append, List.filter_append]
    exact congrArg (u.brackets ++ ·) (congrArg (· ++ v.brackets) (hblank hs))
  rw [hplace hr, hplace hr']

private theorem hasReserved_respaced {t t' : Text} (h : Respaced t t') :
    hasReserved t = hasReserved t' := by
  obtain @⟨u, v, r, r', hr, hr', _⟩ := h
  have hblank {s : Text} (hs : AllBlank s) : hasReserved s = false := by
    apply hasReserved_eq_false_iff.mpr
    intro c hc hreserved
    have hspace := hs.allSpace c hc
    simp [isSpace_reserved hreserved] at hspace
  have hplace {s : Text} (hs : AllBlank s) :
      hasReserved (u ++ (s ++ v)) = (hasReserved u || hasReserved v) := by
    have hs' := hblank hs
    simp only [hasReserved, List.any_append] at hs' ⊢
    rw [hs', Bool.false_or]
  rw [hplace hr, hplace hr']

private theorem normalize_respaced {t t' : Text} (h : Respaced t t') (implicit : Connective) :
    (normalize implicit t).mapError QueryError.kind =
      (normalize implicit t').mapError QueryError.kind := by
  have hbalance := requireBalance_congr (brackets_respaced h)
  rw [normalize, normalize, hasReserved_trim, hasReserved_trim, hasReserved_respaced h, itemsOf,
    itemsOf, Item.ofText_trim_respaced h]
  exact mapError_bind_congr hbalance _

private theorem parse_of_normalize {settings : Settings} {t t' : Text}
    (h : (normalize settings.implicit t).mapError QueryError.kind =
      (normalize settings.implicit t').mapError QueryError.kind) :
    (parse settings t).mapError QueryError.kind = (parse settings t').mapError QueryError.kind := by
  exact mapError_bind_congr (mapError_bind_congr h _) _

end Query

namespace Configuration

open Query

/-- Blanks count only as blanks. A query in which runs of blanks are replaced by others, or added
and removed at brackets outside quotes, is normalized to the same text or refused for the same kind
of fault under every implicit connective, and so is parsed to the same tree. -/
theorem outcome_of_respaced (c : Configuration) {t t' : Text}
    (h : Relation.ReflTransGen Respaced t t') :
    (∀ implicit : Connective, (normalize implicit t').mapError QueryError.kind =
        (normalize implicit t).mapError QueryError.kind) ∧
      (c.parse t').mapError QueryError.kind = (c.parse t).mapError QueryError.kind := by
  have hnormalize (implicit : Connective) : (normalize implicit t').mapError QueryError.kind =
      (normalize implicit t).mapError QueryError.kind := by
    induction h with
    | refl => rfl
    | tail _ hstep ih => rw [← normalize_respaced hstep, ih]
  exact ⟨hnormalize, parse_of_normalize (hnormalize c.defaultConnective)⟩

theorem outcome_of_respaced_open_quote :
    Relation.ReflTransGen Respaced "( a)\"b \n c".toList "(a) \"b c".toList ∧
      normalize .or "( a)\"b \n c".toList =
        .ok ("(a) ".toList ++ Connective.or.symbol :: " \"b c".toList) ∧
      (normalize .or "(a) \"b c".toList).mapError QueryError.kind =
        .ok ("(a) ".toList ++ Connective.or.symbol :: " \"b c".toList) := by
  have hspace : AllBlank [' '] := by simp [AllBlank, Blank]
  have hopening : Respaced "( a)\"b \n c".toList "(a)\"b \n c".toList :=
    @Respaced.run "(".toList "a)\"b \n c".toList [' '] [] hspace (by simp [AllBlank])
      (.inr ⟨by decide, '(', .inl rfl, .inl rfl⟩)
  have hclosing : Respaced "(a)\"b \n c".toList "(a) \"b \n c".toList :=
    @Respaced.run "(a)".toList "\"b \n c".toList [] [' '] (by simp [AllBlank]) hspace
      (.inr ⟨by decide, ')', .inr rfl, .inl rfl⟩)
  have hquoted : Respaced "(a) \"b \n c".toList "(a) \"b c".toList :=
    @Respaced.run "(a) \"b".toList "c".toList " \n ".toList [' ']
      (by simp [AllBlank, Blank]) hspace (.inl ⟨by decide, by decide⟩)
  have hsteps : Relation.ReflTransGen Respaced "( a)\"b \n c".toList "(a) \"b c".toList :=
    ((Relation.ReflTransGen.single hopening).tail hclosing).tail hquoted
  have hnormal : normalize .or "( a)\"b \n c".toList =
      .ok ("(a) ".toList ++ Connective.or.symbol :: " \"b c".toList) := by
    decide +kernel
  refine ⟨hsteps, hnormal, ?_⟩
  rw [(outcome_of_respaced standard hsteps).1 .or, hnormal]
  rfl

end Configuration

end BooleanSearch
