import BooleanSearch.Proofs.RegularExpressions

/-!
# Patterns between slashes

A pattern between slashes is an expression that gets an anchor at either end. The anchors are read
as parts of the first and of the last alternative, and none is added to an expression that ends in a
dollar, though it may be an escaped one. So the pattern of an expression matches whole subjects only
if the expression has one alternative and does not end in a dollar.
-/

namespace BooleanSearch.Filter

namespace Regex

/-! ### An anchor at the start -/

def tieFirst : List Regex → List Regex
  | [] => []
  | r :: rs => seq atStart r :: rs

namespace Level

def tied (l : Level) : Level :=
  match l.closed with
  | [] => ⟨[], l.parts ++ [atStart]⟩
  | _ :: _ => ⟨tieFirst l.closed, l.parts⟩

private theorem alternatives_tied (l : Level) : l.tied.alternatives = tieFirst l.alternatives := by
  obtain ⟨closed, parts⟩ := l
  cases closed with
  | nil => simp [tied, alternatives, tieFirst, sequence]
  | cons r rs => rfl

private theorem push_tied (l : Level) (r : Regex) : l.tied.push r = (l.push r).tied := by
  obtain ⟨closed, parts⟩ := l
  cases closed <;> rfl

private theorem branch_tied (l : Level) : l.tied.branch = l.branch.tied := by
  rw [branch, alternatives_tied]
  obtain ⟨closed, parts⟩ := l
  cases closed <;> rfl

private theorem repeatLast?_tied (l : Level) (b : Bounds) :
    l.tied.repeatLast? b = (l.repeatLast? b).map tied := by
  obtain ⟨closed, parts⟩ := l
  cases parts with
  | nil => cases closed <;> rfl
  | cons r rs =>
    cases closed with
    | nil => cases hr : r.isRepeatable <;> simp [tied, repeatLast?, hr]
    | cons s ss => cases hr : r.isRepeatable <;> simp [tied, repeatLast?, tieFirst, hr]

end Level

namespace Reading

def tieOutermost : List Level → List Level
  | [] => []
  | [l] => [l.tied]
  | l :: m :: ls => l :: tieOutermost (m :: ls)

def tied (R : Reading) : Reading := ⟨tieOutermost R.levels, R.mode⟩

private theorem apply_innermost_tied (a : Action) (l : Level) :
    a.apply l.tied [] = (a.apply l []).map tied := by
  cases a with
  | turn m => rfl
  | openGroup => rfl
  | closeGroup => rfl
  | branch => rw [Action.apply, Level.branch_tied]; rfl
  | repeated b =>
    rw [Action.apply, Level.repeatLast?_tied, Action.apply]
    cases l.repeatLast? b <;> rfl
  | push r => rw [Action.apply, Level.push_tied]; rfl
  | refuse => rfl

private theorem apply_tied (a : Action) (l m : Level) (ls : List Level) :
    a.apply l (tieOutermost (m :: ls)) = (a.apply l (m :: ls)).map tied := by
  cases a with
  | turn mode => rfl
  | openGroup => rfl
  | closeGroup =>
    cases ls with
    | nil => rw [tieOutermost, Action.apply, Level.push_tied]; rfl
    | cons k ls => rfl
  | branch => rfl
  | repeated b =>
    rw [Action.apply, Action.apply]
    cases l.repeatLast? b <;> rfl
  | push r => rfl
  | refuse => rfl

private theorem step_tied (R : Reading) (c : Char) : R.tied.step c = (R.step c).map tied := by
  obtain ⟨levels, mode⟩ := R
  match levels with
  | [] => rfl
  | [l] => exact apply_innermost_tied _ l
  | l :: m :: ls => exact apply_tied _ l m ls

private theorem run_tied (R : Reading) (t : Text) : R.tied.run t = (R.run t).map tied := by
  induction t generalizing R with
  | nil => rfl
  | cons c t ih =>
    rw [run, List.foldlM_cons, step_tied, run, List.foldlM_cons]
    cases R.step c with
    | none => rfl
    | some R' => exact ih R'

private theorem alternatives?_tied (R : Reading) :
    R.tied.alternatives? = R.alternatives?.map tieFirst := by
  obtain ⟨levels, mode⟩ := R
  match levels, mode with
  | [], _ => rfl
  | [l], .plain => exact congrArg some l.alternatives_tied
  | [l], .escaped => rfl
  | [l], .counting seen => rfl
  | l :: m :: [], _ => rfl
  | l :: m :: k :: ls, _ => rfl

end Reading

theorem read?_caret (t : Text) : read? ('^' :: t) = (read? t).map tieFirst := by
  have hstart : Reading.start.step '^' = some Reading.start.tied := rfl
  rw [read?, Reading.run, List.foldlM_cons, hstart, read?, Option.map_bind]
  change (Reading.start.tied.run t).bind _ = _
  rw [Reading.run_tied, Option.bind_map]
  exact congrArg _ (funext Reading.alternatives?_tied)

/-! ### An anchor at the end -/

private theorem spans_sequence_atEnd (rs : List Regex) (before t after : Text) :
    (sequence (rs ++ [atEnd])).Spans before t after ↔
      (sequence rs).Spans before t after ∧ (after = [] ∨ after = ['\n']) := by
  induction rs generalizing before t with
  | nil =>
    constructor
    · rintro ⟨_, _, rfl, ⟨rfl, hafter⟩, rfl⟩
      exact ⟨rfl, hafter⟩
    · rintro ⟨rfl, hafter⟩
      exact ⟨[], [], rfl, ⟨rfl, hafter⟩, rfl⟩
  | cons r rs ih =>
    constructor
    · rintro ⟨u, v, ht, hu, hv⟩
      obtain ⟨hv, hafter⟩ := (ih _ _).mp hv
      exact ⟨⟨u, v, ht, hu, hv⟩, hafter⟩
    · rintro ⟨⟨u, v, ht, hu, hv⟩, hafter⟩
      exact ⟨u, v, ht, hu, (ih _ _).mpr ⟨hv, hafter⟩⟩

theorem read?_dollar {t : Text} {rs : List Regex} (h : read? t = some rs) :
    ∃ ss r r', rs = ss ++ [r] ∧ read? (t ++ ['$']) = some (ss ++ [r']) ∧
      ∀ before u after, r'.Spans before u after ↔
        r.Spans before u after ∧ (after = [] ∨ after = ['\n']) := by
  obtain ⟨l, hrun, rfl⟩ := exists_level_of_read? h
  refine ⟨l.closed, sequence l.parts.reverse, sequence (l.parts.reverse ++ [atEnd]), rfl, ?_,
    spans_sequence_atEnd _⟩
  have hstep : Reading.step ⟨[l], .plain⟩ '$' = some ⟨[l.push atEnd], .plain⟩ := rfl
  rw [Reading.run] at hrun
  rw [read?, Reading.run, List.foldlM_append, hrun]
  simp [hstep, Reading.alternatives?, Level.alternatives, Level.push]

end Regex

/-! ### What the pattern finds -/

open Regex

/-- Tells that some alternative matches a part of a subject, the first only at its start, and the
last only at its end if `toEnd`. -/
def FindsTied (toEnd : Bool) (rs : List Regex) (s : Text) : Prop :=
  ∃ us r vs before t after, rs = us ++ r :: vs ∧ s = before ++ (t ++ after) ∧ r.Spans [] t [] ∧
    (us = [] → before = []) ∧ (vs = [] → toEnd = true → after = [])

private theorem spans_atStart {r : Regex} {before t after : Text} :
    (seq atStart r).Spans before t after ↔ r.Spans before t after ∧ before = [] := by
  constructor
  · rintro ⟨_, _, rfl, ⟨rfl, rfl⟩, h⟩
    exact ⟨h, rfl⟩
  · rintro ⟨h, rfl⟩
    exact ⟨[], t, rfl, ⟨rfl, rfl⟩, h⟩

private theorem exists_mem_tieFirst {rs : List Regex} {before t after : Text} :
    (∃ q ∈ tieFirst rs, q.Spans before t after) ↔
      ∃ us r vs, rs = us ++ r :: vs ∧ r.Spans before t after ∧ (us = [] → before = []) := by
  constructor
  · rintro ⟨q, hq, hspans⟩
    cases rs with
    | nil => simp [tieFirst] at hq
    | cons r rs =>
      rcases List.mem_cons.mp hq with rfl | hq
      · obtain ⟨hspans, hbefore⟩ := spans_atStart.mp hspans
        exact ⟨[], r, rs, rfl, hspans, fun _ => hbefore⟩
      · obtain ⟨us, vs, rfl⟩ := List.append_of_mem hq
        exact ⟨r :: us, q, vs, rfl, hspans, by simp⟩
  · rintro ⟨us, r, vs, rfl, hspans, hbefore⟩
    cases us with
    | nil => exact ⟨_, List.mem_cons_self, spans_atStart.mpr ⟨hspans, hbefore rfl⟩⟩
    | cons u us => exact ⟨r, by simp [tieFirst], hspans⟩

private theorem exists_place_concat {ss : List Regex} {r r' : Regex}
    {f g : List Regex → Regex → List Regex → Prop} (hlast : f ss r [] → g ss r' [])
    (hinner : ∀ us q vs, f us q (vs ++ [r]) → g us q (vs ++ [r']))
    (h : ∃ us q vs, ss ++ [r] = us ++ q :: vs ∧ f us q vs) :
    ∃ us q vs, ss ++ [r'] = us ++ q :: vs ∧ g us q vs := by
  obtain ⟨us, q, vs, hsplit, hf⟩ := h
  rcases List.eq_nil_or_concat vs with rfl | ⟨vs, x, rfl⟩
  · obtain ⟨rfl, hq⟩ := List.append_inj' hsplit rfl
    obtain rfl : r = q := by simpa using hq
    exact ⟨ss, r', [], rfl, hlast hf⟩
  · rw [List.concat_eq_append] at hsplit hf
    rw [← List.cons_append, ← List.append_assoc] at hsplit
    obtain ⟨rfl, hx⟩ := List.append_inj' hsplit rfl
    obtain rfl : r = x := by simpa using hx
    exact ⟨us, q, vs ++ [r'], by simp, hinner us q vs hf⟩

private theorem head?_ne_caret {p : Text} {rs : List Regex} (hp : read? p = some rs)
    (hfree : ∀ r ∈ rs, r.AnchorFree) : p.head? ≠ some '^' := by
  intro hhead
  obtain ⟨t, rfl⟩ := List.head?_eq_some_iff.mp hhead
  rw [read?_caret] at hp
  obtain ⟨ss, hss, rfl⟩ := Option.map_eq_some_iff.mp hp
  cases ss with
  | nil =>
    obtain ⟨l, _, hl⟩ := exists_level_of_read? hss
    simp [Level.alternatives] at hl
  | cons s ss => exact (hfree _ List.mem_cons_self).1

private theorem regexPattern_slashed {p : Text} (hp : p.head? ≠ some '^') :
    regexPattern ('/' :: (p ++ ['/'])) = '^' :: if p.endsWith '$' then p else p ++ ['$'] := by
  have hlast : Text.endsWith '$' ('^' :: p) = p.endsWith '$' := by
    cases p with
    | nil => rfl
    | cons c p => rw [Text.endsWith, List.getLast?_cons_cons, Text.endsWith]
  simp only [regexPattern, List.tail_cons, List.dropLast_concat, beq_iff_eq, if_neg hp, hlast]
  split_ifs <;> rfl

/-- The pattern of an expression without anchors is read as its alternatives, of which the first
must begin where the subject does. The last must end where the subject does, unless the expression
ends in a dollar. -/
private theorem exists_reading {p : Text} {rs : List Regex} (hp : read? p = some rs)
    (hfree : ∀ r ∈ rs, r.AnchorFree) :
    ∃ qs, read? (regexPattern ('/' :: (p ++ ['/']))) = some qs ∧ ∀ before t after,
      (∃ q ∈ qs, q.Spans before t after) ↔
        ∃ us r vs, rs = us ++ r :: vs ∧ r.Spans before t after ∧ (us = [] → before = []) ∧
          (vs = [] → (!p.endsWith '$') = true → after = [] ∨ after = ['\n']) := by
  rw [regexPattern_slashed (head?_ne_caret hp hfree), read?_caret]
  cases hdollar : p.endsWith '$' with
  | true =>
    refine ⟨tieFirst rs, by rw [if_pos rfl, hp]; rfl, fun before t after => ?_⟩
    simp [exists_mem_tieFirst]
  | false =>
    obtain ⟨ss, r, r', rfl, hread, hr'⟩ := read?_dollar hp
    refine ⟨tieFirst (ss ++ [r']), by rw [if_neg (by simp), hread]; rfl, fun before t after => ?_⟩
    rw [exists_mem_tieFirst]
    constructor
    · apply exists_place_concat
      · intro ⟨hspans, hbefore⟩
        obtain ⟨hspans, hafter⟩ := (hr' _ _ _).mp hspans
        exact ⟨hspans, hbefore, fun _ _ => hafter⟩
      · intro us q vs ⟨hspans, hbefore⟩
        exact ⟨hspans, hbefore, by simp⟩
    · apply exists_place_concat
      · intro ⟨hspans, hbefore, hafter⟩
        exact ⟨(hr' _ _ _).mpr ⟨hspans, hafter rfl rfl⟩, hbefore⟩
      · intro us q vs ⟨hspans, hbefore, _⟩
        exact ⟨hspans, hbefore⟩

private theorem finds_iff_findsTied {toEnd : Bool} {qs rs : List Regex}
    (hfree : ∀ r ∈ rs, r.AnchorFree)
    (hspans : ∀ before t after, (∃ q ∈ qs, q.Spans before t after) ↔
      ∃ us r vs, rs = us ++ r :: vs ∧ r.Spans before t after ∧ (us = [] → before = []) ∧
        (vs = [] → toEnd = true → after = [] ∨ after = ['\n']))
    {s : Text} (hs : '\n' ∉ s) : Finds qs s ↔ FindsTied toEnd rs s := by
  constructor
  · intro ⟨q, hq, before, t, after, hsplit, h⟩
    obtain ⟨us, r, vs, hrs, hr, hbefore, hafter⟩ := (hspans before t after).mp ⟨q, hq, h⟩
    have hmem : r ∈ rs := by simp [hrs]
    refine ⟨us, r, vs, before, t, after, hrs, hsplit, hr.elsewhere (hfree r hmem) _ _, hbefore, ?_⟩
    intro hvs hend
    rcases hafter hvs hend with hnil | hline
    · exact hnil
    · exact absurd (by simp [hsplit, hline]) hs
  · intro ⟨us, r, vs, before, t, after, hrs, hsplit, hr, hbefore, hafter⟩
    have hmem : r ∈ rs := by simp [hrs]
    obtain ⟨q, hq, h⟩ := (hspans before t after).mpr ⟨us, r, vs, hrs,
      hr.elsewhere (hfree r hmem) _ _, hbefore, fun hvs hend => .inl (hafter hvs hend)⟩
    exact ⟨q, hq, before, t, after, hsplit, h⟩

private theorem findsTied_of_matchesWhole {rs : List Regex} {s : Text} (h : MatchesWhole rs s)
    (toEnd : Bool) : FindsTied toEnd rs s := by
  obtain ⟨r, hr, hmatch⟩ := h
  obtain ⟨us, vs, hrs⟩ := List.append_of_mem hr
  exact ⟨us, r, vs, [], s, [], hrs, by simp, hmatch, by simp, by simp⟩

private theorem matchesWhole_of_findsTied {rs : List Regex} (hone : rs.length = 1) {s : Text}
    (h : FindsTied true rs s) : MatchesWhole rs s := by
  obtain ⟨us, r, vs, before, t, after, rfl, rfl, hr, hbefore, hafter⟩ := h
  rw [List.length_append, List.length_cons] at hone
  have hus : us = [] := List.length_eq_zero_iff.mp (by omega)
  have hvs : vs = [] := List.length_eq_zero_iff.mp (by omega)
  rw [hbefore hus, hafter hvs rfl, List.nil_append, List.append_nil]
  exact ⟨r, by simp, hr⟩

private theorem exists_findsTied {p : Text} {rs : List Regex} (hp : read? p = some rs)
    (hfree : ∀ r ∈ rs, r.AnchorFree) {toEnd : Bool} (h : rs.length = 1 → toEnd = false) {z : Char}
    (hz : z ∉ p) : ∃ t, (∀ c ∈ t, c ∈ p) ∧ FindsTied toEnd rs (t ++ [z]) ∧
      ¬MatchesWhole rs (t ++ [z]) := by
  have hletters {r : Regex} (hr : r ∈ rs) {t : Text} (ht : r.Spans [] t []) : ∀ c ∈ t, c ∈ p :=
    fun c hc => mem_of_mem_letters hp hr (mem_letters_of_spans ht c hc)
  cases rs with
  | nil =>
    obtain ⟨l, _, hl⟩ := exists_level_of_read? hp
    simp [Level.alternatives] at hl
  | cons r rs =>
    obtain ⟨t, ht⟩ := exists_spans (hfree r List.mem_cons_self)
    refine ⟨t, hletters List.mem_cons_self ht, ?_, ?_⟩
    · refine ⟨[], r, rs, [], t, [z], rfl, rfl, ht, fun _ => rfl, fun hrs hend => ?_⟩
      rw [h (by simp [hrs])] at hend
      exact absurd hend (by decide)
    · intro ⟨q, hq, hmatch⟩
      exact hz (hletters hq hmatch z (by simp))

/-- A pattern between slashes is anchored alternative by alternative. For an expression without
anchors it finds the subjects in which some alternative matches a part that begins where the subject
does, if the alternative is the first, and ends where it does, if it is the last and the expression
does not end in a dollar (an escaped one). What the expression matches as a whole is always found.
Nothing else is found if there is one alternative and no dollar at the end, and only then, as long
as there is a character that does not occur in the expression. -/
theorem finds_regexPattern {p : Text} {rs : List Regex} (hp : read? p = some rs)
    (hfree : ∀ r ∈ rs, r.AnchorFree) :
    ∃ qs, read? (regexPattern ('/' :: (p ++ ['/']))) = some qs ∧
      (∀ s, '\n' ∉ s → (Finds qs s ↔ FindsTied (!p.endsWith '$') rs s)) ∧
      (∀ s, '\n' ∉ s → MatchesWhole rs s → Finds qs s) ∧
      (rs.length = 1 ∧ p.endsWith '$' = false →
        ∀ s, '\n' ∉ s → (Finds qs s ↔ MatchesWhole rs s)) ∧
      ∀ z, z ∉ p → z ≠ '\n' → '\n' ∉ p →
        (∀ s, '\n' ∉ s → (Finds qs s ↔ MatchesWhole rs s)) →
          rs.length = 1 ∧ p.endsWith '$' = false := by
  obtain ⟨qs, hread, hspans⟩ := exists_reading hp hfree
  have hfinds (s : Text) (hs : '\n' ∉ s) : Finds qs s ↔ FindsTied (!p.endsWith '$') rs s :=
    finds_iff_findsTied hfree hspans hs
  have hwhole (s : Text) (hs : '\n' ∉ s) (h : MatchesWhole rs s) : Finds qs s :=
    (hfinds s hs).mpr (findsTied_of_matchesWhole h _)
  refine ⟨qs, hread, hfinds, hwhole, ?_, ?_⟩
  · intro ⟨hone, hend⟩ s hs
    refine ⟨fun h => matchesWhole_of_findsTied hone ?_, hwhole s hs⟩
    rw [hfinds s hs, hend] at h
    exact h
  · intro z hz hline hlines hexact
    by_contra hnot
    have hloose : rs.length = 1 → (!p.endsWith '$') = false := by
      intro hone
      cases hend : p.endsWith '$' with
      | true => rfl
      | false => exact absurd ⟨hone, hend⟩ hnot
    obtain ⟨t, ht, hfound, hmissed⟩ := exists_findsTied hp hfree hloose hz
    have hs : '\n' ∉ t ++ [z] := by
      intro hmem
      rcases List.mem_append.mp hmem with hmem | hmem
      · exact hlines (ht _ hmem)
      · exact hline (List.mem_singleton.mp hmem).symm
    exact hmissed ((hexact _ hs).mp ((hfinds _ hs).mpr hfound))

theorem finds_regexPattern_group :
    regexPattern "/(a|b)+/".toList = "^(a|b)+$".toList ∧
      ∃ qs, read? "^(a|b)+$".toList = some qs ∧ Finds qs "ba".toList ∧ ¬Finds qs "bac".toList := by
  have hp : read? "(a|b)+".toList =
      some [seq (repeated (.atLeast 1) (either (seq (char 'a') empty) (seq (char 'b') empty)))
        empty] := by
    decide
  have hpattern : regexPattern "/(a|b)+/".toList = "^(a|b)+$".toList := by decide
  obtain ⟨qs, hread, _, _, hexact, _⟩ := finds_regexPattern hp (by simp [AnchorFree])
  have hfinds := hexact ⟨rfl, by decide⟩
  refine ⟨hpattern, qs, hpattern ▸ hread, (hfinds _ (by decide)).mpr ?_, ?_⟩
  · have hcopies : Copies (either (seq (char 'a') empty) (seq (char 'b') empty)).Spans 2 []
        ['b', 'a'] [] :=
      ⟨['b'], ['a'], rfl, .inr ⟨['b'], [], rfl, rfl, rfl⟩, ['a'], [], rfl,
        .inl ⟨['a'], [], rfl, rfl, rfl⟩, rfl⟩
    exact ⟨_, List.mem_cons_self, ['b', 'a'], [], rfl,
      ⟨2, ⟨by decide, by simp [Bounds.atLeast]⟩, hcopies⟩, rfl⟩
  · rw [hfinds _ (by decide)]
    intro ⟨r, hr, hmatch⟩
    obtain rfl := List.mem_singleton.mp hr
    exact absurd (mem_letters_of_spans hmatch 'c' (by decide)) (by decide)

theorem regexPattern_finds_more :
    regexPattern "/a|b/".toList = "^a|b$".toList ∧
      (∃ rs qs, read? "a|b".toList = some rs ∧ (∀ r ∈ rs, r.AnchorFree) ∧
        read? "^a|b$".toList = some qs ∧ Finds qs "ax".toList ∧ ¬MatchesWhole rs "ax".toList) ∧
      regexPattern "/a\\$/".toList = "^a\\$".toList ∧
        ∃ rs qs, read? "a\\$".toList = some rs ∧ (∀ r ∈ rs, r.AnchorFree) ∧
          read? "^a\\$".toList = some qs ∧ Finds qs "a$x".toList ∧
            ¬MatchesWhole rs "a$x".toList := by
  refine ⟨by decide, ?_, by decide, ?_⟩
  · refine ⟨[seq (char 'a') empty, seq (char 'b') empty],
      [seq atStart (seq (char 'a') empty), seq (char 'b') (seq atEnd empty)], by decide,
      by simp [AnchorFree], by decide, ?_, by simp [MatchesWhole, Spans]⟩
    exact ⟨_, List.mem_cons_self, [], ['a'], ['x'], rfl,
      spans_atStart.mpr ⟨⟨['a'], [], rfl, rfl, rfl⟩, rfl⟩⟩
  · refine ⟨[seq (char 'a') (seq (char '$') empty)],
      [seq atStart (seq (char 'a') (seq (char '$') empty))], by decide, by simp [AnchorFree],
      by decide, ?_, by simp [MatchesWhole, Spans]⟩
    exact ⟨_, List.mem_cons_self, [], ['a', '$'], ['x'], rfl,
      spans_atStart.mpr ⟨⟨['a'], ['$'], rfl, rfl, ['$'], [], rfl, rfl, rfl⟩, rfl⟩⟩

end BooleanSearch.Filter
