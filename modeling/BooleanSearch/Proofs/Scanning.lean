import BooleanSearch.Proofs.Quoting
import BooleanSearch.Query.Segment

/-!
# Scans of normalized text

Every scan of normalized text passes over a quiet text without change of its state: a text that
leaves the quotes as it found them and shows neither bracket nor reserved character outside them.
The offsets at which a text is split or unwrapped are replaced here by the pieces themselves.
-/

namespace BooleanSearch.Segment

open Text

def QuietChar (c : Char) : Prop := c ≠ '(' ∧ c ≠ ')' ∧ c ∉ Connective.symbols

/-- Tells that every scan passes over a text and leaves it outside quotes. -/
abbrev Quiet (quoted : Bool) (t : Text) : Prop := Outside QuietChar quoted t

private theorem space_is_quiet {c : Char} (hc : isSpace c = true) :
    c ≠ '"' ∧ QuietChar c := by
  have h : ∀ d : Char, isSpace d = false → c ≠ d := by
    rintro d hd rfl
    simp [hc] at hd
  refine ⟨h _ (by decide), h _ (by decide), h _ (by decide), ?_⟩
  simp only [Connective.symbols, List.mem_cons, List.not_mem_nil, or_false, not_or]
  exact ⟨h _ (by decide), h _ (by decide), h _ (by decide), h _ (by decide)⟩

theorem quiet_of_allSpace {s : Text} (hs : AllSpace s) : Quiet false s := by
  induction s with
  | nil => rfl
  | cons c s ih =>
    have h := allSpace_cons.mp hs
    obtain ⟨hq, hc⟩ := space_is_quiet h.1
    exact (outside_cons_unquoted hq).mpr ⟨hc, ih h.2⟩

/-! ### Pieces of a split -/

/-- The pieces of a text between the occurrences of a symbol outside quotes at bracket depth
zero, for a text that begins inside `depth` brackets. -/
def piecesFrom (symbol : Char) (depth : Int) (quoted : Bool) : Text → List Text
  | [] => [[]]
  | c :: cs =>
    if c = '"' then (piecesFrom symbol depth (!quoted) cs).modifyHead (c :: ·)
    else if quoted then (piecesFrom symbol depth quoted cs).modifyHead (c :: ·)
    else if c = '(' then (piecesFrom symbol (depth + 1) quoted cs).modifyHead (c :: ·)
    else if c = ')' then (piecesFrom symbol (depth - 1) quoted cs).modifyHead (c :: ·)
    else if c = symbol ∧ depth = 0 then [] :: piecesFrom symbol depth quoted cs
    else (piecesFrom symbol depth quoted cs).modifyHead (c :: ·)

theorem piecesFrom_ne_nil (symbol : Char) (depth : Int) (quoted : Bool) (t : Text) :
    piecesFrom symbol depth quoted t ≠ [] := by
  induction t generalizing depth quoted with
  | nil => simp [piecesFrom]
  | cons c t ih =>
    rw [piecesFrom]
    split_ifs <;> simp [ih]

private theorem extendFirst_eq_modifyHead (c : Char) {ss : List Text} (h : ss ≠ []) :
    extendFirst c ss = ss.modifyHead (c :: ·) := by
  cases ss with
  | nil => exact absurd rfl h
  | cons s ss => rfl

private theorem le_of_mem_splitPointsFrom {symbol : Char} {offset : Nat} {depth : Int}
    {quoted : Bool} {t : Text} {p : Nat} (hp : p ∈ splitPointsFrom symbol offset depth quoted t) :
    offset ≤ p := by
  induction t generalizing offset depth quoted with
  | nil => simp [splitPointsFrom] at hp
  | cons c t ih =>
    rw [splitPointsFrom] at hp
    split_ifs at hp
    any_goals exact Nat.le_trans (Nat.le_add_right _ _) (ih hp)
    rcases List.mem_cons.mp hp with rfl | hp
    · exact Nat.le_refl _
    · exact Nat.le_trans (Nat.le_add_right _ _) (ih hp)

private theorem cutFrom_nil (offset : Nat) (t : Text) : cutFrom offset t [] = [t] := by
  cases t <;> rfl

private theorem cutFrom_cons_of_lt {offset : Nat} {c : Char} {t : Text} {ps : List Nat}
    (hps : ∀ p ∈ ps, offset + c.utf8Size ≤ p) :
    cutFrom offset (c :: t) ps = extendFirst c (cutFrom (offset + c.utf8Size) t ps) := by
  cases ps with
  | nil => simp [cutFrom_nil, extendFirst]
  | cons p ps =>
    have hp := hps p (by simp)
    have hpos := Char.utf8Size_pos c
    have hne : offset ≠ p := by omega
    simp [cutFrom, hne]

private theorem cutFrom_splitPointsFrom (symbol : Char) (offset : Nat) (depth : Int)
    (quoted : Bool) (t : Text) :
    cutFrom offset t (splitPointsFrom symbol offset depth quoted t) =
      piecesFrom symbol depth quoted t := by
  induction t generalizing offset depth quoted with
  | nil => rfl
  | cons c t ih =>
    have hstep (depth : Int) (quoted : Bool) :
        cutFrom offset (c :: t) (splitPointsFrom symbol (offset + c.utf8Size) depth quoted t) =
          (piecesFrom symbol depth quoted t).modifyHead (c :: ·) := by
      rw [cutFrom_cons_of_lt fun p hp => le_of_mem_splitPointsFrom hp, ih,
        extendFirst_eq_modifyHead c (piecesFrom_ne_nil symbol depth quoted t)]
    rw [splitPointsFrom, piecesFrom]
    split_ifs
    any_goals exact hstep _ _
    simp [cutFrom, ih]

/-- Cutting a text at the offsets of a connective gives the pieces between its symbols. -/
theorem cut_splitPoints (c : Connective) (t : Text) :
    cut t (splitPoints c t) = piecesFrom c.symbol 0 false t :=
  cutFrom_splitPointsFrom c.symbol 0 0 false t

theorem length_piecesFrom (symbol : Char) (offset : Nat) (depth : Int) (quoted : Bool) (t : Text) :
    (piecesFrom symbol depth quoted t).length =
      (splitPointsFrom symbol offset depth quoted t).length + 1 := by
  induction t generalizing offset depth quoted with
  | nil => rfl
  | cons c t ih =>
    rw [piecesFrom, splitPointsFrom]
    split_ifs
    all_goals simp [ih (offset + c.utf8Size)]

theorem count_piecesFrom {symbol x : Char} (hx : x ≠ symbol) (depth : Int) (quoted : Bool)
    (t : Text) :
    (piecesFrom symbol depth quoted t).flatten.count x = t.count x := by
  induction t generalizing depth quoted with
  | nil => rfl
  | cons c t ih =>
    have hstep (depth : Int) (quoted : Bool) :
        ((piecesFrom symbol depth quoted t).modifyHead (c :: ·)).flatten.count x =
          (c :: t).count x := by
      obtain ⟨s, ss, hs⟩ := List.exists_cons_of_ne_nil (piecesFrom_ne_nil symbol depth quoted t)
      have h := ih depth quoted
      rw [hs] at h
      rw [hs, List.modifyHead_cons, List.flatten_cons, List.cons_append, List.count_cons,
        ← List.flatten_cons, h, List.count_cons]
    rw [piecesFrom]
    split_ifs with h1 h2 h3 h4 h5
    any_goals exact hstep _ _
    have hcx : c ≠ x := fun h => hx (h ▸ h5.1)
    rw [List.flatten_cons, List.nil_append, ih, List.count_cons_of_ne hcx]

theorem piecesFrom_append_of_quiet {symbol : Char} (hsym : symbol ∈ Connective.symbols)
    (depth : Int) {quoted : Bool} {w : Text} (hw : Quiet quoted w) (t : Text) :
    piecesFrom symbol depth quoted (w ++ t) =
      (piecesFrom symbol depth false t).modifyHead (w ++ ·) := by
  induction w generalizing quoted with
  | nil =>
    rw [show quoted = false from hw, List.nil_append]
    cases piecesFrom symbol depth false t <;> rfl
  | cons c w ih =>
    rw [List.cons_append, piecesFrom]
    by_cases hq : c = '"'
    · subst hq
      rw [if_pos rfl, ih (outside_quote.mp hw), List.modifyHead_modifyHead]
      rfl
    · rw [if_neg hq]
      cases quoted with
      | true =>
        rw [if_pos rfl, ih ((outside_cons_quoted hq).mp hw), List.modifyHead_modifyHead]
        rfl
      | false =>
        obtain ⟨⟨ho, hc, hs⟩, hw'⟩ := (outside_cons_unquoted hq).mp hw
        have hne : c ≠ symbol := fun h => hs (h ▸ hsym)
        rw [if_neg (by simp), if_neg ho, if_neg hc, if_neg (fun h => hne h.1), ih hw',
          List.modifyHead_modifyHead]
        rfl

/-! ### The closing bracket -/

/-- What lies before and after the bracket that closes the innermost of `depth + 1` open ones
down to the outermost. -/
def closeFrom (depth : Nat) (quoted : Bool) : Text → Option (Text × Text)
  | [] => none
  | c :: cs =>
    if c = '"' then (closeFrom depth (!quoted) cs).map (Prod.map (c :: ·) id)
    else if quoted then (closeFrom depth quoted cs).map (Prod.map (c :: ·) id)
    else if c = '(' then (closeFrom (depth + 1) quoted cs).map (Prod.map (c :: ·) id)
    else if c = ')' then
      if depth = 0 then some ([], cs)
      else (closeFrom (depth - 1) quoted cs).map (Prod.map (c :: ·) id)
    else (closeFrom depth quoted cs).map (Prod.map (c :: ·) id)

theorem eq_append_of_closeFrom {depth : Nat} {quoted : Bool} {t a b : Text}
    (h : closeFrom depth quoted t = some (a, b)) : t = a ++ ')' :: b := by
  induction t generalizing depth quoted a with
  | nil => simp [closeFrom] at h
  | cons c t ih =>
    have hstep {depth : Nat} {quoted : Bool}
        (h : (closeFrom depth quoted t).map (Prod.map (c :: ·) id) = some (a, b)) :
        c :: t = a ++ ')' :: b := by
      obtain ⟨⟨a', b'⟩, hp, he⟩ := Option.map_eq_some_iff.mp h
      simp only [Prod.map_apply, id_eq, Prod.mk.injEq] at he
      obtain ⟨rfl, rfl⟩ := he
      rw [ih hp]
      rfl
    rw [closeFrom] at h
    split_ifs at h with h1 h2 h3 h4
    any_goals exact hstep h
    simp only [Option.some.injEq, Prod.mk.injEq] at h
    rw [← h.1, ← h.2, h4]
    rfl

private theorem closingFrom_eq (offset depth : Nat) (quoted : Bool) (t : Text) :
    closingFrom offset (depth + 1) quoted t =
      (closeFrom depth quoted t).map fun p => offset + byteSize p.1 := by
  induction t generalizing offset depth quoted with
  | nil => rfl
  | cons c t ih =>
    have hstep (depth : Nat) (quoted : Bool) :
        closingFrom (offset + c.utf8Size) (depth + 1) quoted t =
          ((closeFrom depth quoted t).map (Prod.map (c :: ·) id)).map
            fun p => offset + byteSize p.1 := by
      rw [ih, Option.map_map]
      congr 1
      funext p
      simp [Nat.add_assoc]
    rw [closingFrom, closeFrom]
    split_ifs with h1 h2 h3 h4 h5 h6 h7
    · exact hstep depth (!quoted)
    · exact hstep depth quoted
    · exact_mod_cast hstep (depth + 1) quoted
    · simp
    · omega
    · omega
    · have he : (depth : Int) + 1 - 1 = ((depth - 1 : Nat) : Int) + 1 := by omega
      rw [he]
      exact hstep (depth - 1) quoted
    · exact hstep depth quoted

theorem closeFrom_append_of_quiet (depth : Nat) {quoted : Bool} {w : Text} (hw : Quiet quoted w)
    (t : Text) :
    closeFrom depth quoted (w ++ t) = (closeFrom depth false t).map (Prod.map (w ++ ·) id) := by
  induction w generalizing quoted with
  | nil =>
    rw [show quoted = false from hw, List.nil_append]
    cases closeFrom depth false t <;> rfl
  | cons c w ih =>
    rw [List.cons_append, closeFrom]
    by_cases hq : c = '"'
    · subst hq
      rw [if_pos rfl, ih (outside_quote.mp hw), Option.map_map]
      rfl
    · rw [if_neg hq]
      cases quoted with
      | true =>
        rw [if_pos rfl, ih ((outside_cons_quoted hq).mp hw), Option.map_map]
        rfl
      | false =>
        obtain ⟨⟨ho, hc, _⟩, hw'⟩ := (outside_cons_unquoted hq).mp hw
        rw [if_neg (by simp), if_neg ho, if_neg hc, ih hw', Option.map_map]
        rfl

/-! ### Brackets around a whole text -/

private theorem byteSize_eq_zero {t : Text} (h : byteSize t = 0) : t = [] := by
  cases t with
  | nil => rfl
  | cons c t =>
    have hpos := Char.utf8Size_pos c
    rw [byteSize_cons] at h
    omega

private theorem dropLast_concat_closing (a : Text) : (a ++ [')']).dropLast = a := by
  simp

/-- A text is unwrapped exactly if its first bracket is closed by its last character. -/
theorem unwrap?_eq_some_iff {t u : Text} :
    unwrap? t = some u ↔ ∃ cs, t = '(' :: cs ∧ closeFrom 0 false cs = some (u, []) := by
  cases t with
  | nil => simp [unwrap?]
  | cons c cs =>
    by_cases hc : c = '('
    · subst hc
      have hoff : closingOffset? ('(' :: cs) =
          (closeFrom 0 false cs).map fun p => 1 + byteSize p.1 := by
        have h := closingFrom_eq 1 0 false cs
        rw [← h]
        rfl
      have hsize : Char.utf8Size '(' = 1 := by decide
      have hsize' : Char.utf8Size ')' = 1 := by decide
      cases hclose : closeFrom 0 false cs with
      | none => simp [unwrap?, hoff, hclose]
      | some p =>
        obtain ⟨a, b⟩ := p
        have hcs := eq_append_of_closeFrom hclose
        have htotal : byteSize ('(' :: cs) = 1 + byteSize a + 1 + byteSize b := by
          rw [hcs, byteSize_cons, byteSize_append, byteSize_cons, hsize, hsize']
          omega
        have hlast : 1 + byteSize a = byteSize ('(' :: cs) - 1 ↔ b = [] := by
          rw [htotal]
          constructor
          · intro h
            exact byteSize_eq_zero (by omega)
          · rintro rfl
            simp
        simp only [unwrap?, hoff, hclose, Option.map_some, Option.some.injEq, hlast, true_and]
        constructor
        · intro h
          split_ifs at h with hb
          subst hb
          rw [hcs, dropLast_concat_closing, Option.some.injEq] at h
          subst h
          exact ⟨cs, rfl, hclose⟩
        · rintro ⟨cs', he, h⟩
          obtain rfl := (List.cons.inj he).2
          rw [hclose, Option.some.injEq, Prod.mk.injEq] at h
          obtain ⟨rfl, rfl⟩ := h
          rw [if_pos rfl, hcs, dropLast_concat_closing]
    · simp [unwrap?, hc]

theorem eq_of_unwrap? {t u : Text} (h : unwrap? t = some u) : t = '(' :: (u ++ [')']) := by
  obtain ⟨cs, rfl, hc⟩ := unwrap?_eq_some_iff.mp h
  rw [eq_append_of_closeFrom hc]

private theorem length_lt_of_unwrap? {t u : Text} (h : unwrap? t = some u) :
    (trim u).length < t.length := by
  have ht := congrArg List.length (eq_of_unwrap? h)
  have hu := length_trim_le u
  simp only [List.length_cons, List.length_append, List.length_nil] at ht
  omega

private theorem unwrapPairs_eq {m n : Nat} {t : Text} (hm : t.length ≤ m) (hn : t.length ≤ n) :
    unwrapPairs m t = unwrapPairs n t := by
  induction m generalizing n t with
  | zero =>
    have ht : t = [] := List.length_eq_zero_iff.mp (by omega)
    subst ht
    cases n <;> simp [unwrapPairs, unwrap?]
  | succ m ih =>
    cases n with
    | zero =>
      have ht : t = [] := List.length_eq_zero_iff.mp (by omega)
      subst ht
      simp [unwrapPairs, unwrap?]
    | succ n =>
      simp only [unwrapPairs]
      cases hu : unwrap? t with
      | none => rfl
      | some u =>
        have hlt := length_lt_of_unwrap? hu
        exact ih (by omega) (by omega)

theorem unwrapAll_of_none {t : Text} (h : unwrap? t = none) : unwrapAll t = t := by
  cases t with
  | nil => rfl
  | cons c t => simp [unwrapAll, unwrapPairs, h]

theorem unwrapAll_of_some {t u : Text} (h : unwrap? t = some u) :
    unwrapAll t = unwrapAll u.trim := by
  have hlt := length_lt_of_unwrap? h
  obtain ⟨n, hn⟩ : ∃ n, t.length = n + 1 := ⟨t.length - 1, by omega⟩
  rw [unwrapAll, hn, unwrapPairs, h]
  exact unwrapPairs_eq (by omega) (Nat.le_refl _)

/-- An induction over the pairs of brackets that wrap all of a text. -/
theorem unwrapAll_induction {motive : Text → Prop}
    (none : ∀ t, unwrap? t = none → motive t)
    (some : ∀ t u, unwrap? t = some u → motive u.trim → motive t) (t : Text) : motive t := by
  induction hn : t.length using Nat.strongRecOn generalizing t with
  | ind n ih =>
    cases hu : unwrap? t with
    | none => exact none t hu
    | some u => exact some t u hu (ih _ (hn ▸ length_lt_of_unwrap? hu) _ rfl)

/-! ### Brackets outside quotes -/

theorem isSome_breakFrom_append_of_quiet {mark : Char} (hm : mark = '(' ∨ mark = ')')
    {quoted : Bool} {w : Text} (hw : Quiet quoted w) (t : Text) :
    (breakFrom mark quoted (w ++ t)).isSome = (breakFrom mark false t).isSome := by
  induction w generalizing quoted with
  | nil =>
    rw [show quoted = false from hw]
    rfl
  | cons c w ih =>
    rw [List.cons_append, breakFrom]
    by_cases hq : c = '"'
    · subst hq
      rw [if_pos rfl, Option.isSome_map, ih (outside_quote.mp hw)]
    · rw [if_neg hq]
      cases quoted with
      | true =>
        rw [if_neg (by simp), Option.isSome_map, ih ((outside_cons_quoted hq).mp hw)]
      | false =>
        obtain ⟨⟨ho, hc, _⟩, hw'⟩ := (outside_cons_unquoted hq).mp hw
        have hne : c ≠ mark := by rcases hm with rfl | rfl <;> assumption
        rw [if_neg (by simp [hne]), Option.isSome_map, ih hw']

theorem hasUnquoted_append_of_quiet {mark : Char} (hm : mark = '(' ∨ mark = ')') {w : Text}
    (hw : Quiet false w) (t : Text) : hasUnquoted mark (w ++ t) = hasUnquoted mark t :=
  isSome_breakFrom_append_of_quiet hm hw t

end BooleanSearch.Segment
