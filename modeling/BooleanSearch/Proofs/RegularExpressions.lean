import BooleanSearch.Filter.Pattern
import Mathlib.Data.List.Basic

/-!
# Regular expressions

A regular expression is made of characters, of the anchors `^` and `$`, and of sequences, choices
and repetitions. It is read from its text with the usual precedence: a repetition takes the part
just before it, and a choice takes all that stands between the brackets around it. What an
expression matches may depend on the place in the subject, but only through its anchors.
-/

namespace BooleanSearch.Filter

structure Bounds where
  least : Nat
  most : Option Nat
  ordered : ∀ m ∈ most, least ≤ m
  deriving DecidableEq, Repr

/-- A regular expression. -/
inductive Regex where
  | empty
  | char (c : Char)
  | atStart
  | atEnd
  | seq (r s : Regex)
  | either (r s : Regex)
  | repeated (b : Bounds) (r : Regex)
  deriving DecidableEq, Repr

/-! ### What an expression matches -/

def Bounds.Allows (b : Bounds) (k : Nat) : Prop := b.least ≤ k ∧ ∀ m ∈ b.most, k ≤ m

namespace Regex

/-- Tells that a text is made of `k` parts of which each, where it stands, satisfies `p`. -/
def Copies (p : Text → Text → Text → Prop) : Nat → Text → Text → Text → Prop
  | 0, _, t, _ => t = []
  | k + 1, before, t, after =>
    ∃ u v, t = u ++ v ∧ p before u (v ++ after) ∧ Copies p k (before ++ u) v after

/-- Tells that an expression matches `t` where it stands between `before` and `after`. -/
def Spans : Regex → Text → Text → Text → Prop
  | empty, _, t, _ => t = []
  | char c, _, t, _ => t = [c]
  | atStart, before, t, _ => t = [] ∧ before = []
  | atEnd, _, t, after => t = [] ∧ (after = [] ∨ after = ['\n'])
  | seq r s, before, t, after =>
    ∃ u v, t = u ++ v ∧ r.Spans before u (v ++ after) ∧ s.Spans (before ++ u) v after
  | either r s, before, t, after => r.Spans before t after ∨ s.Spans before t after
  | repeated b r, before, t, after => ∃ k, b.Allows k ∧ Copies r.Spans k before t after

def Finds (rs : List Regex) (s : Text) : Prop :=
  ∃ r ∈ rs, ∃ before t after, s = before ++ (t ++ after) ∧ r.Spans before t after

def MatchesWhole (rs : List Regex) (s : Text) : Prop := ∃ r ∈ rs, r.Spans [] s []

/-- Tells that an expression has no anchors. -/
def AnchorFree : Regex → Prop
  | empty => True
  | char _ => True
  | atStart => False
  | atEnd => False
  | seq r s => r.AnchorFree ∧ s.AnchorFree
  | either r s => r.AnchorFree ∧ s.AnchorFree
  | repeated _ r => r.AnchorFree

def letters : Regex → Text
  | empty => []
  | char c => [c]
  | atStart => []
  | atEnd => []
  | seq r s => r.letters ++ s.letters
  | either r s => r.letters ++ s.letters
  | repeated _ r => r.letters

section

variable {p : Text → Text → Text → Prop} {k : Nat} {before t after : Text}

private theorem Copies.elsewhere (h : Copies p k before t after)
    (hp : ∀ {before t after}, p before t after → ∀ before' after', p before' t after')
    (before' after' : Text) : Copies p k before' t after' := by
  induction k generalizing before t before' with
  | zero => exact h
  | succ k ih =>
    obtain ⟨u, v, ht, hu, hv⟩ := h
    exact ⟨u, v, ht, hp hu _ _, ih hv _⟩

private theorem Copies.forall_mem (h : Copies p k before t after) {q : Char → Prop}
    (hp : ∀ {before t after}, p before t after → ∀ c ∈ t, q c) : ∀ c ∈ t, q c := by
  induction k generalizing before t with
  | zero => simp [show t = [] from h]
  | succ k ih =>
    obtain ⟨u, v, rfl, hu, hv⟩ := h
    exact List.forall_mem_append.mpr ⟨hp hu, ih hv⟩

private theorem exists_copies {u : Text} (hu : ∀ before after, p before u after) (k : Nat)
    (before after : Text) : ∃ t, Copies p k before t after := by
  induction k generalizing before with
  | zero => exact ⟨[], rfl⟩
  | succ k ih =>
    obtain ⟨v, hv⟩ := ih (before ++ u)
    exact ⟨u ++ v, u, v, rfl, hu _ _, hv⟩

end

theorem Spans.elsewhere {r : Regex} (hr : r.AnchorFree) {before t after : Text}
    (h : r.Spans before t after) (before' after' : Text) : r.Spans before' t after' := by
  induction r generalizing before t after before' after' with
  | empty => exact h
  | char c => exact h
  | atStart => exact hr.elim
  | atEnd => exact hr.elim
  | seq r s ihr ihs =>
    obtain ⟨u, v, ht, hu, hv⟩ := h
    exact ⟨u, v, ht, ihr hr.1 hu _ _, ihs hr.2 hv _ _⟩
  | either r s ihr ihs => exact h.imp (fun h => ihr hr.1 h _ _) fun h => ihs hr.2 h _ _
  | repeated b r ih =>
    obtain ⟨k, hk, hcopies⟩ := h
    exact ⟨k, hk, hcopies.elsewhere (ih hr) _ _⟩

theorem mem_letters_of_spans {r : Regex} {before t after : Text} (h : r.Spans before t after) :
    ∀ c ∈ t, c ∈ r.letters := by
  induction r generalizing before t after with
  | empty => simp [show t = [] from h]
  | char d => simp [show t = [d] from h, letters]
  | atStart => simp [h.1]
  | atEnd => simp [h.1]
  | seq r s ihr ihs =>
    obtain ⟨u, v, rfl, hu, hv⟩ := h
    intro c hc
    exact List.mem_append.mpr ((List.mem_append.mp hc).imp (ihr hu c) (ihs hv c))
  | either r s ihr ihs =>
    intro c hc
    exact List.mem_append.mpr (h.imp (fun h => ihr h c hc) fun h => ihs h c hc)
  | repeated b r ih =>
    obtain ⟨k, _, hcopies⟩ := h
    exact hcopies.forall_mem ih

theorem exists_spans {r : Regex} (hr : r.AnchorFree) : ∃ t, r.Spans [] t [] := by
  induction r with
  | empty => exact ⟨[], rfl⟩
  | char c => exact ⟨[c], rfl⟩
  | atStart => exact hr.elim
  | atEnd => exact hr.elim
  | seq r s ihr ihs =>
    obtain ⟨u, hu⟩ := ihr hr.1
    obtain ⟨v, hv⟩ := ihs hr.2
    exact ⟨u ++ v, u, v, rfl, hu.elsewhere hr.1 _ _, hv.elsewhere hr.2 _ _⟩
  | either r s ihr _ =>
    obtain ⟨t, ht⟩ := ihr hr.1
    exact ⟨t, .inl ht⟩
  | repeated b r ih =>
    have hfree : r.AnchorFree := hr
    obtain ⟨u, hu⟩ := ih hfree
    obtain ⟨t, ht⟩ := exists_copies (hu.elsewhere hfree) b.least [] []
    exact ⟨t, b.least, ⟨Nat.le_refl _, b.ordered⟩, ht⟩

end Regex

/-! ### Reading an expression -/

def numeral? (t : Text) : Option Nat :=
  if t.isEmpty then none
  else t.foldlM (fun n c => (digitValue? c).map fun d => 10 * n + d) 0

namespace Bounds

def atLeast (m : Nat) : Bounds := ⟨m, none, by simp⟩

def between? (m n : Nat) : Option Bounds :=
  if h : m ≤ n then some ⟨m, some n, by simpa using h⟩ else none

def ofText? (t : Text) : Option Bounds :=
  (numeral? (t.takeWhile (· != ','))).bind fun m =>
    match t.dropWhile (· != ',') with
    | [] => between? m m
    | [_] => some (atLeast m)
    | _ :: rest => (numeral? rest).bind (between? m)

end Bounds

namespace Regex

def isRepeatable : Regex → Bool
  | atStart => false
  | atEnd => false
  | repeated _ _ => false
  | _ => true

def sequence (rs : List Regex) : Regex := rs.foldr seq empty

/-- What has been read between two brackets: the alternatives that are complete, then the parts of
the one that is not, the latest part first. -/
structure Level where
  closed : List Regex
  parts : List Regex
  deriving DecidableEq, Repr

namespace Level

def start : Level := ⟨[], []⟩

def alternatives (l : Level) : List Regex := l.closed ++ [sequence l.parts.reverse]

def group (l : Level) : Regex := l.closed.foldr either (sequence l.parts.reverse)

def push (l : Level) (r : Regex) : Level := ⟨l.closed, r :: l.parts⟩

def branch (l : Level) : Level := ⟨l.alternatives, []⟩

def repeatLast? (l : Level) (b : Bounds) : Option Level :=
  match l.parts with
  | [] => none
  | r :: rs => if r.isRepeatable then some ⟨l.closed, repeated b r :: rs⟩ else none

end Level

inductive Mode where
  | plain
  | escaped
  /-- A part of the braces in which these characters came before. -/
  | counting (seen : Text)
  deriving DecidableEq, Repr

/-- How far a text has been read. The levels stand from the inside out. -/
structure Reading where
  levels : List Level
  mode : Mode
  deriving DecidableEq, Repr

inductive Action where
  | turn (m : Mode)
  | openGroup
  | closeGroup
  | branch
  | repeated (b : Bounds)
  | push (r : Regex)
  | refuse

namespace Action

def ofChar : Char → Action
  | '\\' => turn .escaped
  | '{' => turn (.counting [])
  | '(' => openGroup
  | ')' => closeGroup
  | '|' => branch
  | '*' => repeated (.atLeast 0)
  | '+' => repeated (.atLeast 1)
  | '?' => repeated ⟨0, some 1, by simp⟩
  | '^' => push atStart
  | '$' => push atEnd
  | '.' => refuse
  | '[' => refuse
  | c => push (char c)

/-- What a character does. Behind a backslash it stands for itself, unless it is a letter or a
digit. -/
def ofMode : Mode → Char → Action
  | .plain, c => ofChar c
  | .escaped, c => if c.isAlphanum then refuse else push (char c)
  | .counting seen, c =>
    if c = '}' then
      match Bounds.ofText? seen with
      | some b => repeated b
      | none => refuse
    else turn (.counting (seen ++ [c]))

def apply : Action → Level → List Level → Option Reading
  | turn m, l, ls => some ⟨l :: ls, m⟩
  | openGroup, l, ls => some ⟨.start :: l :: ls, .plain⟩
  | closeGroup, _, [] => none
  | closeGroup, l, m :: ls => some ⟨m.push l.group :: ls, .plain⟩
  | branch, l, ls => some ⟨l.branch :: ls, .plain⟩
  | repeated b, l, ls => (l.repeatLast? b).map fun l => ⟨l :: ls, .plain⟩
  | push r, l, ls => some ⟨l.push r :: ls, .plain⟩
  | refuse, _, _ => none

end Action

namespace Reading

def start : Reading := ⟨[.start], .plain⟩

def step (R : Reading) (c : Char) : Option Reading :=
  match R.levels with
  | [] => none
  | l :: ls => (Action.ofMode R.mode c).apply l ls

def run (R : Reading) (t : Text) : Option Reading := t.foldlM step R

def alternatives? (R : Reading) : Option (List Regex) :=
  match R.levels, R.mode with
  | [l], .plain => some l.alternatives
  | _, _ => none

end Reading

/-- Reads an expression as a list of alternatives. Expressions with other operators are not read. -/
def read? (t : Text) : Option (List Regex) := (Reading.start.run t).bind Reading.alternatives?

theorem exists_level_of_read? {t : Text} {rs : List Regex} (h : read? t = some rs) :
    ∃ l : Level, Reading.start.run t = some ⟨[l], .plain⟩ ∧ rs = l.alternatives := by
  obtain ⟨⟨levels, mode⟩, hrun, halternatives⟩ := Option.bind_eq_some_iff.mp h
  match levels, mode with
  | [l], .plain => exact ⟨l, hrun, (Option.some.inj halternatives).symm⟩
  | [], _ => simp [Reading.alternatives?] at halternatives
  | [l], .escaped => simp [Reading.alternatives?] at halternatives
  | [l], .counting seen => simp [Reading.alternatives?] at halternatives
  | l :: m :: ls, _ => simp [Reading.alternatives?] at halternatives

/-! ### The characters of an expression -/

section

variable {q : Char → Prop}

private theorem letters_sequence {rs : List Regex} (h : ∀ r ∈ rs, ∀ c ∈ r.letters, q c) :
    ∀ c ∈ (sequence rs).letters, q c := by
  induction rs with
  | nil => simp [sequence, letters]
  | cons r rs ih =>
    obtain ⟨hr, hrs⟩ := List.forall_mem_cons.mp h
    exact List.forall_mem_append.mpr ⟨hr, ih hrs⟩

def Level.Over (q : Char → Prop) (l : Level) : Prop :=
  (∀ r ∈ l.closed, ∀ c ∈ r.letters, q c) ∧ ∀ r ∈ l.parts, ∀ c ∈ r.letters, q c

namespace Level

private theorem Over.alternatives {l : Level} (h : l.Over q) :
    ∀ r ∈ l.alternatives, ∀ c ∈ r.letters, q c := by
  refine List.forall_mem_append.mpr ⟨h.1, List.forall_mem_singleton.mpr ?_⟩
  exact letters_sequence fun r hr => h.2 r (List.mem_reverse.mp hr)

private theorem Over.group {l : Level} (h : l.Over q) : ∀ c ∈ l.group.letters, q c := by
  have hlast : ∀ c ∈ (sequence l.parts.reverse).letters, q c :=
    letters_sequence fun r hr => h.2 r (List.mem_reverse.mp hr)
  have hall : ∀ rs : List Regex, (∀ r ∈ rs, ∀ c ∈ r.letters, q c) →
      ∀ c ∈ (rs.foldr either (sequence l.parts.reverse)).letters, q c := by
    intro rs hrs
    induction rs with
    | nil => exact hlast
    | cons r rs ih =>
      obtain ⟨hr, hrs⟩ := List.forall_mem_cons.mp hrs
      exact List.forall_mem_append.mpr ⟨hr, ih hrs⟩
  exact hall l.closed h.1

private theorem Over.push {l : Level} (h : l.Over q) {r : Regex} (hr : ∀ c ∈ r.letters, q c) :
    (l.push r).Over q :=
  ⟨h.1, List.forall_mem_cons.mpr ⟨hr, h.2⟩⟩

private theorem Over.repeatLast? {l l' : Level} (h : l.Over q) {b : Bounds}
    (hl : l.repeatLast? b = some l') : l'.Over q := by
  obtain ⟨closed, parts⟩ := l
  cases parts with
  | nil => simp [Level.repeatLast?] at hl
  | cons r rs =>
    simp only [Level.repeatLast?] at hl
    split_ifs at hl
    obtain rfl := Option.some.inj hl
    obtain ⟨hr, hrs⟩ := List.forall_mem_cons.mp h.2
    exact ⟨h.1, List.forall_mem_cons.mpr ⟨hr, hrs⟩⟩

end Level

private theorem letters_of_push {mode : Mode} {c : Char} {r : Regex}
    (h : Action.ofMode mode c = .push r) (hc : q c) : ∀ d ∈ r.letters, q d := by
  cases mode with
  | plain =>
    rw [Action.ofMode, Action.ofChar.eq_def] at h
    split at h
    all_goals cases h
    all_goals simp [letters, hc]
  | escaped =>
    rw [Action.ofMode] at h
    split_ifs at h
    obtain rfl := Action.push.inj h
    simpa [letters] using hc
  | counting seen =>
    rw [Action.ofMode] at h
    split_ifs at h
    split at h <;> simp at h

private theorem step_over {R R' : Reading} {c : Char} (h : R.step c = some R')
    (hR : ∀ l ∈ R.levels, l.Over q) (hc : q c) : ∀ l ∈ R'.levels, l.Over q := by
  obtain ⟨levels, mode⟩ := R
  cases levels with
  | nil => simp [Reading.step] at h
  | cons l ls =>
    obtain ⟨hl, hls⟩ := List.forall_mem_cons.mp hR
    change (Action.ofMode mode c).apply l ls = some R' at h
    cases ha : Action.ofMode mode c with
    | turn m =>
      rw [ha, Action.apply] at h
      obtain rfl := Option.some.inj h
      exact hR
    | openGroup =>
      rw [ha, Action.apply] at h
      obtain rfl := Option.some.inj h
      exact List.forall_mem_cons.mpr ⟨⟨by simp [Level.start], by simp [Level.start]⟩, hR⟩
    | closeGroup =>
      rw [ha] at h
      cases ls with
      | nil => simp [Action.apply] at h
      | cons m ls =>
        obtain ⟨hm, hls⟩ := List.forall_mem_cons.mp hls
        obtain rfl := Option.some.inj h
        exact List.forall_mem_cons.mpr ⟨hm.push hl.group, hls⟩
    | branch =>
      rw [ha, Action.apply] at h
      obtain rfl := Option.some.inj h
      exact List.forall_mem_cons.mpr ⟨⟨hl.alternatives, by simp [Level.branch]⟩, hls⟩
    | repeated b =>
      rw [ha, Action.apply] at h
      obtain ⟨l', hl', rfl⟩ := Option.map_eq_some_iff.mp h
      exact List.forall_mem_cons.mpr ⟨hl.repeatLast? hl', hls⟩
    | push r =>
      rw [ha, Action.apply] at h
      obtain rfl := Option.some.inj h
      exact List.forall_mem_cons.mpr ⟨hl.push (letters_of_push ha hc), hls⟩
    | refuse =>
      rw [ha, Action.apply] at h
      simp at h

private theorem run_over {R R' : Reading} {t : Text} (h : R.run t = some R')
    (hR : ∀ l ∈ R.levels, l.Over q) (ht : ∀ c ∈ t, q c) : ∀ l ∈ R'.levels, l.Over q := by
  induction t generalizing R with
  | nil =>
    obtain rfl := Option.some.inj h
    exact hR
  | cons c t ih =>
    obtain ⟨hc, ht⟩ := List.forall_mem_cons.mp ht
    rw [Reading.run, List.foldlM_cons] at h
    obtain ⟨R'', hstep, hrun⟩ := Option.bind_eq_some_iff.mp h
    exact ih hrun (step_over hstep hR hc) ht

end

theorem mem_of_mem_letters {t : Text} {rs : List Regex} (h : read? t = some rs) {r : Regex}
    (hr : r ∈ rs) {c : Char} (hc : c ∈ r.letters) : c ∈ t := by
  obtain ⟨l, hrun, rfl⟩ := exists_level_of_read? h
  have hstart : ∀ l ∈ Reading.start.levels, l.Over (· ∈ t) := by
    simp [Reading.start, Level.start, Level.Over]
  have hover := run_over hrun hstart (fun c hc => hc) l (by simp)
  exact hover.alternatives r hr c hc

end Regex

end BooleanSearch.Filter
