import BooleanSearch.Proofs.Spelling

/-!
# Where a scan stands

Every scan of normalized text counts the open brackets and remembers whether it is inside quotes. A
text is split only where the scan stands as it does at the start, so a segment that is scanned on
its own shows what it shows within the whole text. Splitting therefore loses nothing and leaves
nothing to split, also where brackets or quotes are out of balance.
-/

namespace BooleanSearch.Segment

open Text

/-- Where a scan stands: how many more brackets were opened than closed outside quotes, and whether
it is inside quotes. -/
structure Standing where
  depth : Int
  quoted : Bool
  deriving DecidableEq, Repr

namespace Standing

def start : Standing := ⟨0, false⟩

def step (p : Standing) (c : Char) : Standing :=
  if c = '"' then ⟨p.depth, !p.quoted⟩
  else if p.quoted then p
  else if c = '(' then ⟨p.depth + 1, false⟩
  else if c = ')' then ⟨p.depth - 1, false⟩
  else p

def after (p : Standing) (t : Text) : Standing := t.foldl step p

theorem quoted_step (p : Standing) (c : Char) :
    (p.step c).quoted = if c = '"' then !p.quoted else p.quoted := by
  rw [step]
  split_ifs <;> simp_all

theorem step_symbol (p : Standing) (c : Connective) : p.step c.symbol = p := by
  simp [step, Connective.symbol_ne.1, Connective.symbol_ne.2.1, Connective.symbol_ne.2.2.1]

end Standing

open Standing

/-- A character at its byte offset, and where the scan stands when it comes to it. -/
structure Place where
  offset : Nat
  char : Char
  standing : Standing
  deriving DecidableEq, Repr

def places (p : Standing) (offset : Nat) : Text → List Place
  | [] => []
  | c :: cs => ⟨offset, c, p⟩ :: places (p.step c) (offset + c.utf8Size) cs

theorem places_append (p : Standing) (offset : Nat) (s t : Text) :
    places p offset (s ++ t) =
      places p offset s ++ places (p.after s) (offset + byteSize s) t := by
  induction s generalizing p offset with
  | nil => rfl
  | cons c s ih =>
    rw [List.cons_append, places, ih, places, byteSize_cons, Nat.add_assoc]
    rfl

theorem places_add (p : Standing) (m n : Nat) (t : Text) :
    places p (m + n) t = (places p n t).map fun x => { x with offset := m + x.offset } := by
  induction t generalizing p n with
  | nil => rfl
  | cons c t ih => rw [places, Nat.add_assoc, ih, places, List.map_cons]

theorem le_offset_of_mem {p : Standing} {offset : Nat} {t : Text} {x : Place}
    (hx : x ∈ places p offset t) : offset ≤ x.offset := by
  induction t generalizing p offset with
  | nil => simp [places] at hx
  | cons c t ih =>
    rcases List.mem_cons.mp hx with rfl | hx
    · exact Nat.le_refl _
    · have hle := ih hx
      omega

theorem increasing_places (p : Standing) (offset : Nat) (t : Text) :
    (places p offset t).Pairwise fun x y => x.offset < y.offset := by
  induction t generalizing p offset with
  | nil => exact .nil
  | cons c t ih =>
    refine List.pairwise_cons.mpr ⟨?_, ih _ _⟩
    intro x hx
    have hle := le_offset_of_mem hx
    have hpos := Char.utf8Size_pos c
    change offset < x.offset
    omega

/-! ### Split points -/

def Place.splits (c : Connective) (x : Place) : Bool := x.char = c.symbol ∧ x.standing = start

theorem splitPointsFrom_eq (c : Connective) (p : Standing) (offset : Nat) (t : Text) :
    splitPointsFrom c.symbol offset p.depth p.quoted t =
      ((places p offset t).filter (Place.splits c)).map Place.offset := by
  obtain ⟨hquote, hopen, hclose, _⟩ := @Connective.symbol_ne c
  induction t generalizing p offset with
  | nil => rfl
  | cons d t ih =>
    have hrest := ih (p.step d) (offset + d.utf8Size)
    rw [splitPointsFrom, places, List.filter_cons]
    by_cases hd : d = c.symbol
    · subst hd
      rw [step_symbol] at hrest ⊢
      obtain ⟨depth, quoted⟩ := p
      dsimp only at hrest
      by_cases hdepth : depth = 0
      · subst hdepth
        cases quoted <;> simp [Place.splits, start, hquote, hopen, hclose, ← hrest]
      · cases quoted <;> simp [Place.splits, start, hquote, hopen, hclose, hdepth, ← hrest]
    · have hnone : Place.splits c ⟨offset, d, p⟩ = false := by simp [Place.splits, hd]
      rw [hnone, if_neg Bool.false_ne_true, ← hrest, step]
      obtain ⟨depth, quoted⟩ := p
      cases quoted <;> split_ifs <;> simp_all

theorem splitPoints_eq (c : Connective) (t : Text) :
    splitPoints c t = ((places start 0 t).filter (Place.splits c)).map Place.offset :=
  splitPointsFrom_eq c start 0 t

theorem map_offset_places (c : Connective) (offset : Nat) (t : Text) :
    ((places start offset t).filter (Place.splits c)).map Place.offset =
      (splitPoints c t).map (offset + ·) := by
  have hadd := places_add start offset 0 t
  rw [Nat.add_zero] at hadd
  rw [hadd, splitPoints_eq, List.filter_map, List.map_map, List.map_map]
  rfl

/-! ### Brackets and other characters -/

def Place.closes (x : Place) : Bool := x.char = ')' ∧ x.standing = ⟨1, false⟩

def Place.shows (mark : Char) (x : Place) : Bool := x.char = mark ∧ x.standing.quoted = false

theorem closingFrom_places (p : Standing) (offset : Nat) (t : Text) :
    closingFrom offset p.depth p.quoted t =
      ((places p offset t).find? Place.closes).map Place.offset := by
  induction t generalizing p offset with
  | nil => rfl
  | cons d t ih =>
    have hrest := ih (p.step d) (offset + d.utf8Size)
    rw [closingFrom, places, List.find?_cons]
    by_cases hclose : Place.closes ⟨offset, d, p⟩ = true
    · obtain ⟨rfl, rfl⟩ := of_decide_eq_true hclose
      rfl
    · rw [Bool.not_eq_true] at hclose
      simp only [hclose]
      rw [← hrest, step]
      obtain ⟨depth, quoted⟩ := p
      cases quoted <;> split_ifs <;> simp_all [Place.closes]

theorem breakFrom_places {mark : Char} (hmark : mark ≠ '"') (p : Standing) (offset : Nat)
    (t : Text) :
    (breakFrom mark p.quoted t).map (fun (before, _) => offset + byteSize before) =
      ((places p offset t).find? (Place.shows mark)).map Place.offset := by
  induction t generalizing p offset with
  | nil => rfl
  | cons d t ih =>
    have hrest := ih (p.step d) (offset + d.utf8Size)
    rw [breakFrom, places, List.find?_cons]
    by_cases hshow : Place.shows mark ⟨offset, d, p⟩ = true
    · obtain ⟨rfl, hquoted⟩ := of_decide_eq_true hshow
      simp_all
    · rw [Bool.not_eq_true] at hshow
      simp only [hshow]
      rw [← hrest, quoted_step]
      simp only [Place.shows] at hshow
      split_ifs <;> simp_all [Function.comp_def, Nat.add_assoc]

theorem closingOffset?_eq (t : Text) :
    closingOffset? t = ((places start 0 t).find? Place.closes).map Place.offset :=
  closingFrom_places start 0 t

theorem offsetUnquoted?_eq {mark : Char} (hmark : mark ≠ '"') (t : Text) :
    offsetUnquoted? mark t = ((places start 0 t).find? (Place.shows mark)).map Place.offset := by
  have h := breakFrom_places hmark start 0 t
  simp only [Nat.zero_add] at h
  exact h

/-! ### Segments -/

/-- Tells that a text, scanned from where `p` stands, is split nowhere. -/
def Whole (c : Connective) (p : Standing) (t : Text) : Prop :=
  ∀ offset, (places p offset t).filter (Place.splits c) = []

theorem Whole.cons {c : Connective} {p : Standing} {d : Char} {t : Text}
    (h : Whole c (p.step d) t) (hd : ¬(d = c.symbol ∧ p = start)) : Whole c p (d :: t) := by
  intro offset
  have hnone : Place.splits c ⟨offset, d, p⟩ = false := by simpa [Place.splits] using hd
  rw [places, List.filter_cons, hnone, if_neg Bool.false_ne_true]
  exact h _

/-- The segments of a text that is scanned from where `p` stands. Each is split nowhere, and where
it ends before a symbol the scan stands as it does at the start. -/
inductive Cuts (c : Connective) : Standing → Text → List Text → Prop
  | last {p : Standing} {t : Text} (h : Whole c p t) : Cuts c p t [t]
  | next {p : Standing} {s t : Text} {ss : List Text} (h : Whole c p s) (hs : p.after s = start)
      (ht : Cuts c start t ss) : Cuts c p (s ++ c.symbol :: t) (s :: ss)

theorem Cuts.cons {c : Connective} {p : Standing} {d : Char} {t : Text} {ss : List Text}
    (h : Cuts c (p.step d) t ss) (hd : ¬(d = c.symbol ∧ p = start)) :
    Cuts c p (d :: t) (ss.modifyHead (d :: ·)) := by
  cases h with
  | last h => exact .last (h.cons hd)
  | next h hs ht => exact .next (s := d :: _) (h.cons hd) hs ht

private theorem piecesFrom_cons (c : Connective) (p : Standing) (d : Char) (t : Text) :
    piecesFrom c.symbol p.depth p.quoted (d :: t) =
      if d = c.symbol ∧ p = start then [] :: piecesFrom c.symbol 0 false t
      else (piecesFrom c.symbol (p.step d).depth (p.step d).quoted t).modifyHead (d :: ·) := by
  obtain ⟨hquote, hopen, hclose, _⟩ := @Connective.symbol_ne c
  obtain ⟨depth, quoted⟩ := p
  by_cases hd : d = c.symbol
  · subst hd
    rw [step_symbol, piecesFrom]
    cases quoted <;> by_cases hdepth : depth = 0 <;>
      simp [start, hquote, hopen, hclose, hdepth]
  · rw [piecesFrom, step]
    cases quoted <;> simp only [hd, false_and, if_false] <;> split_ifs <;> simp_all

theorem cuts_piecesFrom (c : Connective) (p : Standing) (t : Text) :
    Cuts c p t (piecesFrom c.symbol p.depth p.quoted t) := by
  induction t generalizing p with
  | nil => exact .last fun offset => rfl
  | cons d t ih =>
    rw [piecesFrom_cons]
    split_ifs with hd
    · obtain ⟨rfl, rfl⟩ := hd
      exact .next (s := []) (fun offset => rfl) rfl (ih start)
    · exact (ih (p.step d)).cons hd

theorem cuts_cut (c : Connective) (t : Text) : Cuts c start t (cut t (splitPoints c t)) := by
  rw [cut_splitPoints]
  exact cuts_piecesFrom c start t

def beginnings (c : Connective) (offset : Nat) : List Text → List Nat
  | [] => []
  | s :: ss => offset :: beginnings c (offset + byteSize s + c.symbol.utf8Size) ss

section

variable {c : Connective} {p : Standing} {t : Text} {ss : List Text}

theorem Cuts.ne_nil (h : Cuts c p t ss) : ss ≠ [] := by
  cases h <;> simp

theorem Cuts.intercalate_eq (h : Cuts c p t ss) : [c.symbol].intercalate ss = t := by
  induction h with
  | last h => simp
  | @next p s t ss h hs ht ih =>
    obtain ⟨s', ss', rfl⟩ := List.exists_cons_of_ne_nil ht.ne_nil
    rw [List.intercalate_cons_cons, ih]
    simp

theorem Cuts.whole (h : Cuts c p t ss) (hp : p = start) : ∀ s ∈ ss, Whole c start s := by
  induction h with
  | last h =>
    subst hp
    simpa using h
  | next h hs ht ih =>
    subst hp
    exact List.forall_mem_cons.mpr ⟨h, ih rfl⟩

theorem Cuts.beginnings_eq (h : Cuts c p t ss) (offset : Nat) :
    beginnings c offset ss =
      offset ::
        ((places p offset t).filter (Place.splits c)).map (·.offset + c.symbol.utf8Size) := by
  induction h generalizing offset with
  | last h => simp [beginnings, h offset]
  | @next p s t ss h hs ht ih =>
    have hsplit : Place.splits c ⟨offset + byteSize s, c.symbol, start⟩ = true := by
      simp [Place.splits]
    rw [beginnings, ih, places_append, hs, places, step_symbol, List.filter_append, h offset,
      List.nil_append, List.filter_cons, if_pos hsplit, List.map_cons]

/-- What another connective splits is split in the segments, each of which is scanned afresh. -/
theorem Cuts.places_eq {d : Connective} (hd : c.symbol ≠ d.symbol) (h : Cuts c p t ss)
    (hp : p = start) (offset : Nat) :
    (places p offset t).filter (Place.splits d) =
      ((beginnings c offset ss).zip ss).flatMap fun (begin, s) =>
        (places start begin s).filter (Place.splits d) := by
  induction h generalizing offset with
  | last h =>
    subst hp
    simp [beginnings]
  | @next p s t ss h hs ht ih =>
    subst hp
    have hnone : Place.splits d ⟨offset + byteSize s, c.symbol, start⟩ = false := by
      simp [Place.splits, hd]
    rw [beginnings, List.zip_cons_cons, List.flatMap_cons, ← ih rfl, places_append, hs, places,
      step_symbol, List.filter_append, List.filter_cons, hnone, if_neg Bool.false_ne_true]

end

/-- Splitting a text at a connective is lossless and complete, whether or not its brackets and
quotes are in balance. The offsets increase, the segments lie between them and give back the text
with the symbol put in again, no segment can be split any further, and the offsets of every other
connective are those that are found in the segments, counted from where each of them begins. -/
theorem segments_of_cut (c : Connective) (t : Text) :
    (splitPoints c t).Pairwise (· < ·) ∧
      (cut t (splitPoints c t)).length = (splitPoints c t).length + 1 ∧
      [c.symbol].intercalate (cut t (splitPoints c t)) = t ∧
      (∀ s ∈ cut t (splitPoints c t), splitPoints c s = []) ∧
      beginnings c 0 (cut t (splitPoints c t)) =
        0 :: (splitPoints c t).map (· + c.symbol.utf8Size) ∧
      ∀ d : Connective, d.isKnown = true → d ≠ c →
        splitPoints d t =
          ((beginnings c 0 (cut t (splitPoints c t))).zip (cut t (splitPoints c t))).flatMap
            fun (begin, s) => (splitPoints d s).map (begin + ·) := by
  have hcuts := cuts_cut c t
  have hbeginnings : beginnings c 0 (cut t (splitPoints c t)) =
      0 :: (splitPoints c t).map (· + c.symbol.utf8Size) := by
    rw [hcuts.beginnings_eq 0, splitPoints_eq, List.map_map]
    rfl
  refine ⟨?_, ?_, hcuts.intercalate_eq, ?_, hbeginnings, ?_⟩
  · rw [splitPoints_eq]
    exact ((increasing_places start 0 t).filter _).map _ fun _ _ h => h
  · rw [cut_splitPoints]
    exact length_piecesFrom c.symbol 0 0 false t
  · intro s hs
    rw [splitPoints_eq, hcuts.whole rfl s hs 0]
    rfl
  · intro d hd hne
    have hplaces := hcuts.places_eq (Connective.symbol_ne_symbol hd hne) rfl 0
    rw [splitPoints_eq, hplaces, List.map_flatMap]
    simp only [map_offset_places]

theorem segments_of_cut_unbalanced :
    (.and : Connective).isKnown = true ∧ (.and : Connective) ≠ .or ∧
      (let t : Text := "é\uE002x\uE000y\uE002)\uE000\uE002(\uE002\"z\uE002".toList
      splitPoints .or t = [2, 10, 21] ∧
        splitPoints .and t =
          ((beginnings .or 0 (cut t (splitPoints .or t))).zip (cut t (splitPoints .or t))).flatMap
            fun (begin, s) => (splitPoints .and s).map (begin + ·)) := by
  refine ⟨rfl, by decide, by decide +kernel, ?_⟩
  exact (segments_of_cut .or _).2.2.2.2.2 .and rfl (by decide)

end BooleanSearch.Segment
