import BooleanSearch.Filter.Printer
import BooleanSearch.Proofs.ByteOrder
import BooleanSearch.Proofs.FilterMeaning
import Mathlib.Data.List.Sort

/-!
# Sorted documents

The entries of a document have no order of their own, so a filter can be listed in many ways. Sorted
by name at every level it is listed in one way only, which has the same entries and the same arrays,
since no document in it names two entries alike.
-/

namespace BooleanSearch.Filter

open Text

mutual

/-- Tells that two values are the same but for the order in which the entries of their documents are
listed, at any level. -/
inductive Reordered : Value → Value → Prop where
  | text (t : Text) : Reordered (.text t) (.text t)
  | bool (b : Bool) : Reordered (.bool b) (.bool b)
  | number (x : Binary64) : Reordered (.number x) (.number x)
  | date (i : Instant) : Reordered (.date i) (.date i)
  | document {es fs gs : Document} (hlisted : es.Perm fs) (hentries : ReorderedEntries fs gs) :
      Reordered (.document es) (.document gs)
  | array {xs ys : List Value} (hitems : ReorderedItems xs ys) : Reordered (.array xs) (.array ys)

inductive ReorderedEntries : Document → Document → Prop where
  | nil : ReorderedEntries [] []
  | cons {key : Text} {x y : Value} {es fs : Document} (hvalue : Reordered x y)
      (hrest : ReorderedEntries es fs) : ReorderedEntries ((key, x) :: es) ((key, y) :: fs)

inductive ReorderedItems : List Value → List Value → Prop where
  | nil : ReorderedItems [] []
  | cons {x y : Value} {xs ys : List Value} (hitem : Reordered x y)
      (hrest : ReorderedItems xs ys) : ReorderedItems (x :: xs) (y :: ys)

end

/-- Tells that the names in every document of a value increase by their bytes. -/
inductive Increasing : Value → Prop where
  | text (t : Text) : Increasing (.text t)
  | bool (b : Bool) : Increasing (.bool b)
  | number (x : Binary64) : Increasing (.number x)
  | date (i : Instant) : Increasing (.date i)
  | document {es : Document} (hkeys : es.Pairwise fun e f => e.1.bytes < f.1.bytes)
      (hvalues : ∀ e ∈ es, Increasing e.2) : Increasing (.document es)
  | array {xs : List Value} (hitems : ∀ x ∈ xs, Increasing x) : Increasing (.array xs)

/-! ### Sorting one document -/

private def NameLE (e f : Text × Value) : Prop := Text.le e.1 f.1 = true

private instance : DecidableRel NameLE := fun e f =>
  inferInstanceAs (Decidable (Text.le e.1 f.1 = true))

private instance : Std.Total NameLE where
  total e f := by
    rw [NameLE, NameLE, le_iff, le_iff]
    exact le_total e.1 f.1

private instance : IsTrans (Text × Value) NameLE where
  trans e f g hef hfg := by
    rw [NameLE, le_iff] at hef hfg ⊢
    exact le_trans hef hfg

private theorem sortEntries_eq (d : Document) : sortEntries d = d.insertionSort NameLE := by
  have hinsert (e : Text × Value) (d : Document) : insertEntry e d = d.orderedInsert NameLE e := by
    induction d with
    | nil => rfl
    | cons f rest ih =>
      rw [insertEntry, List.orderedInsert_cons, ih]
      rfl
  induction d with
  | nil => rfl
  | cons e d ih => rw [sortEntries, List.foldr_cons, ← sortEntries, ih, hinsert]; rfl

private theorem sortEntries_perm (d : Document) : (sortEntries d).Perm d := by
  rw [sortEntries_eq]
  exact List.perm_insertionSort NameLE d

private theorem sortEntries_increasing {d : Document} (h : (d.map Prod.fst).Nodup) :
    (sortEntries d).Pairwise fun e f => e.1 < f.1 := by
  have hsorted : (sortEntries d).Pairwise NameLE := by
    rw [sortEntries_eq]
    exact List.pairwise_insertionSort NameLE d
  have hdistinct : (sortEntries d).Pairwise fun e f => e.1 ≠ f.1 :=
    List.pairwise_map.mp (((sortEntries_perm d).map Prod.fst).nodup_iff.mpr h)
  exact hsorted.imp₂ (fun e f hle hne => lt_of_le_of_ne (le_iff.mp hle) hne) hdistinct

/-- Entries with distinct names are sorted into one order, in whatever order they are listed. -/
private theorem sortEntries_eq_of_perm {d e : Document} (hperm : d.Perm e)
    (h : (d.map Prod.fst).Nodup) : sortEntries d = sortEntries e := by
  apply List.Perm.eq_of_pairwise _ (sortEntries_increasing h)
    (sortEntries_increasing ((hperm.map Prod.fst).nodup_iff.mp h))
  · exact (sortEntries_perm d).trans (hperm.trans (sortEntries_perm e).symm)
  · intro f g _ _ hlt hgt
    exact absurd hgt hlt.asymm

/-! ### Entries that are sorted inside -/

private def sortedEntry (e : Text × Value) : Text × Value := (e.1, e.2.sorted)

private theorem sortedEntries_eq_map (d : Document) : sortedEntries d = d.map sortedEntry := by
  induction d with
  | nil => rfl
  | cons e d ih => rw [sortedEntries, ih, List.map_cons]; rfl

private theorem map_fst_sortedEntries (d : Document) :
    (sortedEntries d).map Prod.fst = d.map Prod.fst := by
  rw [sortedEntries_eq_map, List.map_map]
  rfl

private theorem sortEntries_map (d : Document) :
    sortEntries (d.map sortedEntry) = (sortEntries d).map sortedEntry := by
  have hinsert (e : Text × Value) (d : Document) :
      insertEntry (sortedEntry e) (d.map sortedEntry) = (insertEntry e d).map sortedEntry := by
    induction d with
    | nil => rfl
    | cons f d ih =>
      rw [List.map_cons, insertEntry, insertEntry, ih]
      change (if Text.le e.1 f.1 then _ else _) = _
      split_ifs <;> rfl
  induction d with
  | nil => rfl
  | cons e d ih =>
    rw [List.map_cons, sortEntries, List.foldr_cons, ← sortEntries, ih, hinsert]
    rfl

private theorem distinctEntries_iff {d : Document} :
    DistinctEntries d ↔ ∀ e ∈ d, e.2.Distinct := by
  induction d with
  | nil => simp [DistinctEntries]
  | cons e d ih => rw [DistinctEntries, ih, List.forall_mem_cons]

/-! ### Values -/

mutual

private theorem sorted_eq_of_reordered : ∀ {x y : Value}, Reordered x y → x.Distinct →
    x.sorted = y.sorted
  | _, _, .text _, _ => rfl
  | _, _, .bool _, _ => rfl
  | _, _, .number _, _ => rfl
  | _, _, .date _, _ => rfl
  | _, _, @Reordered.document es fs gs hlisted hentries, h => by
    obtain ⟨hkeys, hvalues⟩ := h
    have hfs : DistinctEntries fs := by
      rw [distinctEntries_iff] at hvalues ⊢
      exact fun e he => hvalues e (hlisted.mem_iff.mpr he)
    have hperm : (sortedEntries es).Perm (sortedEntries fs) := by
      rw [sortedEntries_eq_map, sortedEntries_eq_map]
      exact hlisted.map sortedEntry
    -- what differs inside the entries goes first, since it leaves the names in their places
    rw [Value.sorted, Value.sorted, ← sortedEntries_eq_of_reordered hentries hfs,
      sortEntries_eq_of_perm hperm (by rwa [map_fst_sortedEntries])]
  | _, _, .array hitems, h => by
    rw [Value.sorted, Value.sorted, sortedItems_eq_of_reordered hitems h]

private theorem sortedEntries_eq_of_reordered : ∀ {es fs : Document}, ReorderedEntries es fs →
    DistinctEntries es → sortedEntries es = sortedEntries fs
  | _, _, .nil, _ => rfl
  | _, _, .cons hvalue hrest, ⟨hx, hes⟩ => by
    rw [sortedEntries, sortedEntries, sorted_eq_of_reordered hvalue hx,
      sortedEntries_eq_of_reordered hrest hes]

private theorem sortedItems_eq_of_reordered : ∀ {xs ys : List Value}, ReorderedItems xs ys →
    DistinctItems xs → sortedItems xs = sortedItems ys
  | _, _, .nil, _ => rfl
  | _, _, .cons hitem hrest, ⟨hx, hxs⟩ => by
    rw [sortedItems, sortedItems, sorted_eq_of_reordered hitem hx,
      sortedItems_eq_of_reordered hrest hxs]

end

private theorem reorderedEntries_map {d : Document} (h : ∀ e ∈ d, Reordered e.2 e.2.sorted) :
    ReorderedEntries d (d.map sortedEntry) := by
  induction d with
  | nil => exact .nil
  | cons e d ih =>
    rw [List.forall_mem_cons] at h
    exact .cons h.1 (ih h.2)

mutual

private theorem reordered_sorted : ∀ x : Value, Reordered x x.sorted
  | .text t => .text t
  | .bool b => .bool b
  | .number x => .number x
  | .date i => .date i
  | .document es => by
    rw [Value.sorted, sortedEntries_eq_map, sortEntries_map]
    refine .document (sortEntries_perm es).symm (reorderedEntries_map ?_)
    exact fun e he => reordered_sorted_of_mem es e ((sortEntries_perm es).mem_iff.mp he)
  | .array xs => .array (reordered_sortedItems xs)

private theorem reordered_sorted_of_mem : ∀ (es : Document), ∀ e ∈ es, Reordered e.2 e.2.sorted
  | (key, x) :: es, e, he => by
    rcases List.mem_cons.mp he with rfl | he
    · exact reordered_sorted x
    · exact reordered_sorted_of_mem es e he

private theorem reordered_sortedItems : ∀ xs : List Value, ReorderedItems xs (sortedItems xs)
  | [] => .nil
  | x :: xs => .cons (reordered_sorted x) (reordered_sortedItems xs)

end

mutual

private theorem increasing_sorted : ∀ x : Value, x.Distinct → Increasing x.sorted
  | .text t, _ => .text t
  | .bool b, _ => .bool b
  | .number x, _ => .number x
  | .date i, _ => .date i
  | .document es, ⟨hkeys, hvalues⟩ => by
    have hsorted : (sortEntries (sortedEntries es)).Pairwise fun e f => e.1 < f.1 :=
      sortEntries_increasing (by rwa [map_fst_sortedEntries])
    refine .document (hsorted.imp bytes_lt) fun e he => ?_
    exact increasing_of_mem_sortedEntries es hvalues e ((sortEntries_perm _).mem_iff.mp he)
  | .array xs, h => .array (increasing_of_mem_sortedItems xs h)

private theorem increasing_of_mem_sortedEntries : ∀ es : Document, DistinctEntries es →
    ∀ e ∈ sortedEntries es, Increasing e.2
  | [], _, e, he => by cases he
  | (key, x) :: es, ⟨hx, hes⟩, e, he => by
    rcases List.mem_cons.mp he with rfl | he
    · exact increasing_sorted x hx
    · exact increasing_of_mem_sortedEntries es hes e he

private theorem increasing_of_mem_sortedItems : ∀ xs : List Value, DistinctItems xs →
    ∀ x ∈ sortedItems xs, Increasing x
  | [], _, x, hx => by cases hx
  | y :: ys, ⟨hy, hys⟩, x, hx => by
    rcases List.mem_cons.mp hx with rfl | hx
    · exact increasing_sorted y hy
    · exact increasing_of_mem_sortedItems ys hys x hx

end

/-- In whatever orders the entries in the filter of a tree are listed, at any level, sorting makes
the same of them: a value with the same entries and the same arrays, in which the names in every
document increase by their bytes. It is what the filter is written as. -/
theorem sorted_of_reordered {fields : List Text} {n : Node} {d : Document}
    (h : ofTree fields n = .ok d) {x y : Value} (hx : Reordered (.document d) x)
    (hy : Reordered (.document d) y) :
    x.sorted = y.sorted ∧ Increasing x.sorted ∧ Reordered (.document d) x.sorted ∧
      write fields n = .ok x.sorted.write := by
  have hd := distinct_of_ofTree h
  have hsame {z : Value} (hz : Reordered (.document d) z) :
      z.sorted = (Value.document d).sorted := (sorted_eq_of_reordered hz hd).symm
  rw [hsame hx, hsame hy]
  refine ⟨rfl, increasing_sorted _ hd, reordered_sorted _, ?_⟩
  rw [write, h]
  rfl

theorem sorted_of_reordered_nested :
    ∃ d x, ofTree ["c".toList] (.group .or [.group .and [.leaf ⟨"b".toList, "y".toList, true⟩,
          .leaf ⟨[], "w".toList, true⟩], .leaf ⟨"a".toList, "x".toList, true⟩]) = .ok d ∧
      x = Value.document (operator "$or"
        [[("c".toList, .document [("$options".toList, .text ['i']),
            ("$regex".toList, .text "^w$".toList)]), ("b".toList, .text "y".toList)],
          single "a".toList (.text "x".toList)]) ∧
      Reordered (.document d) x ∧ x.sorted = (Value.document d).sorted.sorted ∧
      Increasing x.sorted := by
  have hd : ofTree ["c".toList] (.group .or [.group .and [.leaf ⟨"b".toList, "y".toList, true⟩,
        .leaf ⟨[], "w".toList, true⟩], .leaf ⟨"a".toList, "x".toList, true⟩]) =
      .ok (operator "$or" [[("b".toList, .text "y".toList),
          ("c".toList, caselessValue "^w$".toList)], single "a".toList (.text "x".toList)]) :=
    rfl
  have hcaseless : Reordered (caselessValue "^w$".toList)
      (.document [("$options".toList, .text ['i']), ("$regex".toList, .text "^w$".toList)]) :=
    .document (.swap _ _ []) (.cons (.text _) (.cons (.text _) .nil))
  have hmerged : Reordered (.document [("b".toList, .text "y".toList),
        ("c".toList, caselessValue "^w$".toList)])
      (.document [("c".toList, .document [("$options".toList, .text ['i']),
        ("$regex".toList, .text "^w$".toList)]), ("b".toList, .text "y".toList)]) :=
    .document (.swap _ _ []) (.cons hcaseless (.cons (.text _) .nil))
  have hx := Reordered.document (.refl _) (@ReorderedEntries.cons "$or".toList _ _ _ _
    (.array (.cons hmerged (.cons (reordered_sorted (.document (single "a".toList
      (.text "x".toList)))) .nil))) .nil)
  obtain ⟨hsame, hincreasing, _, _⟩ := sorted_of_reordered hd hx (reordered_sorted _)
  exact ⟨_, _, hd, rfl, hx, hsame, hincreasing⟩

end BooleanSearch.Filter
