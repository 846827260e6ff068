import BooleanSearch.Proofs.EscapedText

/-!
# Reading written values

A written value is read back, whatever follows it, if its nesting stays within the levels that are
left; if not, reading fails. This is said once for each part of a reader: what it gives, and the
condition under which it gives anything.
-/

namespace BooleanSearch.Json

mutual

/-- How deep values are nested in a value, itself included. -/
def nesting : Json → Nat
  | null => 1
  | bool _ => 1
  | number _ => 1
  | string _ => 1
  | array items => nestingItems items + 1
  | object members => nestingMembers members + 1

def nestingItems : List Json → Nat
  | [] => 0
  | v :: rest => max (nesting v) (nestingItems rest)

def nestingMembers : List (RawText × Json) → Nat
  | [] => 0
  | (_, v) :: rest => max (nesting v) (nestingMembers rest)

end

/-- Tells that a value has no numbers, and that its strings and keys end where they are closed. -/
inductive Sound : Json → Prop where
  | null : Sound null
  | bool (b : Bool) : Sound (bool b)
  | string (written : RawText) (h : Closed written) : Sound (string written)
  | array (items : List Json) (h : ∀ v ∈ items, Sound v) : Sound (array items)
  | object (members : List (RawText × Json)) (hk : ∀ m ∈ members, Closed m.1)
    (hv : ∀ m ∈ members, Sound m.2) : Sound (object members)

theorem nestingItems_le_iff {items : List Json} {n : Nat} :
    nestingItems items ≤ n ↔ ∀ v ∈ items, nesting v ≤ n := by
  induction items with
  | nil => simp [nestingItems]
  | cons v items ih => rw [nestingItems, Nat.max_le, ih, List.forall_mem_cons]

theorem nestingMembers_le_iff {members : List (RawText × Json)} {n : Nat} :
    nestingMembers members ≤ n ↔ ∀ m ∈ members, nesting m.2 ≤ n := by
  induction members with
  | nil => simp [nestingMembers]
  | cons m members ih => rw [nestingMembers, Nat.max_le, ih, List.forall_mem_cons]

private theorem nesting_pos (v : Json) : 0 < nesting v := by
  cases v <;> simp [nesting]

/-! ### Written values -/

private theorem Sound.write_eq_cons {v : Json} (h : Sound v) :
    ∃ c cs, write v = c :: cs ∧ isBlankPiece c = false ∧ c ≠ .char ']' := by
  cases h with
  | null => exact ⟨.char 'n', _, rfl, by decide, by decide⟩
  | bool b =>
    cases b with
    | true => exact ⟨.char 't', _, rfl, by decide, by decide⟩
    | false => exact ⟨.char 'f', _, rfl, by decide, by decide⟩
  | string written _ => exact ⟨.char '"', _, rfl, by decide, by decide⟩
  | array items _ => exact ⟨.char '[', _, rfl, by decide, by decide⟩
  | object members _ _ => exact ⟨.char '{', _, rfl, by decide, by decide⟩

private theorem Sound.skipBlanks_write {v : Json} (h : Sound v) (rest : RawText) :
    skipBlanks (write v ++ rest) = write v ++ rest := by
  obtain ⟨c, cs, hw, hc, _⟩ := h.write_eq_cons
  rw [hw, List.cons_append, skipBlanks, List.dropWhile_cons_of_neg (by simp [hc])]

private theorem length_write_le_writeItems {items : List Json} {v : Json} (h : v ∈ items) :
    (write v).length ≤ (writeItems items).length := by
  induction items with
  | nil => cases h
  | cons w items ih =>
    cases items with
    | nil =>
      obtain rfl := List.mem_singleton.mp h
      exact Nat.le_refl _
    | cons x items =>
      rw [writeItems, List.length_append, List.length_cons]
      rcases List.mem_cons.mp h with rfl | h
      · omega
      · have := ih h
        omega

private theorem length_write_le_writeMembers {members : List (RawText × Json)} {m : RawText × Json}
    (h : m ∈ members) : (write m.2).length ≤ (writeMembers members).length := by
  induction members with
  | nil => cases h
  | cons p members ih =>
    cases members with
    | nil =>
      obtain rfl := List.mem_singleton.mp h
      simp only [writeMembers, List.length_cons, List.length_append]
      omega
    | cons q members =>
      simp only [writeMembers, List.length_cons, List.length_append]
      rcases List.mem_cons.mp h with rfl | h
      · omega
      · have := ih h
        omega

/-! ### Readings with a condition -/

private def Gives {α : Type} (x : Reading α) (p : Prop) (r : α × RawText) : Prop :=
  p ∧ x = .ok r ∨ ¬p ∧ ∃ f, x = .error f

section

variable {α β : Type} {p q : Prop}

private theorem gives_ok (r : α × RawText) : Gives (.ok r) True r := Or.inl ⟨trivial, rfl⟩

private theorem Gives.congr {x : Reading α} {r : α × RawText} (h : Gives x p r) (hpq : p ↔ q) :
    Gives x q r := by
  rwa [Gives, ← hpq]

private theorem Gives.within {x : Reading α} {r : α × RawText} (h : Gives x p r) (place : Place) :
    Gives (within place x) p r := by
  rcases h with ⟨hp, rfl⟩ | ⟨hp, f, rfl⟩
  · exact Or.inl ⟨hp, rfl⟩
  · exact Or.inr ⟨hp, _, rfl⟩

private theorem Gives.map {x : Reading α} {r : α × RawText} (h : Gives x p r)
    (g : α × RawText → β × RawText) :
    Gives (x.map g) p (g r) := by
  rcases h with ⟨hp, rfl⟩ | ⟨hp, f, rfl⟩
  · exact Or.inl ⟨hp, rfl⟩
  · exact Or.inr ⟨hp, _, rfl⟩

private theorem Gives.bind {x : Reading α} {r : α × RawText} {g : α × RawText → Reading β}
    {s : β × RawText}
    (h : Gives x p r) (hg : Gives (g r) q s) : Gives (x.bind g) (p ∧ q) s := by
  rcases h with ⟨hp, rfl⟩ | ⟨hp, f, rfl⟩
  · exact hg.congr (by simp [hp])
  · exact Or.inr ⟨fun hpq => hp hpq.1, f, rfl⟩

end

/-! ### Reading -/

private theorem gives_readItems {value : RawText → Reading Json} {fits : Json → Prop}
    {items : List Json} {count : Nat} (hne : items ≠ []) (hs : ∀ v ∈ items, Sound v)
    (hv : ∀ v ∈ items, ∀ rest, Gives (value (write v ++ rest)) (fits v) (v, rest))
    (hc : (writeItems items).length ≤ count) (rest : RawText) :
    Gives (readItems value count (writeItems items ++ .char ']' :: rest)) (∀ v ∈ items, fits v)
      (items, rest) := by
  induction items generalizing count with
  | nil => exact absurd rfl hne
  | cons v items ih =>
    rw [List.forall_mem_cons] at hs hv
    rw [List.forall_mem_cons]
    cases items with
    | nil =>
      cases count with
      | zero =>
        obtain ⟨c, cs, hw, _, _⟩ := hs.1.write_eq_cons
        simp [writeItems, hw] at hc
      | succ count =>
        rw [writeItems, readItems, hs.1.skipBlanks_write]
        apply ((hv.1 _).within .arrayValue).bind
        exact (gives_ok ([v], rest)).congr (by simp)
    | cons w items =>
      rw [writeItems, List.length_append, List.length_cons] at hc
      cases count with
      | zero => omega
      | succ count =>
        rw [writeItems, readItems, List.append_assoc, List.cons_append, hs.1.skipBlanks_write]
        apply ((hv.1 _).within .arrayValue).bind
        have hrest := ih (List.cons_ne_nil w items) hs.2 hv.2 (by omega : _ ≤ count)
        exact hrest.map fun r => (v :: r.1, r.2)

private theorem readKey_quoted {key : RawText} (h : Closed key) (rest : RawText) :
    readKey (.char '"' :: (key ++ .char '"' :: .char ':' :: rest)) = .ok (key, rest) := by
  have hk : readRaw (key ++ .char '"' :: .char ':' :: rest) = .ok (key, .char ':' :: rest) := by
    rw [readRaw, h]
  change (within .objectKey (readRaw _)).bind _ = _
  rw [hk]
  rfl

private theorem gives_readMembers {value : RawText → Reading Json} {fits : Json → Prop}
    {members : List (RawText × Json)} {count : Nat} (hne : members ≠ [])
    (hk : ∀ m ∈ members, Closed m.1) (hs : ∀ m ∈ members, Sound m.2)
    (hv : ∀ m ∈ members, ∀ rest, Gives (value (write m.2 ++ rest)) (fits m.2) (m.2, rest))
    (hc : (writeMembers members).length ≤ count) (rest : RawText) :
    Gives (readMembers value count (writeMembers members ++ .char '}' :: rest))
      (∀ m ∈ members, fits m.2) (members, rest) := by
  induction members generalizing count with
  | nil => exact absurd rfl hne
  | cons m members ih =>
    obtain ⟨key, v⟩ := m
    rw [List.forall_mem_cons] at hk hs hv
    rw [List.forall_mem_cons]
    cases count with
    | zero => cases members <;> simp [writeMembers] at hc
    | succ count =>
      cases members with
      | nil =>
        simp only [writeMembers, List.cons_append, List.append_assoc]
        rw [readMembers, readKey_quoted hk.1]
        change Gives ((within .objectValue (value (skipBlanks _))).bind _) _ _
        rw [hs.1.skipBlanks_write]
        apply ((hv.1 _).within .objectValue).bind
        exact (gives_ok ([(key, v)], rest)).congr (by simp)
      | cons n members =>
        simp only [writeMembers, List.cons_append, List.append_assoc, List.length_cons,
          List.length_append] at hc ⊢
        rw [readMembers, readKey_quoted hk.1]
        change Gives ((within .objectValue (value (skipBlanks _))).bind _) _ _
        rw [hs.1.skipBlanks_write]
        apply ((hv.1 _).within .objectValue).bind
        have hrest := ih (List.cons_ne_nil n members) hk.2 hs.2 hv.2 (by omega : _ ≤ count)
        exact hrest.map fun r => ((key, v) :: r.1, r.2)

private theorem gives_readArray {value : RawText → Reading Json} (fits : Json → Prop)
    {items : List Json} {count : Nat} (hs : ∀ v ∈ items, Sound v)
    (hv : ∀ v ∈ items, ∀ rest, Gives (value (write v ++ rest)) (fits v) (v, rest))
    (hc : (writeItems items).length ≤ count) (rest : RawText) :
    Gives (readArray value count (writeItems items ++ .char ']' :: rest)) (∀ v ∈ items, fits v)
      (.array items, rest) := by
  cases items with
  | nil => exact (gives_ok (array [], rest)).congr (by simp)
  | cons v items =>
    have hitems := gives_readItems (List.cons_ne_nil v items) hs hv hc rest
    obtain ⟨c, cs, hw, hblank, hend⟩ : ∃ c cs, writeItems (v :: items) = c :: cs ∧
        isBlankPiece c = false ∧ c ≠ .char ']' := by
      obtain ⟨c, cs, hw, h⟩ := (hs v (List.mem_cons_self ..)).write_eq_cons
      cases items with
      | nil => exact ⟨c, cs, hw, h⟩
      | cons w items => exact ⟨c, _, by rw [writeItems, hw, List.cons_append], h⟩
    rw [hw, List.cons_append] at hitems ⊢
    rw [readArray, skipBlanks, List.dropWhile_cons_of_neg (by simp [hblank])]
    simp only [hend, if_false]
    exact hitems.map fun r => (array r.1, r.2)

private theorem gives_readObject {value : RawText → Reading Json} (fits : Json → Prop)
    {members : List (RawText × Json)} {count : Nat} (hk : ∀ m ∈ members, Closed m.1)
    (hs : ∀ m ∈ members, Sound m.2)
    (hv : ∀ m ∈ members, ∀ rest, Gives (value (write m.2 ++ rest)) (fits m.2) (m.2, rest))
    (hc : (writeMembers members).length ≤ count) (rest : RawText) :
    Gives (readObject value count (writeMembers members ++ .char '}' :: rest))
      (∀ m ∈ members, fits m.2) (.object members, rest) := by
  cases members with
  | nil => exact (gives_ok (object [], rest)).congr (by simp)
  | cons m members =>
    have hmembers := gives_readMembers (List.cons_ne_nil m members) hk hs hv hc rest
    obtain ⟨cs, hw⟩ : ∃ cs, writeMembers (m :: members) = .char '"' :: cs := by
      cases members with
      | nil => exact ⟨_, rfl⟩
      | cons n members => exact ⟨_, rfl⟩
    rw [hw, List.cons_append] at hmembers ⊢
    exact hmembers.map fun r => (object r.1, r.2)

private theorem readWord_append (word : String) (v : Json) (rest : RawText) :
    readWord word v (raw word ++ rest) = .ok (v, rest) := by
  rw [readWord, if_pos (List.isPrefixOf_iff_prefix.mpr (List.prefix_append _ _)),
    List.drop_left]

private theorem gives_readValue (count levels : Nat) {v : Json} (hs : Sound v)
    (hc : (write v).length ≤ count) (rest : RawText) :
    Gives (readValue count levels (write v ++ rest)) (nesting v ≤ levels) (v, rest) := by
  -- the reader recurs on the levels, and its lists take the values below as a hypothesis
  induction levels generalizing v rest with
  | zero =>
    obtain ⟨c, cs, hw, _, _⟩ := hs.write_eq_cons
    rw [hw]
    exact Or.inr ⟨Nat.not_le.mpr (nesting_pos v), _, rfl⟩
  | succ levels ih =>
    cases hs with
    | null => exact Or.inl ⟨by simp [nesting], readWord_append "null" null rest⟩
    | bool b =>
      refine Or.inl ⟨by simp [nesting], ?_⟩
      cases b with
      | true => exact readWord_append "true" (bool true) rest
      | false => exact readWord_append "false" (bool false) rest
    | string written h =>
      refine Or.inl ⟨by simp [nesting], ?_⟩
      rw [write, List.cons_append, List.append_assoc]
      change within .string ((readRaw (written ++ .char '"' :: rest)).map _) = _
      rw [readRaw, h rest]
      rfl
    | array items h =>
      rw [write, List.length_cons, List.length_append] at hc
      rw [write, List.cons_append, List.append_assoc]
      have hv : ∀ v ∈ items, ∀ rest,
          Gives (readValue count levels (write v ++ rest)) (nesting v ≤ levels) (v, rest) := by
        intro v hv rest
        have hlen := length_write_le_writeItems hv
        exact ih (h v hv) (by omega) rest
      have hitems := gives_readArray (nesting · ≤ levels) h hv (by omega : _ ≤ count) rest
      apply (hitems.within .array).congr
      rw [nesting, Nat.add_le_add_iff_right, nestingItems_le_iff]
    | object members hk h =>
      rw [write, List.length_cons, List.length_append] at hc
      rw [write, List.cons_append, List.append_assoc]
      have hv : ∀ m ∈ members, ∀ rest,
          Gives (readValue count levels (write m.2 ++ rest)) (nesting m.2 ≤ levels)
            (m.2, rest) := by
        intro m hm rest
        have hlen := length_write_le_writeMembers hm
        exact ih (h m hm) (by omega) rest
      have hmembers := gives_readObject (nesting · ≤ levels) hk h hv
        (by omega : _ ≤ count) rest
      apply (hmembers.within .object).congr
      rw [nesting, Nat.add_le_add_iff_right, nestingMembers_le_iff]

/-- A written value is read back unless it is nested too deep, in which case reading it fails. -/
theorem read_write_eq_ok_iff {v w : Json} (hs : Sound v) :
    read (write v) = .ok w ↔ nesting v ≤ maxDepth ∧ v = w := by
  have hskip := hs.skipBlanks_write []
  have hv := gives_readValue ((write v).length + 1) maxDepth hs (Nat.le_succ _) []
  rw [List.append_nil] at hskip hv
  rw [read, hskip]
  rcases hv with ⟨hn, he⟩ | ⟨hn, f, he⟩
  · rw [he]
    simp [skipBlanks, hn]
  · rw [he]
    simp [hn]

end BooleanSearch.Json
