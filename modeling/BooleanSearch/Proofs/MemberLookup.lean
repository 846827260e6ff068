import BooleanSearch.Json.Members
import Mathlib.Data.List.Basic

/-!
# One lookup after another

A lookup that finds nothing undoes the escapes of all keys for good, so that what is found later
might depend on what was looked up before. Two facts keep this in hand. The same lookup finds the
same again. And a member whose key is that of no other member, once escapes are undone, is found
whatever was looked up before.
-/

namespace BooleanSearch.Json

namespace Members

variable {α : Type}

def values (m : Members α) : List α := m.entries.map Prod.snd

theorem values_unescapeKeys (m : Members α) : m.unescapeKeys.values = m.values := by
  rw [unescapeKeys]
  split_ifs
  · rfl
  · simp [values, Function.comp_def]

private theorem unescapeKeys_unescapeKeys (m : Members α) :
    m.unescapeKeys.unescapeKeys = m.unescapeKeys := by
  have hdone : m.unescapeKeys.unescaped = true := by
    rw [unescapeKeys]
    split_ifs with h
    · exact h
    · rfl
  rw [unescapeKeys.eq_def m.unescapeKeys, if_pos hdone]

private theorem get_of_some {m : Members α} {key : RawText} {v : α} (h : m.find? key = some v) :
    m.get key = (some v, m) := by
  rw [get, h]

private theorem get_of_none {m : Members α} {key : RawText} (h : m.find? key = none) :
    m.get key = (m.unescapeKeys.find? key, m.unescapeKeys) := by
  rw [get, h]

theorem values_get (m : Members α) (key : RawText) : (m.get key).2.values = m.values := by
  cases h : m.find? key with
  | some v => rw [get_of_some h]
  | none => rw [get_of_none h, values_unescapeKeys]

private theorem mem_values_of_find? {m : Members α} {key : RawText} {v : α}
    (h : m.find? key = some v) : v ∈ m.values := by
  obtain ⟨e, he, rfl⟩ := Option.map_eq_some_iff.mp h
  exact List.mem_map_of_mem (List.mem_of_find?_eq_some he)

theorem mem_values_of_get {m : Members α} {key : RawText} {v : α} (h : (m.get key).1 = some v) :
    v ∈ m.values := by
  cases hf : m.find? key with
  | some w =>
    rw [get_of_some hf] at h
    exact mem_values_of_find? (hf.trans h)
  | none =>
    rw [get_of_none hf] at h
    rw [← values_unescapeKeys]
    exact mem_values_of_find? h

theorem get_get (m : Members α) (key : RawText) : (m.get key).2.get key = m.get key := by
  cases h : m.find? key with
  | some v => rw [get_of_some h, get_of_some h]
  | none =>
    rw [get_of_none h]
    cases hu : m.unescapeKeys.find? key with
    | some v => rw [get_of_some hu]
    | none => rw [get_of_none hu, unescapeKeys_unescapeKeys, hu]

end Members

/-! ### Keys without escapes -/

variable {α : Type}

def memberAt? (key : RawText) (es : List (RawText × α)) : Option α :=
  (es.find? fun e => unescape e.1 == key).map Prod.snd

/-- Tells that no two members have a key once the escapes of all keys are undone. -/
def Once (key : RawText) (es : List (RawText × α)) : Prop :=
  es.countP (fun e => unescape e.1 == key) ≤ 1

/-- The members as they are before a lookup has failed, and after. -/
inductive Members.Of (es : List (RawText × α)) : Members α → Prop where
  | written : Of es ⟨es, false⟩
  | unescaped : Of es ⟨es.map fun e => (unescape e.1, e.2), true⟩

private theorem find?_of_countP {p : α → Bool} {xs : List α} (honce : xs.countP p ≤ 1) {x : α}
    (hmem : x ∈ xs) (hx : p x = true) : xs.find? p = some x := by
  induction xs with
  | nil => cases hmem
  | cons y ys ih =>
    by_cases hy : p y = true
    · rw [List.find?_cons_of_pos hy]
      rcases List.mem_cons.mp hmem with rfl | hmem
      · rfl
      · have hpos : 0 < ys.countP p := List.countP_pos_iff.mpr ⟨x, hmem, hx⟩
        rw [List.countP_cons_of_pos hy] at honce
        omega
    · rw [List.find?_cons_of_neg hy]
      rw [List.countP_cons_of_neg hy] at honce
      rcases List.mem_cons.mp hmem with rfl | hmem
      · exact absurd hx hy
      · exact ih honce hmem

theorem memberAt?_of_mem {key : RawText} {es : List (RawText × α)} (honce : Once key es)
    {e : RawText × α}
    (hmem : e ∈ es) (hkey : unescape e.1 = key) : memberAt? key es = some e.2 := by
  rw [memberAt?, find?_of_countP honce hmem (beq_iff_eq.mpr hkey)]
  rfl

theorem memberAt?_perm {key : RawText} {es fs : List (RawText × α)} (h : es.Perm fs)
    (honce : Once key es) : memberAt? key es = memberAt? key fs := by
  have honce' : Once key fs := by rwa [Once, ← h.countP_eq]
  cases hfind : es.find? fun e => unescape e.1 == key with
  | some e =>
    have hkey : unescape e.1 = key := by simpa using List.find?_some hfind
    have hmem : e ∈ es := List.mem_of_find?_eq_some hfind
    rw [memberAt?_of_mem honce hmem hkey, memberAt?_of_mem honce' (h.mem_iff.mp hmem) hkey]
  | none =>
    have hfind' : (fs.find? fun e => unescape e.1 == key) = none := by
      rw [List.find?_eq_none] at hfind ⊢
      exact fun e he => hfind e (h.mem_iff.mpr he)
    rw [memberAt?, memberAt?, hfind, hfind']

private theorem find?_written {es : List (RawText × α)} {key : RawText} (hkey : unescape key = key)
    (honce : Once key es) {v : α} (h : (Members.mk es false).find? key = some v) :
    memberAt? key es = some v := by
  obtain ⟨e, he, rfl⟩ := Option.map_eq_some_iff.mp h
  have hwritten : e.1 = key := by simpa using List.find?_some he
  exact memberAt?_of_mem honce (List.mem_of_find?_eq_some he) (by rw [hwritten, hkey])

private theorem find?_unescaped (es : List (RawText × α)) (key : RawText) :
    (Members.mk (es.map fun e => (unescape e.1, e.2)) true).find? key = memberAt? key es := by
  rw [Members.find?, memberAt?, List.find?_map, Option.map_map]
  rfl

/-- A key that is written without escapes, and that no two members have, is found at the member
that has it, before and after lookups that failed. -/
theorem Members.Of.get {es : List (RawText × α)} {m : Members α} (hm : Of es m) {key : RawText}
    (hkey : unescape key = key) (honce : Once key es) :
    (m.get key).1 = memberAt? key es ∧ Of es (m.get key).2 := by
  cases hm with
  | written =>
    cases h : (Members.mk es false).find? key with
    | some v =>
      rw [get_of_some h]
      exact ⟨(find?_written hkey honce h).symm, .written⟩
    | none =>
      rw [get_of_none h]
      exact ⟨find?_unescaped es key, .unescaped⟩
  | unescaped =>
    cases h : (Members.mk (es.map fun e => (unescape e.1, e.2)) true).find? key with
    | some v =>
      rw [get_of_some h, ← find?_unescaped, h]
      exact ⟨rfl, .unescaped⟩
    | none =>
      rw [get_of_none h]
      exact ⟨find?_unescaped es key, .unescaped⟩

end BooleanSearch.Json
