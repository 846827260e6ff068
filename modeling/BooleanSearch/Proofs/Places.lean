import BooleanSearch.Node.Traversal

/-!
# Places in a tree

Nodes are told apart by their places, so that equal nodes at different places count as different.
Places are ordered like the words of a dictionary: a node comes before the nodes below it, and these
come from left to right. Visits that leave out what lies below some of the visited nodes are put
together from the visits below each child.
-/

namespace BooleanSearch.Node

/-! ### Places -/

def at? : Node → List Nat → Option Node
  | n, [] => some n
  | group _ xs, i :: place => xs[i]?.bind fun x => x.at? place
  | _, _ :: _ => none

def atAll? (xs : List Node) : List Nat → Option Node
  | [] => none
  | i :: place => xs[i]?.bind fun x => x.at? place

theorem at?_group (c : Connective) (xs : List Node) (i : Nat) (place : List Nat) :
    (group c xs).at? (i :: place) = atAll? xs (i :: place) := rfl

theorem atAll?_cons_zero (x : Node) (xs : List Node) (place : List Nat) :
    atAll? (x :: xs) (0 :: place) = x.at? place := rfl

theorem atAll?_cons_succ (x : Node) (xs : List Node) (i : Nat) (place : List Nat) :
    atAll? (x :: xs) ((i + 1) :: place) = atAll? xs (i :: place) := rfl

/-! ### Visits -/

/-- A visit of a walk: where it leads, which node is there, and what the visitor answers. -/
structure Visit where
  place : List Nat
  node : Node
  answer : Bool
  deriving Repr, DecidableEq

def Reached (visits : List Visit) (place : List Nat) (node : Node) : Prop :=
  ∃ v ∈ visits, v.place = place ∧ v.node = node

/-- Tells whether no visit above a place was answered by `false`. -/
def Unrefused (visits : List Visit) (place : List Nat) : Prop :=
  ∀ v ∈ visits, v.place <+: place → v.place ≠ place → v.answer = true

/-- What the visits of a walk are, given what lies at each place: they are in the order of their
places, and the nodes they find are exactly those with no refusal above them. -/
structure Unpruned (found : List Nat → Option Node) (visits : List Visit) : Prop where
  ordered : visits.Pairwise fun v w => v.place < w.place
  reached_iff : ∀ place node,
    Reached visits place node ↔ found place = some node ∧ Unrefused visits place

def Visit.first (v : Visit) : Visit := { v with place := 0 :: v.place }

def Visit.later (v : Visit) : Visit := { v with place := v.place.modifyHead (· + 1) }

section

variable {visits visits' : List Visit} {place : List Nat} {node : Node}

theorem reached_append :
    Reached (visits ++ visits') place node ↔
      Reached visits place node ∨ Reached visits' place node := by
  simp only [Reached, List.mem_append, or_and_right, exists_or]

theorem unrefused_append :
    Unrefused (visits ++ visits') place ↔ Unrefused visits place ∧ Unrefused visits' place :=
  List.forall_mem_append

theorem reached_map_first {i : Nat} :
    Reached (visits.map Visit.first) (i :: place) node ↔ 0 = i ∧ Reached visits place node := by
  constructor
  · rintro ⟨w, hw, hplace, hnode⟩
    obtain ⟨v, hv, rfl⟩ := List.mem_map.mp hw
    obtain ⟨hi, hplace⟩ := List.cons.inj hplace
    exact ⟨hi, v, hv, hplace, hnode⟩
  · rintro ⟨hi, v, hv, hplace, hnode⟩
    exact ⟨v.first, List.mem_map_of_mem hv, List.cons_eq_cons.mpr ⟨hi, hplace⟩, hnode⟩

theorem unrefused_map_first {i : Nat} :
    Unrefused (visits.map Visit.first) (i :: place) ↔ (0 = i → Unrefused visits place) := by
  simp only [Unrefused, List.forall_mem_map, Visit.first, List.cons_prefix_cons, ne_eq,
    List.cons_eq_cons, not_and]
  constructor
  · intro h hi v hv hle hne
    exact h v hv ⟨hi, hle⟩ fun _ => hne
  · rintro h v hv ⟨hi, hle⟩ hne
    exact h hi v hv hle (hne hi)

variable {xs : List Node}

theorem Unpruned.found {found : List Nat → Option Node} (h : Unpruned found visits) {v : Visit}
    (hv : v ∈ visits) : found v.place = some v.node :=
  ((h.reached_iff v.place v.node).mp ⟨v, hv, rfl, rfl⟩).1

theorem Unpruned.exists_place (h : Unpruned (atAll? xs) visits) {v : Visit} (hv : v ∈ visits) :
    ∃ i place, v.place = i :: place ∧ v.later.place = (i + 1) :: place := by
  have hfound := h.found hv
  cases hp : v.place with
  | nil =>
    rw [hp] at hfound
    cases hfound
  | cons i place =>
    refine ⟨i, place, rfl, ?_⟩
    rw [Visit.later, hp]
    rfl

theorem Unpruned.later_le_iff (h : Unpruned (atAll? xs) visits) {v : Visit} (hv : v ∈ visits)
    {i : Nat} : v.later.place <+: (i + 1) :: place ↔ v.place <+: i :: place := by
  obtain ⟨j, place', hp, hlater⟩ := h.exists_place hv
  rw [hp, hlater, List.cons_prefix_cons, List.cons_prefix_cons, Nat.succ_inj]

theorem Unpruned.later_eq_iff (h : Unpruned (atAll? xs) visits) {v : Visit} (hv : v ∈ visits)
    {i : Nat} : v.later.place = (i + 1) :: place ↔ v.place = i :: place := by
  obtain ⟨j, place', hp, hlater⟩ := h.exists_place hv
  rw [hp, hlater, List.cons_eq_cons, List.cons_eq_cons, Nat.succ_inj]

theorem Unpruned.reached_map_later (h : Unpruned (atAll? xs) visits) {i : Nat} :
    Reached (visits.map Visit.later) (i :: place) node ↔
      ∃ j, j + 1 = i ∧ Reached visits (j :: place) node := by
  constructor
  · rintro ⟨w, hw, hplace, hnode⟩
    obtain ⟨v, hv, rfl⟩ := List.mem_map.mp hw
    obtain ⟨j, place', _, hlater⟩ := h.exists_place hv
    have hi : j + 1 = i := (List.cons.inj (hlater.symm.trans hplace)).1
    subst hi
    exact ⟨j, rfl, v, hv, (h.later_eq_iff hv).mp hplace, hnode⟩
  · rintro ⟨j, rfl, v, hv, hplace, hnode⟩
    exact ⟨v.later, List.mem_map_of_mem hv, (h.later_eq_iff hv).mpr hplace, hnode⟩

theorem Unpruned.unrefused_map_later (h : Unpruned (atAll? xs) visits) {i : Nat} :
    Unrefused (visits.map Visit.later) (i :: place) ↔
      ∀ j, j + 1 = i → Unrefused visits (j :: place) := by
  simp only [Unrefused, List.forall_mem_map]
  constructor
  · rintro hall j rfl v hv hle hne
    exact hall v hv ((h.later_le_iff hv).mpr hle) fun he => hne ((h.later_eq_iff hv).mp he)
  · intro hall v hv hle hne
    obtain ⟨j, place', _, hlater⟩ := h.exists_place hv
    have hi : j + 1 = i := (List.cons_prefix_cons.mp (hlater ▸ hle)).1
    subst hi
    exact hall j rfl v hv ((h.later_le_iff hv).mp hle) fun he => hne ((h.later_eq_iff hv).mpr he)

theorem unpruned_single {n : Node} {answer : Bool}
    (h : answer = true → ∀ i place, n.at? (i :: place) = none) :
    Unpruned n.at? [⟨[], n, answer⟩] := by
  constructor
  · exact List.pairwise_singleton _ _
  · intro place node
    cases place with
    | nil => simp [Reached, Unrefused, at?]
    | cons i place =>
      constructor
      · rintro ⟨v, hv, hp, _⟩
        obtain rfl := List.mem_singleton.mp hv
        cases hp
      · rintro ⟨hfound, habove⟩
        have hanswer : answer = true :=
          habove _ (List.mem_singleton.mpr rfl) List.nil_prefix (List.cons_ne_nil _ _).symm
        rw [h hanswer] at hfound
        cases hfound

/-- A group that is not refused is visited before all that is visited below it. -/
theorem Unpruned.group {c : Connective} (h : Unpruned (atAll? xs) visits) :
    Unpruned (group c xs).at? (⟨[], group c xs, true⟩ :: visits) := by
  constructor
  · refine List.pairwise_cons.mpr ⟨?_, h.ordered⟩
    intro v hv
    obtain ⟨i, place, hp, _⟩ := h.exists_place hv
    rw [hp]
    exact List.nil_lt_cons i place
  · intro place node
    cases place with
    | nil =>
      constructor
      · rintro ⟨v, hv, hp, rfl⟩
        rcases List.mem_cons.mp hv with rfl | hv
        · exact ⟨rfl, fun w _ hle hne => absurd (List.prefix_nil.mp hle) hne⟩
        · obtain ⟨i, place, hp', _⟩ := h.exists_place hv
          rw [hp] at hp'
          cases hp'
      · rintro ⟨hfound, _⟩
        exact ⟨_, List.mem_cons_self, rfl, Option.some.inj hfound⟩
    | cons i place =>
      have hroot : Unrefused [⟨[], Node.group c xs, true⟩] (i :: place) := by
        simp [Unrefused]
      have hreached : ¬Reached [⟨[], Node.group c xs, true⟩] (i :: place) node := by
        simp [Reached]
      rw [← List.singleton_append, reached_append, unrefused_append, at?_group]
      simp only [hroot, hreached, false_or, true_and]
      exact h.reached_iff (i :: place) node

theorem unpruned_nil : Unpruned (atAll? []) [] := by
  constructor
  · exact List.Pairwise.nil
  · intro place node
    cases place <;> simp [Reached, atAll?]

theorem Unpruned.cons {x : Node} (h : Unpruned x.at? visits) (h' : Unpruned (atAll? xs) visits') :
    Unpruned (atAll? (x :: xs)) (visits.map Visit.first ++ visits'.map Visit.later) := by
  constructor
  -- among the first, among the others, and from one of the first to one of the others
  · refine List.pairwise_append.mpr ⟨?_, ?_, ?_⟩
    · rw [List.pairwise_map]
      exact h.ordered.imp fun hlt => List.cons_lt_cons_iff.mpr (.inr ⟨rfl, hlt⟩)
    · rw [List.pairwise_map]
      refine h'.ordered.imp_of_mem ?_
      intro v w hv hw hlt
      obtain ⟨i, place, hp, hv⟩ := h'.exists_place hv
      obtain ⟨j, place', hp', hw⟩ := h'.exists_place hw
      rw [hp, hp', List.cons_lt_cons_iff] at hlt
      rw [hv, hw, List.cons_lt_cons_iff]
      exact hlt.imp Nat.succ_lt_succ (And.imp_left (congrArg (· + 1)))
    · intro v hv w hw
      obtain ⟨v, _, rfl⟩ := List.mem_map.mp hv
      obtain ⟨w, hmem, rfl⟩ := List.mem_map.mp hw
      obtain ⟨j, place, _, hlater⟩ := h'.exists_place hmem
      rw [hlater]
      exact List.cons_lt_cons_iff.mpr (.inl (Nat.succ_pos j))
  · intro place node
    cases place with
    | nil =>
      constructor
      · rintro ⟨v, hv, hp, _⟩
        rcases List.mem_append.mp hv with hv | hv
        · obtain ⟨v, _, rfl⟩ := List.mem_map.mp hv
          cases hp
        · obtain ⟨v, hmem, rfl⟩ := List.mem_map.mp hv
          obtain ⟨i, place, _, hlater⟩ := h'.exists_place hmem
          rw [hp] at hlater
          cases hlater
      · rintro ⟨hfound, _⟩
        cases hfound
    | cons i place =>
      rw [reached_append, unrefused_append, reached_map_first, unrefused_map_first,
        h'.reached_map_later, h'.unrefused_map_later]
      cases i with
      | zero =>
        rw [atAll?_cons_zero]
        simpa using h.reached_iff place node
      | succ i =>
        rw [atAll?_cons_succ]
        simpa using h'.reached_iff (i :: place) node

end

end BooleanSearch.Node
