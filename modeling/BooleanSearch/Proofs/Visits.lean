import BooleanSearch.Proofs.Places
import BooleanSearch.Proofs.Walking

/-!
# The visits of a walk

A walk calls its visitor on a node before the nodes below it, and leaves out what lies below a node
at which the visitor answers `false`. Where the answer is always `true`, all nodes are visited: the
leaves are collected in reading order, each of them once.
-/

namespace BooleanSearch.Node

/-! ### Trees without gaps -/

mutual

private theorem traverseFrom_noting {σ : Type} (visit : Visitor σ) {kinds : List Gap}
    (hk : kinds.contains .group = true) : ∀ (n : Node) (depth : Nat) (s : σ) (noted : Bool),
    n.hasGap kinds = false →
      traverseFrom visit.noting depth n (s, noted) = (traverseFrom visit depth n s, noted)
  | leaf l, depth, s, noted, _ => by simp [traverseFrom, Visitor.noting, lacksGroup]
  | gap k, depth, s, noted, h => by
    cases k with
    | group => exact absurd (hk.symm.trans h) Bool.noConfusion
    | node => simp [traverseFrom, Visitor.noting, lacksGroup]
    | leaf => simp [traverseFrom, Visitor.noting, lacksGroup]
  | group c xs, depth, s, noted, h => by
    simp only [traverseFrom, Visitor.noting, lacksGroup, Bool.and_false, Bool.or_false]
    split
    · exact traverseAll_noting visit hk xs (depth + 1) _ noted h
    · rfl

private theorem traverseAll_noting {σ : Type} (visit : Visitor σ) {kinds : List Gap}
    (hk : kinds.contains .group = true) : ∀ (xs : List Node) (depth : Nat) (s : σ) (noted : Bool),
    hasGapAll kinds xs = false →
      traverseAll visit.noting depth xs (s, noted) = (traverseAll visit depth xs s, noted)
  | [], depth, s, noted, _ => rfl
  | x :: xs, depth, s, noted, h => by
    rw [hasGapAll, Bool.or_eq_false_iff] at h
    rw [traverseAll, traverseFrom_noting visit hk x depth s noted h.1, traverseAll,
      traverseAll_noting visit hk xs depth _ noted h.2]

end

theorem isComplete_iff {n : Node} :
    n.isComplete = true ↔ n.hasGap [.node, .leaf, .group] = false := by
  rw [isComplete, Bool.not_eq_true']

theorem traverse?_of_isComplete {n : Node} (hn : n.isComplete = true) {σ : Type}
    (visit : Visitor σ) (s : σ) : traverse? visit n s = some (traverse visit n s) := by
  rw [traverse?, traverse, traverseFrom_noting visit rfl n 0 s false (isComplete_iff.mp hn)]
  rfl

theorem hasGapAll_eq_false_iff {kinds : List Gap} {xs : List Node} :
    hasGapAll kinds xs = false ↔ ∀ x ∈ xs, x.hasGap kinds = false := by
  induction xs with
  | nil => simp [hasGapAll]
  | cons x xs ih => rw [hasGapAll, Bool.or_eq_false_iff, ih, List.forall_mem_cons]

theorem isComplete_of_mem {c : Connective} {xs : List Node} (h : (group c xs).isComplete = true)
    {x : Node} (hx : x ∈ xs) : x.isComplete = true :=
  isComplete_iff.mpr (hasGapAll_eq_false_iff.mp (isComplete_iff.mp h) x hx)

theorem isComplete_of_at? {n m : Node} {place : List Nat} (hn : n.isComplete = true)
    (h : n.at? place = some m) : m.isComplete = true := by
  induction place generalizing n with
  | nil => exact Option.some.inj h ▸ hn
  | cons i place ih =>
    cases n with
    | leaf l => cases h
    | gap k => cases h
    | group c xs =>
      obtain ⟨x, hx, hm⟩ := Option.bind_eq_some_iff.mp h
      exact ih (isComplete_of_mem hn (List.mem_of_getElem? hx)) hm

/-! ### Calls -/

structure Call where
  node : Node
  depth : Nat
  answer : Bool
  deriving Repr, DecidableEq

def Visitor.recording {σ : Type} (visit : Visitor σ) : Visitor (σ × List Call) := fun n depth s =>
  let seen := visit n depth s.1
  (seen.1, seen.2, s.2 ++ [⟨n, depth, seen.1⟩])

/-- Tells that a visitor gives the recorded answers when the calls are made one after another, each
in the state that the call before it has left. -/
def Visitor.Answers {σ : Type} (visit : Visitor σ) : σ → List Call → σ → Prop
  | s, [], final => final = s
  | s, c :: cs, final => (visit c.node c.depth s).1 = c.answer ∧
      visit.Answers (visit c.node c.depth s).2 cs final

def Visit.call (depth : Nat) (v : Visit) : Call := ⟨v.node, depth + v.place.length, v.answer⟩

mutual

/-- The visits of a walk below a node that lies at the given depth. -/
def visitsFrom {σ : Type} (visit : Visitor σ) (depth : Nat) : Node → σ → List Visit
  | leaf l, s => [⟨[], leaf l, (visit (leaf l) depth s).1⟩]
  | gap k, s => [⟨[], gap k, (visit (gap k) depth s).1⟩]
  | group c xs, s =>
    let seen := visit (group c xs) depth s
    ⟨[], group c xs, seen.1⟩ :: if seen.1 then visitsAll visit (depth + 1) xs seen.2 else []

def visitsAll {σ : Type} (visit : Visitor σ) (depth : Nat) : List Node → σ → List Visit
  | [], _ => []
  | x :: xs, s => (visitsFrom visit depth x s).map Visit.first ++
      (visitsAll visit depth xs (traverseFrom visit depth x s)).map Visit.later

end

@[simp] theorem Visit.call_first (depth : Nat) (v : Visit) :
    v.first.call depth = v.call (depth + 1) := by
  simp only [call, first, List.length_cons, Nat.add_assoc, Nat.add_comm 1]

@[simp] theorem Visit.call_later (depth : Nat) (v : Visit) : v.later.call depth = v.call depth := by
  simp only [call, later, List.length_modifyHead]

section

variable {σ : Type} (visit : Visitor σ)

theorem map_call_visitsAll_cons (depth : Nat) (x : Node) (xs : List Node) (s : σ) :
    (visitsAll visit (depth + 1) (x :: xs) s).map (Visit.call depth) =
      (visitsFrom visit (depth + 1) x s).map (Visit.call (depth + 1)) ++
        (visitsAll visit (depth + 1) xs (traverseFrom visit (depth + 1) x s)).map
          (Visit.call depth) := by
  simp only [visitsAll, List.map_append, List.map_map, Function.comp_def, Visit.call_first,
    Visit.call_later]

variable {visit}

/-! What a walk does at a group depends on the answer there. -/

variable {c : Connective} {xs : List Node} {depth : Nat} {s t : σ}

theorem traverseFrom_entered (h : visit (group c xs) depth s = (true, t)) :
    traverseFrom visit depth (group c xs) s = traverseAll visit (depth + 1) xs t := by
  simp only [traverseFrom, h, if_true]

theorem traverseFrom_refused (h : visit (group c xs) depth s = (false, t)) :
    traverseFrom visit depth (group c xs) s = t := by
  simp only [traverseFrom, h, Bool.false_eq_true, if_false]

theorem visitsFrom_entered (h : visit (group c xs) depth s = (true, t)) :
    visitsFrom visit depth (group c xs) s =
      ⟨[], group c xs, true⟩ :: visitsAll visit (depth + 1) xs t := by
  simp only [visitsFrom, h, if_true]

theorem visitsFrom_refused (h : visit (group c xs) depth s = (false, t)) :
    visitsFrom visit depth (group c xs) s = [⟨[], group c xs, false⟩] := by
  simp only [visitsFrom, h, Bool.false_eq_true, if_false]

theorem Visitor.recording_eq {n : Node} {answer : Bool} (h : visit n depth s = (answer, t))
    (calls : List Call) :
    visit.recording n depth (s, calls) = (answer, t, calls ++ [⟨n, depth, answer⟩]) := by
  simp only [recording, h]

end

/-! ### The calls that a walk makes -/

section

variable {σ : Type} (visit : Visitor σ)

mutual

private theorem traverseFrom_recording : ∀ (n : Node) (depth : Nat) (s : σ) (calls : List Call),
    traverseFrom visit.recording depth n (s, calls) =
      (traverseFrom visit depth n s,
        calls ++ (visitsFrom visit depth n s).map (Visit.call depth))
  | leaf l, depth, s, calls => rfl
  | gap k, depth, s, calls => rfl
  | group c xs, depth, s, calls => by
    rcases hseen : visit (group c xs) depth s with ⟨answer, t⟩
    have hrecording := Visitor.recording_eq hseen calls
    cases answer with
    | true =>
      rw [traverseFrom_entered hrecording, traverseFrom_entered hseen, visitsFrom_entered hseen,
        traverseAll_recording xs depth, List.append_assoc]
      rfl
    | false =>
      rw [traverseFrom_refused hrecording, traverseFrom_refused hseen, visitsFrom_refused hseen]
      rfl

private theorem traverseAll_recording : ∀ (xs : List Node) (depth : Nat) (s : σ)
    (calls : List Call), traverseAll visit.recording (depth + 1) xs (s, calls) =
      (traverseAll visit (depth + 1) xs s,
        calls ++ (visitsAll visit (depth + 1) xs s).map (Visit.call depth))
  | [], depth, s, calls => by simp [traverseAll, visitsAll]
  | x :: xs, depth, s, calls => by
    rw [traverseAll, traverseFrom_recording x, traverseAll_recording xs, traverseAll,
      map_call_visitsAll_cons, List.append_assoc]

end

variable {visit}

theorem Visitor.Answers.append {s t u : σ} {calls calls' : List Call}
    (h : visit.Answers s calls t) (h' : visit.Answers t calls' u) :
    visit.Answers s (calls ++ calls') u := by
  induction calls generalizing s with
  | nil =>
    obtain rfl : t = s := h
    exact h'
  | cons c calls ih => exact ⟨h.1, ih h.2⟩

variable (visit)

mutual

private theorem answers_visitsFrom : ∀ (n : Node) (depth : Nat) (s : σ),
    visit.Answers s ((visitsFrom visit depth n s).map (Visit.call depth))
      (traverseFrom visit depth n s)
  | leaf l, depth, s => ⟨rfl, rfl⟩
  | gap k, depth, s => ⟨rfl, rfl⟩
  | group c xs, depth, s => by
    rcases hseen : visit (group c xs) depth s with ⟨answer, t⟩
    have hanswer : (visit (group c xs) depth s).1 = answer := by rw [hseen]
    have hstate : (visit (group c xs) depth s).2 = t := by rw [hseen]
    cases answer with
    | true =>
      rw [traverseFrom_entered hseen, visitsFrom_entered hseen]
      exact ⟨hanswer, hstate ▸ answers_visitsAll xs depth t⟩
    | false =>
      rw [traverseFrom_refused hseen, visitsFrom_refused hseen]
      exact ⟨hanswer, hstate.symm⟩

private theorem answers_visitsAll : ∀ (xs : List Node) (depth : Nat) (s : σ),
    visit.Answers s ((visitsAll visit (depth + 1) xs s).map (Visit.call depth))
      (traverseAll visit (depth + 1) xs s)
  | [], depth, s => rfl
  | x :: xs, depth, s => by
    rw [map_call_visitsAll_cons, traverseAll]
    exact (answers_visitsFrom x (depth + 1) s).append (answers_visitsAll xs depth _)

end

end

/-! ### The nodes that a walk visits -/

section

variable {σ : Type} (visit : Visitor σ)

mutual

theorem unpruned_visitsFrom : ∀ (n : Node) (depth : Nat) (s : σ),
    Unpruned n.at? (visitsFrom visit depth n s)
  | leaf l, depth, s => unpruned_single fun _ _ _ => rfl
  | gap k, depth, s => unpruned_single fun _ _ _ => rfl
  | group c xs, depth, s => by
    rcases hseen : visit (group c xs) depth s with ⟨answer, t⟩
    cases answer with
    | true =>
      rw [visitsFrom_entered hseen]
      exact (unpruned_visitsAll xs (depth + 1) t).group
    | false =>
      rw [visitsFrom_refused hseen]
      exact unpruned_single nofun

theorem unpruned_visitsAll : ∀ (xs : List Node) (depth : Nat) (s : σ),
    Unpruned (atAll? xs) (visitsAll visit depth xs s)
  | [], _, _ => unpruned_nil
  | x :: xs, depth, s => (unpruned_visitsFrom x depth s).cons (unpruned_visitsAll xs depth _)

end

end

/-! ### Leaves and levels -/

theorem leaf?_eq_some_iff {n : Node} {l : Leaf} : n.leaf? = some l ↔ n = leaf l := by
  cases n <;> simp [leaf?]

theorem Visitor.Answers.forall_true {σ : Type} {visit : Visitor σ}
    (hvisit : ∀ n depth s, (visit n depth s).1 = true) {s final : σ} {calls : List Call}
    (h : visit.Answers s calls final) : ∀ c ∈ calls, c.answer = true := by
  induction calls generalizing s with
  | nil => simp
  | cons c calls ih =>
    rw [List.forall_mem_cons]
    exact ⟨h.1.symm.trans (hvisit c.node c.depth s), ih h.2⟩

private theorem collectLeaves_true (n : Node) (depth : Nat) (found : List Node) :
    (collectLeaves n depth found).1 = true := by
  cases n with
  | leaf l => rfl
  | group c xs => rfl
  | gap k => cases k <;> rfl

private theorem found_of_answers {calls : List Call} {found final : List Node}
    (h : Visitor.Answers collectLeaves found calls final)
    (hfilled : ∀ c ∈ calls, c.node ≠ gap .leaf) :
    final = found ++ (calls.filterMap fun c => c.node.leaf?).map leaf := by
  induction calls generalizing found with
  | nil =>
    obtain rfl : final = found := h
    simp
  | cons c calls ih =>
    obtain ⟨hc, hcalls⟩ := List.forall_mem_cons.mp hfilled
    have hrest := ih h.2 hcalls
    rcases c with ⟨n, depth, answer⟩
    cases n with
    | leaf l => simpa [collectLeaves, leaf?] using hrest
    | group c xs => simpa [collectLeaves, leaf?] using hrest
    | gap k =>
      cases k with
      | leaf => exact absurd rfl hc
      | node => simpa [collectLeaves, leaf?] using hrest
      | group => simpa [collectLeaves, leaf?] using hrest

private theorem exists_leafPlaces {n : Node} (hn : n.isComplete = true) :
    ∃ found : List (List Nat × Leaf), n.leafPlaces = found.map (fun p => leaf p.2) ∧
      found.Pairwise (fun p q => p.1 < q.1) ∧
      ∀ place l, (place, l) ∈ found ↔ n.at? place = some (leaf l) := by
  have hwalk := unpruned_visitsFrom collectLeaves n 0 []
  have hanswers := answers_visitsFrom collectLeaves n 0 []
  generalize hvisits : visitsFrom collectLeaves 0 n [] = visits at hwalk hanswers
  -- the collector never refuses, so that every place of a leaf is reached
  have hopen (place : List Nat) : Unrefused visits place := by
    intro v hv _ _
    exact hanswers.forall_true collectLeaves_true _ (List.mem_map_of_mem hv)
  have hfilled : ∀ c ∈ visits.map (Visit.call 0), c.node ≠ gap .leaf := by
    intro c hc hgap
    obtain ⟨v, hv, rfl⟩ := List.mem_map.mp hc
    have hcomplete := isComplete_of_at? hn (hwalk.found hv)
    rw [show v.node = gap .leaf from hgap] at hcomplete
    cases hcomplete
  refine ⟨visits.filterMap fun v => v.node.leaf?.map fun l => (v.place, l), ?_, ?_, ?_⟩
  · have hplaces := found_of_answers hanswers hfilled
    rw [List.nil_append, List.filterMap_map] at hplaces
    rw [leafPlaces, traverse, hplaces, List.map_filterMap, List.map_filterMap]
    simp only [Option.map_map]
    rfl
  · refine List.Pairwise.filterMap _ ?_ hwalk.ordered
    intro v w hlt p hp q hq
    obtain ⟨l, _, rfl⟩ := Option.map_eq_some_iff.mp hp
    obtain ⟨m, _, rfl⟩ := Option.map_eq_some_iff.mp hq
    exact hlt
  · intro place l
    have hreached := hwalk.reached_iff place (leaf l)
    rw [and_iff_left (hopen place)] at hreached
    rw [← hreached, List.mem_filterMap]
    constructor
    · rintro ⟨v, hv, he⟩
      obtain ⟨m, hm, he⟩ := Option.map_eq_some_iff.mp he
      obtain ⟨hplace, rfl⟩ := Prod.mk.inj he
      exact ⟨v, hv, hplace, leaf?_eq_some_iff.mp hm⟩
    · rintro ⟨v, hv, hplace, hnode⟩
      exact ⟨v, hv, by rw [hnode, hplace]; rfl⟩

theorem levelsAll_eq_foldr (xs : List Node) : levelsAll xs = (xs.map depth).foldr max 0 := by
  induction xs with
  | nil => rfl
  | cons x xs ih => rw [levelsAll, ih, List.map_cons, List.foldr_cons, depth_eq_levels]

theorem mapM_depth? {xs : List Node} (h : ∀ x ∈ xs, x.isComplete = true) :
    xs.mapM depth? = some (xs.map depth) := by
  induction xs with
  | nil => rfl
  | cons x xs ih =>
    obtain ⟨hx, hxs⟩ := List.forall_mem_cons.mp h
    rw [List.mapM_cons, ih hxs, depth?, traverse?_of_isComplete hx]
    rfl

/-- A walk of a complete tree comes to an end. The visitor is shown exactly the nodes that have no
refused node above them, in the order of their places and with the lengths of their places as
depths, each in the state that the call before has left. So the leaves are collected in the order
of their places, each of them once. A leaf has no levels, and a group has one more than the deepest
of its children. -/
theorem visits_of_traverse {n : Node} (hn : n.isComplete = true) :
    (∀ {σ : Type} (visit : Visitor σ) (s : σ), ∃ visits final,
      traverse? visit n s = some final ∧
        traverse? visit.recording n (s, []) = some (final, visits.map (Visit.call 0)) ∧
        visit.Answers s (visits.map (Visit.call 0)) final ∧ Unpruned n.at? visits) ∧
      (∃ found : List (List Nat × Leaf),
        n.leafPlaces? = some (found.map fun p => leaf p.2) ∧ n.leaves = found.map Prod.snd ∧
          found.Pairwise (fun p q => p.1 < q.1) ∧
          ∀ place l, (place, l) ∈ found ↔ n.at? place = some (leaf l)) ∧
      (∀ l, n = leaf l → n.depth? = some 0) ∧
      ∀ c xs, n = group c xs →
        ∃ depths, xs.mapM depth? = some depths ∧ n.depth? = some (depths.foldr max 0 + 1) := by
  refine ⟨?_, ?_, ?_, ?_⟩
  · intro σ visit s
    refine ⟨visitsFrom visit 0 n s, traverse visit n s, traverse?_of_isComplete hn visit s, ?_,
      answers_visitsFrom visit n 0 s, unpruned_visitsFrom visit n 0 s⟩
    rw [traverse?_of_isComplete hn, traverse, traverseFrom_recording, List.nil_append]
    rfl
  · obtain ⟨found, hplaces, hordered, hmem⟩ := exists_leafPlaces hn
    refine ⟨found, ?_, ?_, hordered, hmem⟩
    · rw [← hplaces]
      exact traverse?_of_isComplete hn collectLeaves []
    · rw [leaves, hplaces, List.filterMap_map]
      exact congrFun (List.filterMap_eq_map (f := Prod.snd)) found
  · rintro l rfl
    rfl
  · rintro c xs rfl
    refine ⟨xs.map depth, mapM_depth? fun x hx => isComplete_of_mem hn hx, ?_⟩
    rw [depth?, traverse?_of_isComplete hn, ← levelsAll_eq_foldr]
    exact congrArg some (depth_eq_levels (group c xs))

theorem visits_of_traverse_equal_groups :
    let a : Leaf := ⟨[], "a".toList, false⟩
    let b : Leaf := ⟨"field".toList, "b".toList, true⟩
    let pair := group .andNot [leaf a, leaf b]
    let tree := group .or [pair, pair, leaf a]
    let visit : Visitor Nat := fun _ _ seen => (decide (seen < 2), seen + 1)
    tree.isComplete = true ∧
      (∃ visits, traverse? visit tree 0 = some 6 ∧
        visits.map (Visit.call 0) = [⟨tree, 0, true⟩, ⟨pair, 1, true⟩, ⟨leaf a, 2, false⟩,
          ⟨leaf b, 2, false⟩, ⟨pair, 1, false⟩, ⟨leaf a, 1, false⟩] ∧
        Unpruned tree.at? visits) ∧
      (∃ found : List (List Nat × Leaf), found.map Prod.snd = [a, b, a, b, a] ∧
        found.Pairwise fun p q => p.1 < q.1) ∧
      tree.depth? = some 2 := by
  intro a b pair tree visit
  have hn : tree.isComplete = true := rfl
  obtain ⟨hwalk, ⟨found, _, hleaves, hordered, _⟩, _, hdepth⟩ := visits_of_traverse hn
  obtain ⟨visits, final, hfinal, hcalls, _, hvisits⟩ := hwalk visit 0
  obtain ⟨rfl, hmap⟩ := Prod.mk.inj (Option.some.inj hcalls)
  obtain ⟨depths, hdepths, hdeepest⟩ := hdepth .or [pair, pair, leaf a] rfl
  obtain rfl := Option.some.inj hdepths
  exact ⟨hn, ⟨visits, hfinal, hmap.symm, hvisits⟩, ⟨found, hleaves.symm, hordered⟩, hdeepest⟩

end BooleanSearch.Node
