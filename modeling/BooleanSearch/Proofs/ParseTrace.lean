import BooleanSearch.Logging
import BooleanSearch.Proofs.Composition

/-!
# The log of a parse

Grouping records each split before it turns to the operands, with the number of segments it has cut.
For a query that is parsed the record is the tree itself, read from the root downwards and from left
to right: one entry for each group, with its connective, the number of its children and its depth.
-/

namespace BooleanSearch

open Query

def Node.split? : Node × Nat → Option Split
  | (group c xs, depth) => some ⟨c, xs.length, depth⟩
  | _ => none

/-- The splits that make the groups of a tree whose root lies at `depth`, in preorder. -/
def Node.splits (depth : Nat) (n : Node) : List Split := (n.preorder depth).filterMap split?

theorem Node.splits_group (depth : Nat) (c : Connective) (xs : List Node) :
    (group c xs).splits depth = ⟨c, xs.length, depth⟩ :: xs.flatMap (splits (depth + 1)) := by
  rw [splits, preorder, preorderAll_eq_flatMap, List.filterMap_cons, List.filterMap_flatMap]
  rfl

namespace Query

private theorem joinTraces_of_forall₂ {rules : Rules} {m : Nat} {trace : Text → List Split}
    {trace' : Node → List Split} {segments : List Text} {ns : List Node}
    (hns : List.Forall₂ (fun s n => nodeOf rules m s = .ok n) segments ns)
    (h : ∀ s n, nodeOf rules m s = .ok n → trace s = trace' n) :
    joinTraces (fun s => (nodeOf rules m s).isOk) trace segments = ns.flatMap trace' := by
  induction hns with
  | nil => rfl
  | @cons s n segments ns hs _ ih =>
    have hdone : (nodeOf rules m s).isOk = true := by rw [hs]; rfl
    rw [joinTraces, if_pos hdone, ih, h s n hs, List.flatMap_cons]

/-- Grouping that succeeds records the splits of its node. -/
theorem splits_of_nodeOf {rules : Rules} {levels : Nat} {t : Text} {n : Node}
    (h : nodeOf rules levels t = .ok n) (depth : Nat) :
    splits rules levels depth t = n.splits depth := by
  induction levels using Nat.strongRecOn generalizing t n depth with
  | ind levels ih =>
    obtain ⟨_, ⟨hroot, l, _, rfl⟩ | ⟨c, segments, m, ns, hroot, rfl, hns, rfl⟩⟩ :=
      nodeOf_eq_ok_iff.mp h
    · cases levels with
      | zero => rfl
      | succ m =>
        rw [splits, hroot]
        rfl
    -- one level less is left for the operands, which lie one level deeper
    · have hoperands : joinTraces (fun s => (nodeOf rules m s).isOk)
          (splits rules m ((depth + 1 : Nat) : Int)) segments =
            ns.flatMap (Node.splits (depth + 1)) :=
        joinTraces_of_forall₂ hns fun s n hs => ih m (Nat.lt_succ_self m) hs (depth + 1)
      rw [Node.splits_group, ← hoperands, ← hns.length_eq, splits, hroot]
      rfl

private theorem not_isTerm_of_length {c : Connective} {ns : List Node} (h : 2 ≤ ns.length) :
    (Node.group c ns).isTerm = false := by
  unfold Node.isTerm
  split
  all_goals simp_all

private theorem rooted_group (c : Connective) (ns : List Node) :
    rooted (.group c ns) = .group c ns := rfl

theorem splits_of_parse {settings : Settings} {s : Text} {root : Node}
    (h : nodeOf settings.toRules (settings.toRules.levelsAt 0) s = .ok root) :
    splits settings.toRules (settings.toRules.levelsAt 0) 0 s =
      if (rooted root).isTerm then [] else (rooted root).splits 0 := by
  have hroot := splits_of_nodeOf h 0
  rw [Int.ofNat_zero] at hroot
  cases root with
  | leaf l => exact hroot
  | gap k =>
    obtain ⟨_, ⟨_, _, _, h⟩ | ⟨_, _, _, _, _, _, _, h⟩⟩ := nodeOf_eq_ok_iff.mp h <;> cases h
  | group c ns =>
    have hlen := two_le_length_of_nodeOf h
    have hterm : ¬(rooted (.group c ns)).isTerm = true := by
      rw [rooted_group, not_isTerm_of_length hlen]
      exact Bool.false_ne_true
    rw [hroot, if_neg hterm, rooted_group]

end Query

namespace Logging

/-- The entries that a logger writes while a query is parsed. -/
def written (g : Logger) (c : Configuration) (query : Text) : List Entry :=
  ((Query.events c.settings query).map .ofEvent).filter fun e => g.level ≤ e.level

theorem parseLines_eq_written (g : Logger) (time : Text) (c : Configuration) (query : Text) :
    parseLines (some g) time c query =
      (written g c query).flatMap fun e => linesOf (e.write g.encoding time) :=
  rfl

private theorem written_eq_events {g : Logger} (hg : isEnabled (some g) debug = true)
    (c : Configuration) (query : Text) :
    written g c query = (Query.events c.settings query).map .ofEvent := by
  apply List.filter_eq_self.mpr
  intro e he
  obtain ⟨event, _, rfl⟩ := List.mem_map.mp he
  cases event <;> exact hg

/-- What is written while a query is parsed tells its tree. First comes the query with its
normalized text. Then each group of the tree has one entry, the root first and the operands from
left to right, with its connective, the number of its children and its depth; a term has none. -/
theorem written_of_parse {g : Logger} (hg : isEnabled (some g) debug = true) {c : Configuration}
    {query : Text} {t : Node} (h : c.parse query = .ok t) :
    ∃ s, Query.normalize c.defaultConnective query = .ok s ∧
      written g c query =
        ⟨debug, "preprocessed query".toList,
          [("query", .text query), ("normalized", .text s.spelled)]⟩ ::
        (if t.isTerm then [] else t.splits 0).map fun p =>
          ⟨debug, "split on root connective".toList,
            [("connective", .text p.connective.keyword), ("operands", .number p.operands),
              ("depth", .number p.depth)]⟩ := by
  obtain ⟨s, root, hs, hne, hroot, rfl⟩ := Query.parse_eq_ok_iff.mp h
  refine ⟨s, hs, ?_⟩
  have hprepare : Query.prepare c.settings query = .ok s :=
    bind_eq_ok.mpr ⟨s, hs, if_neg (by simpa using hne)⟩
  rw [written_eq_events hg, Query.events, hprepare, ← Query.splits_of_parse hroot]
  simp only [List.map_cons, List.map_map]
  rfl

theorem written_of_parse_nested :
    ∃ s, Query.normalize .and "a OR (b AND c) AND NOT \"d e\"".toList = .ok s ∧
      written ⟨debug, .console, false⟩ .standard "a OR (b AND c) AND NOT \"d e\"".toList =
        [⟨debug, "preprocessed query".toList,
          [("query", .text "a OR (b AND c) AND NOT \"d e\"".toList),
            ("normalized", .text s.spelled)]⟩,
        ⟨debug, "split on root connective".toList,
          [("connective", .text "OR".toList), ("operands", .number 2), ("depth", .number 0)]⟩,
        ⟨debug, "split on root connective".toList,
          [("connective", .text "AND NOT".toList), ("operands", .number 2), ("depth", .number 1)]⟩,
        ⟨debug, "split on root connective".toList,
          [("connective", .text "AND".toList), ("operands", .number 2),
            ("depth", .number 2)]⟩] := by
  have hparse : Configuration.standard.parse "a OR (b AND c) AND NOT \"d e\"".toList =
      .ok (.group .or [.leaf ⟨[], "a".toList, false⟩,
        .group .andNot [.group .and [.leaf ⟨[], "b".toList, false⟩, .leaf ⟨[], "c".toList, false⟩],
          .leaf ⟨[], "d e".toList, true⟩]]) := by
    decide +kernel
  exact written_of_parse (g := ⟨debug, .console, false⟩) rfl hparse

end Logging

end BooleanSearch
