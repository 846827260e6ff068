import BooleanSearch.Proofs.Composition
import BooleanSearch.Proofs.TreeShape

/-!
# The limit on nesting

Grouping counts its own recursion, while the limit speaks of the group levels of the finished tree.
The two agree: a query that is accepted under one limit is accepted, with the same tree, under every
limit that its tree fits, and under any other the depth is what is reported. Brackets that add no
group are free.
-/

namespace BooleanSearch

namespace Query

private theorem nodeOf_zero_of_root {rules : Rules} {t : Text} {c : Connective}
    {segments : List Text} (hne : operandText t ≠ [])
    (hroot : rootSplit? (operandText t) = some (c, segments)) :
    nodeOf rules 0 t = .error (.tooDeep rules.maxDepth) := by
  have hfalse : (operandText t).isEmpty = false := by simpa using hne
  simp [nodeOf, nodeBy, hfalse, hroot]

private theorem nodeOf_succ_of_root {rules : Rules} {levels : Nat} {t : Text} {c : Connective}
    {segments : List Text} (hne : operandText t ≠ [])
    (hroot : rootSplit? (operandText t) = some (c, segments)) :
    nodeOf rules (levels + 1) t = (segments.mapM (nodeOf rules levels)).map (.group c) := by
  have hfalse : (operandText t).isEmpty = false := by simpa using hne
  simp [nodeOf, nodeBy, hfalse, hroot]

/-- What becomes of a text that has a node when another number of levels is left. -/
private theorem nodeOf_of_ok {rules rules' : Rules} (hmode : rules'.fieldMode = rules.fieldMode)
    {levels : Nat} {t : Text} {n : Node} (h : nodeOf rules levels t = .ok n) (levels' : Nat) :
    nodeOf rules' levels' t =
      if n.depth ≤ levels' then .ok n else .error (.tooDeep rules'.maxDepth) := by
  induction levels using Nat.strongRecOn generalizing t n levels' with
  | ind levels ih =>
    obtain ⟨hne, hcases⟩ := nodeOf_eq_ok_iff.mp h
    rcases hcases with ⟨hroot, l, hleaf, rfl⟩ | ⟨c, segments, m, ns, hroot, rfl, hns, rfl⟩
    · rw [Node.depth_leaf, if_pos (Nat.zero_le _)]
      exact nodeOf_eq_ok_iff.mpr ⟨hne, Or.inl ⟨hroot, l, hmode ▸ hleaf, rfl⟩⟩
    · cases levels' with
      | zero =>
        have hpos := Node.depth_group_pos c ns
        rw [nodeOf_zero_of_root hne hroot, if_neg (by omega)]
      | succ k =>
        -- all segments that fail do so in the same way, so it does not matter which comes first
        have hsegments := mapM_eq_ite (hns.imp fun s n hn => ih m (Nat.lt_succ_self m) hn k)
        rw [nodeOf_succ_of_root hne hroot, hsegments]
        by_cases hfit : ∀ n ∈ ns, n.depth ≤ k
        · rw [if_pos hfit, if_pos (Node.depth_group_le_iff.mpr hfit)]
          rfl
        · rw [if_neg hfit, if_neg fun h => hfit (Node.depth_group_le_iff.mp h)]
          rfl

private theorem depth_le_depth_rooted (n : Node) : n.depth ≤ (rooted n).depth := by
  cases n with
  | leaf l => exact Nat.zero_le _
  | gap k => exact Nat.le_refl _
  | group c xs => exact Nat.le_refl _

private theorem parse_of_prepare {settings : Settings} {query s : Text}
    (h : prepare settings query = .ok s) :
    parse settings query = (nodeAtDepth settings.toRules 0 s).map rooted := by
  rw [parse, h]
  change (nodeAtDepth settings.toRules 0 s >>= fun root => .ok (rooted root)) = _
  cases nodeAtDepth settings.toRules 0 s <;> rfl

private theorem parse_of_ok {settings : Settings} {query : Text} {t : Node}
    (h : parse settings query = .ok t) {limit : Int} (hpos : 0 < limit) :
    parse { settings with maxDepth := limit } query =
      if (t.depth : Int) ≤ limit then .ok t else .error (.tooDeep limit) := by
  obtain ⟨s, root, hs, hne, hroot, rfl⟩ := parse_eq_ok_iff.mp h
  have hprepare : prepare { settings with maxDepth := limit } query = .ok s := by
    refine bind_eq_ok.mpr ⟨s, hs, ?_⟩
    rw [if_neg (by simpa using hne)]
  let rules : Rules := { settings.toRules with maxDepth := limit }
  have hlevels : rules.levelsAt 0 = limit.toNat := by simp [rules, Rules.levelsAt]
  have hmode : rules.fieldMode = settings.toRules.fieldMode := rfl
  have hnode := nodeOf_of_ok hmode hroot limit.toNat
  have hfits : root.depth ≤ limit.toNat ↔ ((rooted root).depth : Int) ≤ limit := by
    constructor
    · intro hd
      exact Configuration.depth_rooted_le hpos (by omega)
    · intro hd
      have hle := depth_le_depth_rooted root
      omega
  rw [parse_of_prepare hprepare]
  change (nodeOf rules (rules.levelsAt 0) s).map rooted = _
  rw [hlevels, hnode]
  by_cases hd : root.depth ≤ limit.toNat
  · rw [if_pos hd, if_pos (hfits.mp hd)]
    rfl
  · rw [if_neg hd, if_neg fun h => hd (hfits.mpr h)]
    rfl

end Query

namespace Configuration

open Query

private theorem parse_limited {c : Configuration} {query : Text} {t : Node}
    (h : c.parse query = .ok t) {limit : Int} (hpos : 0 < limit) :
    { c with maxDepth := limit }.parse query =
      if (t.depth : Int) ≤ limit then .ok t else .error (.tooDeep limit) :=
  @parse_of_ok c.settings query t h limit hpos

private theorem parse_bracketed_iterate {c : Configuration} (hc : c.check = .ok ()) {query : Text}
    {t : Node} (htrim : query.trim = query) (h : c.parse query = .ok t) (pairs : Nat) :
    c.parse (Text.bracketed^[pairs] query) = .ok t := by
  have hk := (check_eq_ok_iff.mp hc).2.1
  have hstep (q : Text) (hq : q.trim = q ∧ c.parse q = .ok t) :
      q.bracketed.trim = q.bracketed ∧ c.parse q.bracketed = .ok t :=
    ⟨Text.trim_eq_self _ (by decide) (by decide), parse_bracketed hk hq.1 hq.2⟩
  have hall := Function.Iterate.rec (fun q : Text => q.trim = q ∧ c.parse q = .ok t)
    ⟨htrim, h⟩ hstep pairs
  exact hall.2

/-- The limit on nesting is a limit on the depth of the tree. A parsed query keeps within it, has
the same tree under every limit that its tree fits, and is refused as too deep under all the others.
Brackets that leave the tree as it is make no difference under any limit. -/
theorem depth_limit_of_parse {c : Configuration} (hc : c.check = .ok ()) {query : Text} {t : Node}
    (h : c.parse query = .ok t) :
    (t.depth : Int) ≤ c.maxDepth ∧
      (∀ limit : Int, 0 < limit → (t.depth : Int) ≤ limit →
        { c with maxDepth := limit }.parse query = .ok t) ∧
      (∀ limit : Int, 0 < limit → limit < t.depth →
        { c with maxDepth := limit }.parse query = .error (.tooDeep limit) ∧
          (QueryError.tooDeep limit).kind = .nestingTooDeep) ∧
      (∀ query' limit', { c with maxDepth := limit' }.parse query' = .ok t →
        ∀ limit : Int, 0 < limit →
          { c with maxDepth := limit }.parse query' = { c with maxDepth := limit }.parse query) ∧
      (query.trim = query → ∀ (pairs : Nat) (limit : Int), 0 < limit →
        { c with maxDepth := limit }.parse (Text.bracketed^[pairs] query) =
          { c with maxDepth := limit }.parse query) := by
  have hpos := (check_eq_ok_iff.mp hc).1
  refine ⟨?_, ?_, ?_, ?_, ?_⟩
  · by_contra hd
    have hfail := parse_limited h hpos
    rw [if_neg hd] at hfail
    exact absurd (h.symm.trans hfail) (by simp)
  · intro limit hlimit hd
    rw [parse_limited h hlimit, if_pos hd]
  · intro limit hlimit hd
    rw [parse_limited h hlimit, if_neg (by omega)]
    exact ⟨rfl, rfl⟩
  · intro query' limit' h' limit hlimit
    rw [parse_limited h hlimit]
    exact parse_limited h' hlimit
  · intro htrim pairs limit hlimit
    rw [parse_limited h hlimit]
    exact parse_limited (parse_bracketed_iterate hc htrim h pairs) hlimit

theorem depth_limit_of_parse_nested :
    standard.parse "a OR (b AND ((c OR d)))".toList =
        .ok (.group .or [.leaf ⟨[], "a".toList, false⟩, .group .and [.leaf ⟨[], "b".toList, false⟩,
          .group .or [.leaf ⟨[], "c".toList, false⟩, .leaf ⟨[], "d".toList, false⟩]]]) ∧
      { standard with maxDepth := 2 }.parse "a OR (b AND ((c OR d)))".toList =
        .error (.tooDeep 2) ∧
      { standard with maxDepth := 3 }.parse "((a OR (b AND ((c OR d)))))".toList =
        standard.parse "a OR (b AND ((c OR d)))".toList := by
  have hparse : standard.parse "a OR (b AND ((c OR d)))".toList =
      .ok (.group .or [.leaf ⟨[], "a".toList, false⟩, .group .and [.leaf ⟨[], "b".toList, false⟩,
        .group .or [.leaf ⟨[], "c".toList, false⟩, .leaf ⟨[], "d".toList, false⟩]]]) := by
    decide +kernel
  obtain ⟨_, hfits, hdeep, _, hbrackets⟩ := depth_limit_of_parse (c := standard) rfl hparse
  refine ⟨hparse, (hdeep 2 (by decide) (by decide)).1, ?_⟩
  rw [hparse, ← hfits 3 (by decide) (by decide)]
  exact hbrackets (by decide) 2 3 (by decide)

end Configuration

end BooleanSearch
