import BooleanSearch.Proofs.Acceptance
import Mathlib.Algebra.BigOperators.Group.List.Basic
import Mathlib.Algebra.Ring.Int.Defs

/-!
# Terms and keywords of a parsed query

Grouping neither loses nor moves anything. The leaves of the tree are the terms of the query in the
order in which they are written, and every keyword is a joint between two neighbouring children of a
group of its connective.
-/

namespace BooleanSearch

namespace Item

def term? : Item → Option Text
  | term t => some t
  | opening => none
  | closing => none
  | keyword _ => none

def terms (is : List Item) : List Text := is.filterMap term?

theorem mem_terms {u : Text} {is : List Item} : u ∈ terms is ↔ .term u ∈ is := by
  rw [terms, List.mem_filterMap]
  constructor
  · rintro ⟨i, hi, hu⟩
    cases i with
    | term t =>
      obtain rfl := Option.some.inj hu
      exact hi
    | _ => simp [term?] at hu
  · intro h
    exact ⟨.term u, h, rfl⟩

theorem terms_joinOperands (implicit : Connective) (is : List Item) :
    terms (joinOperands implicit is) = terms is := by
  fun_induction joinOperands implicit is with
  | case1 => rfl
  | case2 i => rfl
  | case3 i j rest hij ih =>
    have hk : terms (keyword implicit :: joinOperands implicit (j :: rest)) =
        terms (j :: rest) := ih
    rw [terms, List.filterMap_cons, ← terms, hk, terms, terms, ← List.filterMap_cons]
  | case4 i j rest hij ih =>
    rw [terms, List.filterMap_cons, ← terms, ih, terms, terms, ← List.filterMap_cons]

end Item

namespace Node

mutual

/-- The number of joints between neighbouring children in the groups of a connective. -/
def joints (c : Connective) : Node → Int
  | leaf _ => 0
  | gap _ => 0
  | group d xs => (if d = c then (xs.length : Int) - 1 else 0) + jointsAll c xs

def jointsAll (c : Connective) : List Node → Int
  | [] => 0
  | x :: xs => joints c x + jointsAll c xs

end

theorem jointsAll_eq_sum (c : Connective) (xs : List Node) :
    jointsAll c xs = (xs.map (joints c)).sum := by
  induction xs with
  | nil => rfl
  | cons x xs ih => rw [jointsAll, ih, List.map_cons, List.sum_cons]

end Node

/-! ### Chains -/

namespace Chain

variable {α β : Type}

theorem operands_map (f : α → β) (k : Chain α) : (k.map f).operands = k.operands.map f := by
  induction k with
  | last x => rfl
  | join x c rest ih => rw [map, operands, operands, ih, List.map_cons]

theorem operands_splitOn (c : Connective) (k : Chain α) :
    (k.splitOn c).flatMap operands = k.operands := by
  induction k with
  | last x => rfl
  | join x d rest ih =>
    obtain ⟨l, ls, hl⟩ := List.exists_cons_of_ne_nil (splitOn_ne_nil c rest)
    rw [hl, List.flatMap_cons] at ih
    rw [splitOn, hl, operands, ← ih]
    split_ifs with hd
    · rfl
    · rfl

theorem connectives_splitOn (c : Connective) (k : Chain α) :
    (k.splitOn c).flatMap connectives = k.connectives.filter (· ≠ c) := by
  induction k with
  | last x => rfl
  | join x d rest ih =>
    obtain ⟨l, ls, hl⟩ := List.exists_cons_of_ne_nil (splitOn_ne_nil c rest)
    rw [hl, List.flatMap_cons] at ih
    rw [splitOn, hl, connectives, List.filter_cons, ← ih]
    by_cases hd : d = c
    · simp [hd, connectives]
    · simp [hd, connectives]

/-- A property of trees holds of what grouping makes of a chain if it holds of the operands and
passes to every group of two or more. -/
theorem grouped_induction {P : Node → Prop}
    (group : ∀ c xs, c.isKnown = true → 2 ≤ xs.length → (∀ x ∈ xs, P x) → P (.group c xs))
    {order : List Connective} {k : Chain Node} (hk : ∀ n ∈ k.operands, P n)
    (hc : ∀ c ∈ k.connectives, c.isKnown = true) : P (k.grouped order) := by
  induction order generalizing k with
  | nil =>
    apply hk
    cases k <;> simp [grouped, head, operands]
  | cons c order ih =>
    rw [grouped]
    split_ifs with hmem
    · apply group c _ (hc c hmem)
      · have hcount := List.count_pos_iff.mpr hmem
        rw [List.length_map, length_splitOn]
        omega
      · intro n hn
        obtain ⟨l, hl, rfl⟩ := List.mem_map.mp hn
        apply ih
        · intro x hx
          exact hk x (mem_operands_of_mem_splitOn hl hx)
        · intro d hd
          exact hc d (mem_connectives_of_mem_splitOn hl hd).1
    · exact ih hk hc

private theorem mem_order_of_part {c : Connective} {order : List Connective} {k l : Chain α}
    (h : ∀ d ∈ k.connectives, d ∈ c :: order) (hl : l ∈ k.splitOn c) :
    ∀ d ∈ l.connectives, d ∈ order := by
  intro d hd
  have hmem := mem_connectives_of_mem_splitOn hl hd
  exact List.mem_of_ne_of_mem hmem.2 (h d hmem.1)

private theorem mem_order_of_not_mem {c : Connective} {order : List Connective} {k : Chain α}
    (h : ∀ d ∈ k.connectives, d ∈ c :: order) (hc : c ∉ k.connectives) :
    ∀ d ∈ k.connectives, d ∈ order := by
  intro d hd
  apply List.mem_of_ne_of_mem _ (h d hd)
  rintro rfl
  exact hc hd

theorem leaves_grouped {order : List Connective} {k : Chain Node}
    (h : ∀ c ∈ k.connectives, c ∈ order) :
    (k.grouped order).leaves = k.operands.flatMap Node.leaves := by
  induction order generalizing k with
  | nil =>
    cases k with
    | last n => simp [grouped, head, operands]
    | join n c rest => simpa using h c (by simp [connectives])
  | cons c order ih =>
    rw [grouped]
    split_ifs with hc
    · rw [Node.leaves_group, List.flatMap_map, ← operands_splitOn c k, List.flatMap_assoc]
      apply List.flatMap_congr
      intro l hl
      exact ih (mem_order_of_part h hl)
    · exact ih (mem_order_of_not_mem h hc)

private theorem sum_parts {d : Connective} {w f : Chain Node → Int} {ls : List (Chain Node)}
    (hw : ∀ l, w l = l.connectives.count d + (l.operands.map (Node.joints d)).sum)
    (h : ∀ l ∈ ls, f l = w l) :
    (ls.map f).sum = ((ls.flatMap connectives).count d : Int) +
      ((ls.flatMap operands).map (Node.joints d)).sum := by
  induction ls with
  | nil => rfl
  | cons l ls ih =>
    rw [List.map_cons, List.sum_cons, h l (by simp), hw, ih fun m hm => h m (by simp [hm])]
    simp only [List.flatMap_cons, List.count_append, List.map_append, List.sum_append]
    omega

theorem joints_grouped {order : List Connective} {k : Chain Node}
    (h : ∀ c ∈ k.connectives, c ∈ order) (d : Connective) :
    (k.grouped order).joints d = k.connectives.count d + (k.operands.map (Node.joints d)).sum := by
  induction order generalizing k with
  | nil =>
    cases k with
    | last n => simp [grouped, head, operands, connectives]
    | join n c rest => simpa using h c (by simp [connectives])
  | cons c order ih =>
    rw [grouped]
    split_ifs with hc
    · have hparts := sum_parts (fun _ => rfl) fun l hl => ih (mem_order_of_part h hl)
      rw [Node.joints, Node.jointsAll_eq_sum, List.map_map, Function.comp_def, hparts,
        operands_splitOn, connectives_splitOn, List.length_map, length_splitOn]
      -- the group counts the connective it is split at, and its parts count all others
      by_cases hd : c = d
      · subst hd
        have hzero : (k.connectives.filter (· ≠ c)).count c = 0 := by
          simp [List.count_eq_zero]
        rw [if_pos rfl, hzero]
        omega
      · rw [if_neg hd, List.count_filter (by simpa using Ne.symm hd)]
        omega
    · exact ih (mem_order_of_not_mem h hc)

end Chain

/-! ### Derivations -/

mutual

private theorem operand_rec {P : Operand → Prop} (term : ∀ t, P (.term t))
    (bracketed : ∀ e : Expression, (∀ o ∈ e.operands, P o) → P (.bracketed e)) : ∀ o, P o
  | .term t => term t
  | .bracketed e => bracketed e (operands_rec term bracketed e)

private theorem operands_rec {P : Operand → Prop} (term : ∀ t, P (.term t))
    (bracketed : ∀ e : Expression, (∀ o ∈ e.operands, P o) → P (.bracketed e)) :
    ∀ e : Expression, ∀ o ∈ e.operands, P o
  | .last o, p, hp => by
    have ho := operand_rec term bracketed o
    rwa [← List.mem_singleton.mp hp] at ho
  | .join o c rest, p, hp => by
    have ho := operand_rec term bracketed o
    have hrest := operands_rec term bracketed rest
    exact List.forall_mem_cons.mpr ⟨ho, hrest⟩ p hp

end

@[elab_as_elim]
theorem Operand.induction {P : Operand → Prop} (term : ∀ t, P (.term t))
    (bracketed : ∀ e : Expression, (∀ o ∈ e.operands, P o) → P (.bracketed e)) (o : Operand) :
    P o :=
  operand_rec term bracketed o

namespace Expression

theorem items_subset_of_mem {e : Expression} {o : Operand} (ho : o ∈ e.operands) :
    o.items ⊆ e.items := by
  induction e with
  | last p =>
    obtain rfl := List.mem_singleton.mp ho
    exact List.Subset.refl _
  | join p c rest ih =>
    rw [items]
    rcases List.mem_cons.mp ho with rfl | ho
    · exact List.subset_append_left _ _
    · intro i hi
      simp [ih ho hi]

theorem terms_items (e : Expression) :
    Item.terms e.items = e.operands.flatMap fun o => Item.terms o.items := by
  induction e with
  | last o => simp [items, Chain.operands]
  | join o c rest ih =>
    rw [items, Chain.operands, List.flatMap_cons, ← ih, Item.terms, List.filterMap_append]
    rfl

theorem count_keyword_items (c : Connective) (e : Expression) :
    (e.items.count (.keyword c) : Int) = e.connectives.count c +
      (e.operands.map fun o => (o.items.count (.keyword c) : Int)).sum := by
  induction e with
  | last o => simp [items, Chain.operands, Chain.connectives]
  | join o d rest ih =>
    rw [items, Chain.operands, Chain.connectives, List.map_cons, List.sum_cons, List.count_append,
      List.count_cons, List.count_cons]
    have hd : (Item.keyword d == .keyword c) = (d == c) := by simp [beq_eq_decide]
    rw [hd]
    push_cast
    omega

/-- A property of trees holds of the tree of a derivation if it holds of the nodes of its terms
and passes to every group of two or more. -/
theorem tree_induction {P : Node → Prop} {mode : FieldMode}
    (group : ∀ c xs, c.isKnown = true → 2 ≤ xs.length → (∀ x ∈ xs, P x) → P (.group c xs))
    {e : Expression} (hterm : ∀ u, .term u ∈ e.items → P (termNode mode u))
    (hkeyword : ∀ c, .keyword c ∈ e.items → c.isKnown = true) : P (e.tree mode) := by
  suffices h : ∀ o : Operand, (∀ u, .term u ∈ o.items → P (termNode mode u)) →
      (∀ c, .keyword c ∈ o.items → c.isKnown = true) → P (o.node mode) by
    rw [← tree_bracketed, tree_last]
    apply h
    · simpa [Operand.items] using hterm
    · simpa [Operand.items] using hkeyword
  intro o
  induction o using Operand.induction with
  | term t =>
    intro hterm _
    rw [Operand.node]
    exact hterm t (by simp [Operand.items])
  | bracketed e ih =>
    intro hterm hkeyword
    have hitems : e.items ⊆ Operand.items (.bracketed e) := by
      intro i hi
      simp [Operand.items, hi]
    rw [Operand.node, nodes_eq_map]
    apply Chain.grouped_induction group
    · intro n hn
      rw [Chain.operands_map] at hn
      obtain ⟨o, ho, rfl⟩ := List.mem_map.mp hn
      have hsub := List.Subset.trans (items_subset_of_mem ho) hitems
      exact ih o ho (fun u hu => hterm u (hsub hu)) fun c hc => hkeyword c (hsub hc)
    · intro c hc
      rw [Chain.connectives_map] at hc
      exact hkeyword c (hitems (Query.keyword_mem_items hc))

def leafOfTerm? (mode : FieldMode) (t : Text) : Option Leaf :=
  (Query.readLeaf mode t.trim).toOption

/-- Tells that a node has the leaves and joints that a sequence of items calls for. -/
structure Accounts (mode : FieldMode) (n : Node) (is : List Item) : Prop where
  leaves : n.leaves = (Item.terms is).filterMap (leafOfTerm? mode)
  joints (c : Connective) : n.joints c = is.count (.keyword c)

theorem Accounts.exists_term {mode : FieldMode} {n : Node} {is : List Item}
    (h : Accounts mode n is) {l : Leaf} (hl : l ∈ n.leaves) :
    ∃ u, .term u ∈ is ∧ Query.readLeaf mode u.trim = .ok l := by
  rw [h.leaves, List.mem_filterMap] at hl
  obtain ⟨u, hu, hread⟩ := hl
  refine ⟨u, Item.mem_terms.mp hu, ?_⟩
  rw [leafOfTerm?] at hread
  cases hr : Query.readLeaf mode u.trim with
  | error e => simp [hr, Except.toOption] at hread
  | ok m => simpa [hr, Except.toOption] using hread

private theorem accounts_term (mode : FieldMode) (t : Text) :
    Accounts mode (termNode mode t) [.term t] := by
  constructor
  · rw [termNode, show Item.terms [.term t] = [t] from rfl, List.filterMap_cons, leafOfTerm?]
    cases Query.readLeaf mode t.trim <;> rfl
  · intro c
    rw [termNode]
    cases Query.readLeaf mode t.trim <;> simp [Node.joints]

private theorem accounts_tree_of_operands {mode : FieldMode} {e : Expression}
    (hkeyword : ∀ c, .keyword c ∈ e.items → c.isKnown = true)
    (h : ∀ o ∈ e.operands, Accounts mode (o.node mode) o.items) :
    Accounts mode (e.tree mode) e.items := by
  have horder : ∀ c ∈ (nodes mode e).connectives, c ∈ Connective.bindingOrder := by
    intro c hc
    rw [nodes_eq_map, Chain.connectives_map] at hc
    exact Connective.isKnown_iff_mem.mp (hkeyword c (Query.keyword_mem_items hc))
  constructor
  · rw [tree, Chain.leaves_grouped horder, nodes_eq_map, Chain.operands_map, List.flatMap_map,
      terms_items, List.filterMap_flatMap]
    exact List.flatMap_congr fun o ho => (h o ho).leaves
  · intro c
    rw [tree, Chain.joints_grouped horder, nodes_eq_map, Chain.operands_map,
      Chain.connectives_map, List.map_map, count_keyword_items]
    congr 2
    exact List.map_congr_left fun o ho => (h o ho).joints c

private theorem Accounts.bracketed {mode : FieldMode} {n : Node} {is : List Item}
    (h : Accounts mode n is) : Accounts mode n (.opening :: (is ++ [.closing])) where
  leaves := by
    have hterms : Item.terms (.opening :: (is ++ [.closing])) = Item.terms is := by
      simp [Item.terms, List.filterMap_cons, Item.term?]
    rw [hterms, h.leaves]
  joints c := by
    rw [h.joints]
    simp

private theorem accounts_operand (mode : FieldMode) (o : Operand)
    (hkeyword : ∀ c, .keyword c ∈ o.items → c.isKnown = true) :
    Accounts mode (o.node mode) o.items := by
  induction o using Operand.induction with
  | term t =>
    rw [Operand.node, Operand.items]
    exact accounts_term mode t
  | bracketed e ih =>
    have hknown : ∀ c, .keyword c ∈ e.items → c.isKnown = true := by
      intro c hc
      exact hkeyword c (by simp [Operand.items, hc])
    rw [Operand.node, Operand.items]
    apply Accounts.bracketed
    apply accounts_tree_of_operands hknown
    intro o ho
    exact ih o ho fun c hc => hknown c (items_subset_of_mem ho hc)

theorem accounts_tree {mode : FieldMode} {e : Expression}
    (hkeyword : ∀ c, .keyword c ∈ e.items → c.isKnown = true) :
    Accounts mode (e.tree mode) e.items := by
  apply accounts_tree_of_operands hkeyword
  intro o ho
  exact accounts_operand mode o fun c hc => hkeyword c (items_subset_of_mem ho hc)

end Expression

/-! ### Parsed queries -/

namespace Query

private theorem leaves_rooted (n : Node) : (rooted n).leaves = n.leaves := by
  cases n with
  | leaf l => simp [rooted, Node.term, Node.leaves_group]
  | gap k => rfl
  | group c xs => rfl

private theorem joints_rooted (c : Connective) (n : Node) : (rooted n).joints c = n.joints c := by
  cases n with
  | leaf l => simp [rooted, Node.term, Node.joints, Node.jointsAll]
  | gap k => rfl
  | group d xs => rfl

theorem accounts_of_parse {settings : Settings} {query : Text} {n : Node}
    (hk : settings.implicit.isKnown = true) (h : parse settings query = .ok n) :
    Expression.Accounts settings.fieldMode n (itemsOf settings.implicit query) := by
  obtain ⟨_, _, e, he, _, _, rfl⟩ := derivation_of_parse hk h
  have hkeyword : ∀ c, .keyword c ∈ e.items → c.isKnown = true := by
    intro c hc
    rw [he] at hc
    exact isKnown_of_keyword_itemsOf hk hc
  have htree := @Expression.accounts_tree settings.fieldMode e hkeyword
  rw [he] at htree
  constructor
  · rw [leaves_rooted, htree.leaves]
  · intro c
    rw [joints_rooted, htree.joints]

private theorem map_render_leafOfTerm? {us : List Text}
    (h : ∀ u ∈ us, ∃ l, readLeaf .preserve u.trim = .ok l) :
    (us.filterMap (Expression.leafOfTerm? .preserve)).map Leaf.render = us.map Text.trim := by
  induction us with
  | nil => rfl
  | cons u us ih =>
    obtain ⟨l, hl⟩ := h u (by simp)
    have hleaf : Expression.leafOfTerm? .preserve u = some l := by
      rw [Expression.leafOfTerm?, hl]
      rfl
    rw [List.filterMap_cons_some hleaf, List.map_cons, List.map_cons,
      ih fun v hv => h v (by simp [hv]), render_of_readLeaf hl]

end Query

namespace Configuration

open Query

/-- With fields preserved, the leaves of a parsed query are written as its terms without the spaces
around them, in the same order. Every keyword, written or implicit, is a joint between neighbouring
children in a group of its connective. -/
theorem leaves_and_joints_of_parse {c : Configuration} (hc : c.check = .ok ())
    (hmode : c.fieldMode = .preserve) {query : Text} {t : Node} (h : c.parse query = .ok t) :
    t.leaves.map Leaf.render = (Item.terms (Item.ofText query.trim)).map Text.trim ∧
      ∀ d, t.joints d = (itemsOf c.defaultConnective query).count (.keyword d) := by
  obtain ⟨_, hk, _, _⟩ := check_eq_ok_iff.mp hc
  have hitems := accounts_of_parse hk h
  refine ⟨?_, hitems.joints⟩
  have hleaves := hitems.leaves
  rw [show c.settings.fieldMode = .preserve from hmode] at hleaves
  have hterms : Item.terms (itemsOf c.defaultConnective query) =
      Item.terms (Item.ofText query.trim) := Item.terms_joinOperands _ _
  rw [hleaves, ← hterms]
  apply map_render_leafOfTerm?
  intro u hu
  obtain ⟨_, _, _, _, hread, _, _⟩ := derivation_of_parse hk h
  rw [← hmode]
  exact hread u (Item.mem_terms.mp hu)

theorem leaves_and_joints_of_parse_nested :
    ∃ t, standard.parse "a OR NOT \"b  c\" (d:e AND NOT f) OR g".toList = .ok t ∧
      t.leaves.map Leaf.render =
        ["a".toList, "\"b c\"".toList, "d:e".toList, "f".toList, "g".toList] ∧
      t.joints .orNot = 1 ∧ t.joints .and = 1 ∧ t.joints .andNot = 1 ∧ t.joints .or = 1 := by
  have hparse : standard.parse "a OR NOT \"b  c\" (d:e AND NOT f) OR g".toList =
      .ok (.group .or
        [.group .orNot
          [.leaf ⟨[], "a".toList, false⟩,
            .group .and
              [.leaf ⟨[], "b c".toList, true⟩,
                .group .andNot
                  [.leaf ⟨"d".toList, "e".toList, false⟩, .leaf ⟨[], "f".toList, false⟩]]],
          .leaf ⟨[], "g".toList, false⟩]) := by
    decide +kernel
  have hitems : itemsOf standard.defaultConnective
      "a OR NOT \"b  c\" (d:e AND NOT f) OR g".toList =
        [.term "a".toList, .keyword .orNot, .term "\"b c\"".toList, .keyword .and, .opening,
          .term "d:e".toList, .keyword .andNot, .term "f".toList, .closing, .keyword .or,
          .term "g".toList] := by
    decide +kernel
  obtain ⟨hleaves, hjoints⟩ := leaves_and_joints_of_parse (c := standard) rfl rfl hparse
  rw [← Item.terms_joinOperands standard.defaultConnective] at hleaves
  change _ = (Item.terms (itemsOf standard.defaultConnective _)).map Text.trim at hleaves
  rw [hitems] at hleaves hjoints
  refine ⟨_, hparse, hleaves, ?_, ?_, ?_, ?_⟩
  all_goals
    rw [hjoints]
    rfl

end Configuration

end BooleanSearch
