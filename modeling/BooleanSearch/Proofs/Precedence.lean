import BooleanSearch.Proofs.Acceptance
import BooleanSearch.Proofs.Truth

/-!
# Reading a query from left to right

The tree of a query splits its chains at one connective after the other, yet it means what an
ordinary reading means: the runs of operands joined by `AND` and `AND NOT` are folded from the left,
then the runs themselves are folded from the left with `OR` and `OR NOT`.
-/

namespace BooleanSearch

namespace Connective

def apply : Connective → Bool → Bool → Bool
  | and, x, y => x && y
  | andNot, x, y => x && !y
  | or, x, y => x || y
  | orNot, x, y => x || !y
  | other _, _, _ => false

def isConjunctive : Connective → Bool
  | and => true
  | andNot => true
  | _ => false

def signed (c : Connective) (b : Bool) : Bool := if c.isNegated then !b else b

end Connective

namespace Chain

variable {α β : Type}

def tail : Chain α → List (Connective × α)
  | last _ => []
  | join _ c rest => (c, rest.head) :: tail rest

def modifyHead (f : α → α) : Chain α → Chain α
  | last x => last (f x)
  | join x c rest => join (f x) c rest

def foldLeft (k : Chain Bool) : Bool := k.tail.foldl (fun b p => p.1.apply b p.2) k.head

/-- The maximal runs of operands joined by conjunctive connectives. -/
def runs : Chain α → Chain (Chain α)
  | last x => last (last x)
  | join x c rest =>
    if c.isConjunctive then (runs rest).modifyHead (join x c) else join (last x) c (runs rest)

/-- The value of a chain of truth values: its runs are folded first. -/
def value (k : Chain Bool) : Bool := (k.runs.map foldLeft).foldLeft

/-! ### Splitting against folding -/

theorem tail_eq_nil {k : Chain α} (h : ∀ c, c ∉ k.connectives) : k.tail = [] := by
  cases k with
  | last x => rfl
  | join x c rest => exact absurd (by simp [connectives]) (h c)

theorem mem_connectives_of_mem_tail {k : Chain α} {p : Connective × α} (h : p ∈ k.tail) :
    p.1 ∈ k.connectives := by
  induction k with
  | last x => simp [tail] at h
  | join x c rest ih =>
    rw [connectives, List.mem_cons]
    rcases List.mem_cons.mp h with rfl | h
    · exact Or.inl rfl
    · exact Or.inr (ih h)

theorem exists_splitOn (c : Connective) (k : Chain α) :
    ∃ l ls, k.splitOn c = l :: ls ∧ l.head = k.head ∧
      k.tail = l.tail ++ ls.flatMap fun m => (c, m.head) :: m.tail := by
  induction k with
  | last x => exact ⟨last x, [], rfl, rfl, rfl⟩
  | join x d rest ih =>
    obtain ⟨l, ls, hs, hh, ht⟩ := ih
    rw [splitOn, hs]
    split_ifs with hd
    · refine ⟨last x, l :: ls, rfl, rfl, ?_⟩
      simp [tail, hd, ht, hh]
    · refine ⟨join x d l, ls, rfl, rfl, ?_⟩
      simp [tail, ht, hh]

def regrouped : (order : List Connective) → Chain Bool → Bool
  | [], k => k.head
  | c :: order, k =>
    if c ∈ k.connectives then c.combine ((k.splitOn c).map (regrouped order))
    else regrouped order k

theorem truth_grouped (v : Leaf → Bool) (order : List Connective) (k : Chain Node) :
    (grouped order k).truth v = regrouped order (k.map (Node.truth v)) := by
  induction order generalizing k with
  | nil => cases k <;> rfl
  | cons c order ih =>
    rw [grouped, regrouped, connectives_map]
    split_ifs with hc
    · rw [Node.truth, Node.truths_eq_map, splitOn_map, List.map_map, List.map_map]
      congr 1
      apply List.map_congr_left
      intro l _
      exact ih l
    · exact ih k

private theorem foldLeft_eq {op : Bool → Bool → Bool} {k : Chain Bool}
    (h : ∀ c ∈ k.connectives, ∀ x y, c.apply x y = op x (c.signed y)) :
    k.foldLeft = (k.tail.map fun t => t.1.signed t.2).foldl op k.head := by
  rw [foldLeft, List.foldl_map]
  have hmem : ∀ t ∈ k.tail, ∀ x, t.1.apply x t.2 = op x (t.1.signed t.2) := fun t ht x =>
    h t.1 (mem_connectives_of_mem_tail ht) x t.2
  generalize k.head = b
  generalize k.tail = ts at hmem
  induction ts generalizing b with
  | nil => rfl
  | cons t ts ih =>
    rw [List.foldl_cons, List.foldl_cons, hmem t (by simp),
      ih _ fun s hs => hmem s (by simp [hs])]

private theorem foldl_flatMap_cons {op : Bool → Bool → Bool} [Std.Associative op] (b : Bool)
    (f : β → Bool) (g : β → List Bool) (ms : List β) :
    (ms.flatMap fun m => f m :: g m).foldl op b =
      (ms.map fun m => (g m).foldl op (f m)).foldl op b := by
  induction ms generalizing b with
  | nil => rfl
  | cons m ms ih =>
    rw [List.flatMap_cons, List.foldl_append, List.foldl_cons, List.foldl_assoc, ih,
      List.map_cons, List.foldl_cons]

/-- Tells that `p` applies the operation `op`, and that `q` negates the right operand first. -/
private structure Family (op : Bool → Bool → Bool) (p q : Connective) : Prop where
  plain : p.isNegated = false
  negated : q.isNegated = true
  apply_plain (x y : Bool) : p.apply x y = op x y
  apply_negated (x y : Bool) : q.apply x y = op x (!y)
  combine_plain (b : Bool) (bs : List Bool) : p.combine (b :: bs) = bs.foldl op b
  combine_negated (b : Bool) (bs : List Bool) : q.combine (b :: bs) = (bs.map (!·)).foldl op b

namespace Family

variable {op : Bool → Bool → Bool} {p q : Connective}

private theorem foldLeft_eq (h : Family op p q) {k : Chain Bool}
    (hk : ∀ c ∈ k.connectives, c = p ∨ c = q) :
    k.foldLeft = (k.tail.map fun t => t.1.signed t.2).foldl op k.head := by
  apply Chain.foldLeft_eq
  intro c hc x y
  obtain rfl | rfl := hk c hc
  · rw [h.apply_plain, Connective.signed, if_neg (by simp [h.plain])]
  · rw [h.apply_negated, Connective.signed, if_pos h.negated]

private theorem regrouped_negated (h : Family op p q) {k : Chain Bool}
    (hk : ∀ c ∈ k.connectives, c = q) : regrouped [q] k = k.foldLeft := by
  rw [h.foldLeft_eq fun c hc => Or.inr (hk c hc), regrouped]
  obtain ⟨m, ms, hs, hh, ht⟩ := exists_splitOn q k
  -- no connective is left inside the parts
  have hnil : ∀ n ∈ k.splitOn q, n.tail = [] := by
    intro n hn
    apply tail_eq_nil
    intro c hc
    have hc' := mem_connectives_of_mem_splitOn hn hc
    exact hc'.2 (hk c hc'.1)
  have hms : (ms.flatMap fun n => (q, n.head) :: n.tail) = ms.map fun n => (q, n.head) := by
    rw [List.map_eq_flatMap]
    apply List.flatMap_congr
    intro n hn
    rw [hnil n (by simp [hs, hn])]
  split_ifs with hc
  · rw [hs, List.map_cons, h.combine_negated, ht, hnil m (by simp [hs]), List.nil_append, hms,
      hh.symm]
    simp [regrouped, Connective.signed, h.negated, Function.comp_def]
  · have htail : k.tail = [] := tail_eq_nil fun c hm => hc (hk c hm ▸ hm)
    simp [regrouped, htail]

/-- Splitting at the plain connective first and at the negated one next is folding from the
left. -/
private theorem regrouped_eq [Std.Associative op] (h : Family op p q) {k : Chain Bool}
    (hk : ∀ c ∈ k.connectives, c = p ∨ c = q) : regrouped [p, q] k = k.foldLeft := by
  obtain ⟨m, ms, hs, hh, ht⟩ := exists_splitOn p k
  have hpart : ∀ n ∈ k.splitOn p, regrouped [q] n =
      (n.tail.map fun t => t.1.signed t.2).foldl op n.head := by
    intro n hn
    have hconn : ∀ c ∈ n.connectives, c = q := by
      intro c hc
      have hc' := mem_connectives_of_mem_splitOn hn hc
      exact (hk c hc'.1).resolve_left hc'.2
    rw [h.regrouped_negated hconn, h.foldLeft_eq fun c hc => Or.inr (hconn c hc)]
  rw [regrouped]
  split_ifs with hc
  · rw [h.foldLeft_eq hk, List.map_congr_left hpart, hs, List.map_cons, h.combine_plain, ht,
      List.map_append, List.foldl_append, List.map_flatMap, ← hh]
    simp only [List.map_cons, Connective.signed, h.plain]
    rw [foldl_flatMap_cons]
    rfl
  · exact h.regrouped_negated fun c hm => (hk c hm).resolve_left fun he => hc (he ▸ hm)

end Family

private theorem foldl_and (b : Bool) (bs : List Bool) :
    bs.foldl (· && ·) b = (b && bs.all id) := by
  induction bs generalizing b with
  | nil => simp
  | cons d bs ih => rw [List.foldl_cons, ih, List.all_cons, Bool.and_assoc, id_eq]

private theorem foldl_or (b : Bool) (bs : List Bool) :
    bs.foldl (· || ·) b = (b || bs.any id) := by
  induction bs generalizing b with
  | nil => simp
  | cons d bs ih => rw [List.foldl_cons, ih, List.any_cons, Bool.or_assoc, id_eq]

private theorem family_and : Family (· && ·) .and .andNot where
  plain := rfl
  negated := rfl
  apply_plain _ _ := rfl
  apply_negated _ _ := rfl
  combine_plain b bs := by rw [Connective.combine_and, foldl_and]
  combine_negated b bs := by
    rw [Connective.combine_andNot, foldl_and, List.all_map]
    rfl

private theorem family_or : Family (· || ·) .or .orNot where
  plain := rfl
  negated := rfl
  apply_plain _ _ := rfl
  apply_negated _ _ := rfl
  combine_plain b bs := by rw [Connective.combine_or, foldl_or]
  combine_negated b bs := by
    rw [Connective.combine_orNot, foldl_or, List.any_map]
    rfl

/-! ### Runs -/

private theorem splitOn_modifyHead (f : α → α) (c : Connective) (k : Chain α) :
    (k.modifyHead f).splitOn c = (k.splitOn c).modifyHead (modifyHead f) := by
  cases k with
  | last x => rfl
  | join x d rest =>
    rw [modifyHead, splitOn, splitOn]
    obtain ⟨l, ls, hs⟩ := List.exists_cons_of_ne_nil (splitOn_ne_nil c rest)
    split_ifs with hd
    · rfl
    · rw [hs]
      rfl

theorem runs_splitOn {c : Connective} (hc : c.isConjunctive = false) (k : Chain α) :
    k.runs.splitOn c = (k.splitOn c).map runs := by
  induction k with
  | last x => rfl
  | join x d rest ih =>
    obtain ⟨l, ls, hs⟩ := List.exists_cons_of_ne_nil (splitOn_ne_nil c rest)
    rw [hs, List.map_cons] at ih
    rw [runs, splitOn, hs]
    split_ifs with hd hdc hdc
    · simp [hdc, hc] at hd
    · rw [splitOn_modifyHead, ih]
      simp [runs, hd]
    · rw [splitOn, if_pos hdc, ih]
      rfl
    · rw [splitOn, if_neg hdc, ih]
      simp [runs, hd]

private theorem connectives_modifyHead (f : α → α) (k : Chain α) :
    (k.modifyHead f).connectives = k.connectives := by
  cases k <;> rfl

theorem connectives_runs (k : Chain α) :
    k.runs.connectives = k.connectives.filter fun c => !c.isConjunctive := by
  induction k with
  | last x => rfl
  | join x c rest ih =>
    rw [runs, connectives]
    split_ifs with hc
    · rw [connectives_modifyHead, ih, List.filter_cons_of_neg (by simp [hc])]
    · rw [connectives, ih, List.filter_cons_of_pos (by simp [hc])]

theorem runs_of_conjunctive {k : Chain α} (h : ∀ c ∈ k.connectives, c.isConjunctive = true) :
    k.runs = last k := by
  induction k with
  | last x => rfl
  | join x c rest ih =>
    rw [runs, if_pos (h c (by simp [connectives])),
      ih fun d hd => h d (by simp [connectives, hd])]
    rfl

theorem isConjunctive_of_mem_runs {k m : Chain α} {c : Connective} (hm : m ∈ k.runs.operands)
    (hc : c ∈ m.connectives) : c.isConjunctive = true := by
  induction k generalizing m with
  | last x =>
    obtain rfl := List.mem_singleton.mp hm
    simp [connectives] at hc
  | join x d rest ih =>
    rw [runs] at hm
    split_ifs at hm with hd
    · cases hr : rest.runs with
      | last l =>
        rw [hr] at hm ih
        obtain rfl := List.mem_singleton.mp hm
        rcases List.mem_cons.mp hc with rfl | hc
        · exact hd
        · exact ih (by simp [operands]) hc
      | join l e ls =>
        rw [hr] at hm ih
        rcases List.mem_cons.mp hm with rfl | hm
        · rcases List.mem_cons.mp hc with rfl | hc
          · exact hd
          · exact ih (by simp [operands]) hc
        · exact ih (by simp [operands, hm]) hc
    · rcases List.mem_cons.mp hm with rfl | hm
      · simp [connectives] at hc
      · exact ih hm hc

private theorem map_congr {f g : α → β} {k : Chain α} (h : ∀ x ∈ k.operands, f x = g x) :
    k.map f = k.map g := by
  induction k with
  | last x => rw [map, map, h x (by simp [operands])]
  | join x c rest ih =>
    rw [map, map, h x (by simp [operands]), ih fun y hy => h y (by simp [operands, hy])]

/-- Connectives between runs split the chain of the runs just as they split the chain itself. -/
theorem regrouped_runs {before after : List Connective} {k : Chain Bool}
    (hbefore : ∀ c ∈ before, c.isConjunctive = false)
    (hk : ∀ c ∈ k.connectives, c.isConjunctive = false → c ∈ before) :
    regrouped (before ++ after) k = regrouped before (k.runs.map (regrouped after)) := by
  induction before generalizing k with
  | nil =>
    have hconj : ∀ c ∈ k.connectives, c.isConjunctive = true := by
      intro c hc
      by_contra hne
      simpa using hk c hc (by simpa using hne)
    rw [runs_of_conjunctive hconj]
    rfl
  | cons c before ih =>
    have hc := hbefore c (by simp)
    have hih : ∀ l : Chain Bool, c ∉ l.connectives → (∀ d ∈ l.connectives, d ∈ k.connectives) →
        regrouped (before ++ after) l = regrouped before (l.runs.map (regrouped after)) := by
      intro l hcl hl
      apply ih fun d hd => hbefore d (by simp [hd])
      intro d hd hconj
      have hmem := hk d (hl d hd) hconj
      exact (List.mem_cons.mp hmem).resolve_left fun he => hcl (he ▸ hd)
    rw [List.cons_append, regrouped, regrouped, connectives_map, connectives_runs]
    by_cases hck : c ∈ k.connectives
    · rw [if_pos hck, if_pos (by simp [hck, hc]), splitOn_map, runs_splitOn hc, List.map_map,
        List.map_map]
      congr 1
      apply List.map_congr_left
      intro l hl
      exact hih l (fun hm => (mem_connectives_of_mem_splitOn hl hm).2 rfl) fun d hd =>
        (mem_connectives_of_mem_splitOn hl hd).1
    · rw [if_neg hck, if_neg (by simp [hck])]
      exact hih k hck fun d hd => hd

/-- Grouping by the binding order keeps the value of a chain. -/
theorem regrouped_bindingOrder {k : Chain Bool} (hk : ∀ c ∈ k.connectives, c.isKnown = true) :
    regrouped Connective.bindingOrder k = k.value := by
  have hruns : regrouped Connective.bindingOrder k =
      regrouped [.or, .orNot] (k.runs.map (regrouped [.and, .andNot])) := by
    apply @regrouped_runs [.or, .orNot] [.and, .andNot] k
    · simp [Connective.isConjunctive]
    · intro c hc hconj
      have hknown := hk c hc
      cases c <;> simp_all [Connective.isKnown, Connective.isConjunctive]
  have hinner : ∀ m ∈ k.runs.operands, regrouped [.and, .andNot] m = m.foldLeft := by
    intro m hm
    apply family_and.regrouped_eq
    intro c hc
    have hconj := isConjunctive_of_mem_runs hm hc
    cases c <;> simp_all [Connective.isConjunctive]
  rw [hruns, map_congr hinner, value]
  apply family_or.regrouped_eq
  intro c hc
  rw [connectives_map, connectives_runs, List.mem_filter] at hc
  have hknown := hk c hc.1
  cases c <;> simp_all [Connective.isKnown, Connective.isConjunctive]

end Chain

mutual

def Operand.value (v : Text → Bool) : Operand → Bool
  | .term t => v t
  | .bracketed e => (Expression.values v e).value

def Expression.values (v : Text → Bool) : Expression → Chain Bool
  | .last o => .last (o.value v)
  | .join o c rest => .join (o.value v) c (Expression.values v rest)

end

def Expression.value (v : Text → Bool) (e : Expression) : Bool := (Expression.values v e).value

/-- The truth value of a term: that of its leaf. -/
def termTruth (mode : FieldMode) (v : Leaf → Bool) (t : Text) : Bool :=
  match Query.readLeaf mode t.trim with
  | .ok l => v l
  | .error _ => false

namespace Expression

private theorem truth_termNode (mode : FieldMode) (v : Leaf → Bool) (t : Text) :
    (termNode mode t).truth v = termTruth mode v t := by
  rw [termNode, termTruth]
  cases Query.readLeaf mode t.trim <;> rfl

private theorem connectives_values (v : Text → Bool) (e : Expression) :
    (values v e).connectives = e.connectives := by
  induction e with
  | last o => rfl
  | join o c rest ih => rw [values, Chain.connectives, Chain.connectives, ih]

private theorem truth_tree_of_nodes {mode : FieldMode} {v : Leaf → Bool} {e : Expression}
    (hk : ∀ c, .keyword c ∈ e.items → c.isKnown = true)
    (h : (nodes mode e).map (Node.truth v) = values (termTruth mode v) e) :
    (tree mode e).truth v = value (termTruth mode v) e := by
  have hknown : ∀ c ∈ (values (termTruth mode v) e).connectives, c.isKnown = true := by
    intro c hc
    rw [connectives_values] at hc
    exact hk c (Query.keyword_mem_items hc)
  rw [tree, Chain.truth_grouped, h, Chain.regrouped_bindingOrder hknown, value]

mutual

private theorem truth_operand (mode : FieldMode) (v : Leaf → Bool) : ∀ o : Operand,
    (∀ c, .keyword c ∈ o.items → c.isKnown = true) →
      (o.node mode).truth v = o.value (termTruth mode v)
  | .term t, _ => truth_termNode mode v t
  | .bracketed e, hk => by
    have he : ∀ c, .keyword c ∈ items e → c.isKnown = true := fun c hc =>
      hk c (by simp [Operand.items, hc])
    exact truth_tree_of_nodes he (truth_nodes mode v e he)

private theorem truth_nodes (mode : FieldMode) (v : Leaf → Bool) : ∀ e : Expression,
    (∀ c, .keyword c ∈ items e → c.isKnown = true) →
      (nodes mode e).map (Node.truth v) = values (termTruth mode v) e
  | .last o, hk => by
    rw [nodes, Chain.map, values, truth_operand mode v o hk]
  | .join o c rest, hk => by
    rw [nodes, Chain.map, values,
      truth_operand mode v o fun d hd => hk d (by simp [items, hd]),
      truth_nodes mode v rest fun d hd => hk d (by simp [items, hd])]

end

theorem truth_tree {mode : FieldMode} {e : Expression}
    (hk : ∀ c, .keyword c ∈ e.items → c.isKnown = true) (v : Leaf → Bool) :
    (e.tree mode).truth v = e.value (termTruth mode v) :=
  truth_tree_of_nodes hk (truth_nodes mode v e hk)

end Expression

namespace Configuration

open Query

private theorem truth_rooted (v : Leaf → Bool) (n : Node) : (rooted n).truth v = n.truth v := by
  cases n with
  | leaf l => simp [rooted, Node.term, Node.truth, Node.truths]
  | group c xs => rfl
  | gap k => rfl

/-- The tree of a query is true exactly if its items are, read from left to right. -/
theorem truth_of_parse {c : Configuration} (hc : c.check = .ok ()) {query : Text} {n : Node}
    (h : c.parse query = .ok n) :
    ∃ e : Expression,
      (∀ e' : Expression, e'.items = itemsOf c.defaultConnective query ↔ e' = e) ∧
      (∀ t, .term t ∈ itemsOf c.defaultConnective query →
        ∃ l, readLeaf c.fieldMode t.trim = .ok l) ∧
      ∀ v : Leaf → Bool, n.truth v = e.value (termTruth c.fieldMode v) := by
  obtain ⟨_, hk, _, _⟩ := check_eq_ok_iff.mp hc
  obtain ⟨_, _, e, he, hread, _, rfl⟩ := derivation_of_parse hk h
  have hknown : ∀ d, .keyword d ∈ e.items → d.isKnown = true := by
    intro d hd
    rw [he] at hd
    exact isKnown_of_keyword_itemsOf hk hd
  refine ⟨e, Expression.items_eq_iff he, hread, fun v => ?_⟩
  rw [truth_rooted]
  exact Expression.truth_tree hknown v

theorem truth_of_parse_mixed_chain :
    standard.check = .ok () ∧
      ∃ e : Expression,
        e.items = [.term "a".toList, .keyword .orNot, .term "b".toList, .keyword .or,
          .term "c".toList, .keyword .andNot, .term "d".toList, .keyword .and,
          .term "e".toList] ∧
        ∀ v : Leaf → Bool,
          Node.truth v
            (.group .or
              [.group .orNot [.leaf ⟨[], "a".toList, false⟩, .leaf ⟨[], "b".toList, false⟩],
                .group .and
                  [.group .andNot [.leaf ⟨[], "c".toList, false⟩, .leaf ⟨[], "d".toList, false⟩],
                    .leaf ⟨[], "e".toList, false⟩]]) =
            e.value (termTruth .preserve v) := by
  have hc : standard.check = .ok () := rfl
  have hparse : standard.parse "a OR NOT b OR c AND NOT d e".toList =
      .ok (.group .or
        [.group .orNot [.leaf ⟨[], "a".toList, false⟩, .leaf ⟨[], "b".toList, false⟩],
          .group .and
            [.group .andNot [.leaf ⟨[], "c".toList, false⟩, .leaf ⟨[], "d".toList, false⟩],
              .leaf ⟨[], "e".toList, false⟩]]) := by
    decide +kernel
  obtain ⟨e, he, _, hv⟩ := truth_of_parse hc hparse
  have hitems : itemsOf standard.defaultConnective "a OR NOT b OR c AND NOT d e".toList =
      [.term "a".toList, .keyword .orNot, .term "b".toList, .keyword .or, .term "c".toList,
        .keyword .andNot, .term "d".toList, .keyword .and, .term "e".toList] := by
    decide +kernel
  exact ⟨hc, e, ((he e).mpr rfl).trans hitems, hv⟩

end Configuration

end BooleanSearch
