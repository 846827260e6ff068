import BooleanSearch.Proofs.Walking
import BooleanSearch.Query.Item
import BooleanSearch.Query.Leaf

/-!
# The grammar of items

An expression is a chain of operands with a keyword between any two neighbours, and an operand is
a term or an expression in brackets. An expression is determined by its items. Its tree comes from
splitting each chain at all its own keywords of the loosest connective in it.
-/

namespace BooleanSearch

/-- Operands with a connective between any two neighbours. -/
inductive Chain (α : Type) where
  | last (x : α)
  | join (x : α) (c : Connective) (rest : Chain α)

namespace Chain

variable {α β : Type}

def head : Chain α → α
  | last x => x
  | join x _ _ => x

def operands : Chain α → List α
  | last x => [x]
  | join x _ rest => x :: operands rest

def connectives : Chain α → List Connective
  | last _ => []
  | join _ c rest => c :: connectives rest

def map (f : α → β) : Chain α → Chain β
  | last x => last (f x)
  | join x c rest => join (f x) c (map f rest)

def splitOn (c : Connective) : Chain α → List (Chain α)
  | last x => [last x]
  | join x d rest =>
    if d = c then last x :: splitOn c rest else (splitOn c rest).modifyHead (join x d)

def append (c : Connective) : Chain α → Chain α → Chain α
  | last x, k => join x c k
  | join x d rest, k => join x d (append c rest k)

def link (c : Connective) : Chain α → List (Chain α) → Chain α
  | k, [] => k
  | k, l :: ks => append c k (link c l ks)

def uniform (c : Connective) (x : α) : List α → Chain α
  | [] => last x
  | y :: ys => join x c (uniform c y ys)

@[simp] theorem connectives_map (f : α → β) (k : Chain α) :
    (k.map f).connectives = k.connectives := by
  induction k with
  | last x => rfl
  | join x c rest ih => simp [map, connectives, ih]

theorem splitOn_ne_nil (c : Connective) (k : Chain α) : k.splitOn c ≠ [] := by
  cases k with
  | last x => simp [splitOn]
  | join x d rest =>
    rw [splitOn]
    split_ifs with h
    · simp
    · have hne := splitOn_ne_nil c rest
      simpa using hne

theorem splitOn_map (f : α → β) (c : Connective) (k : Chain α) :
    (k.map f).splitOn c = (k.splitOn c).map (map f) := by
  induction k with
  | last x => rfl
  | join x d rest ih =>
    rw [map, splitOn, splitOn, ih]
    obtain ⟨l, ks, hk⟩ := List.exists_cons_of_ne_nil (splitOn_ne_nil c rest)
    by_cases h : d = c <;> simp [h, hk, map]

theorem length_splitOn (c : Connective) (k : Chain α) :
    (k.splitOn c).length = k.connectives.count c + 1 := by
  induction k with
  | last x => rfl
  | join x d rest ih =>
    rw [splitOn, connectives, List.count_cons]
    by_cases h : d = c <;> simp [h, ih]

theorem connectives_uniform (c : Connective) (x : α) (xs : List α) :
    (uniform c x xs).connectives = List.replicate xs.length c := by
  induction xs generalizing x with
  | nil => rfl
  | cons y ys ih => rw [uniform, connectives, ih, List.length_cons, List.replicate_succ]

theorem splitOn_uniform (c : Connective) (x : α) (xs : List α) :
    (uniform c x xs).splitOn c = (x :: xs).map last := by
  induction xs generalizing x with
  | nil => rfl
  | cons y ys ih =>
    rw [uniform, splitOn, if_pos rfl, ih]
    rfl

theorem mem_connectives_of_mem_splitOn {c d : Connective} {k l : Chain α}
    (hl : l ∈ k.splitOn c) (hd : d ∈ l.connectives) : d ∈ k.connectives ∧ d ≠ c := by
  induction k generalizing l with
  | last x =>
    rw [splitOn, List.mem_singleton] at hl
    subst hl
    simp [connectives] at hd
  | join x e rest ih =>
    rw [splitOn] at hl
    split_ifs at hl with he
    · rcases List.mem_cons.mp hl with rfl | hl
      · simp [connectives] at hd
      · have h := ih hl hd
        exact ⟨by simp [connectives, h.1], h.2⟩
    · obtain ⟨m, ms, hm⟩ := List.exists_cons_of_ne_nil (splitOn_ne_nil c rest)
      rw [hm, List.modifyHead_cons] at hl
      rcases List.mem_cons.mp hl with rfl | hl
      · rcases List.mem_cons.mp hd with rfl | hd
        · exact ⟨by simp [connectives], he⟩
        · have h := ih (by simp [hm]) hd
          exact ⟨by simp [connectives, h.1], h.2⟩
      · have h := ih (by simp [hm, hl]) hd
        exact ⟨by simp [connectives, h.1], h.2⟩

theorem mem_operands_of_mem_splitOn {c : Connective} {k l : Chain α} {x : α}
    (hl : l ∈ k.splitOn c) (hx : x ∈ l.operands) : x ∈ k.operands := by
  induction k generalizing l with
  | last y =>
    obtain rfl := List.mem_singleton.mp hl
    exact hx
  | join y d rest ih =>
    rw [operands, List.mem_cons]
    rw [splitOn] at hl
    split_ifs at hl with hd
    · rcases List.mem_cons.mp hl with rfl | hl
      · exact Or.inl (List.mem_singleton.mp hx)
      · exact Or.inr (ih hl hx)
    · obtain ⟨m, ms, hm⟩ := List.exists_cons_of_ne_nil (splitOn_ne_nil c rest)
      rw [hm, List.modifyHead_cons] at hl
      rcases List.mem_cons.mp hl with rfl | hl
      · rcases List.mem_cons.mp hx with rfl | hx
        · exact Or.inl rfl
        · exact Or.inr (ih (by simp [hm]) hx)
      · exact Or.inr (ih (by simp [hm, hl]) hx)

/-- Groups the operands of a chain: it is split at the first connective of the order that
occurs, and its parts at those that come after. -/
def grouped : (order : List Connective) → Chain Node → Node
  | [], k => k.head
  | c :: order, k =>
    if c ∈ k.connectives then .group c ((k.splitOn c).map (grouped order)) else grouped order k

@[simp] theorem grouped_last (order : List Connective) (n : Node) : grouped order (last n) = n := by
  induction order with
  | nil => rfl
  | cons c order ih => simpa [grouped, connectives] using ih

theorem grouped_append {before after : List Connective} {k : Chain Node}
    (h : ∀ c ∈ before, c ∉ k.connectives) : grouped (before ++ after) k = grouped after k := by
  induction before with
  | nil => rfl
  | cons c before ih =>
    rw [List.cons_append, grouped, if_neg (h c (by simp)), ih fun d hd => h d (by simp [hd])]

/-- A chain is split at all occurrences of its first connective in the order, and each part is
grouped by the same order. -/
theorem grouped_of_first {before after : List Connective} {c : Connective} {k : Chain Node}
    (hc : c ∈ k.connectives) (h : ∀ d ∈ before, d ∉ k.connectives) :
    grouped (before ++ c :: after) k =
      .group c ((k.splitOn c).map (grouped (before ++ c :: after))) := by
  rw [grouped_append h, grouped, if_pos hc]
  congr 1
  apply List.map_congr_left
  intro l hl
  have hbefore : ∀ d ∈ before, d ∉ l.connectives := by
    intro d hd hm
    exact h d hd (mem_connectives_of_mem_splitOn hl hm).1
  have hself : c ∉ l.connectives := fun hm => (mem_connectives_of_mem_splitOn hl hm).2 rfl
  rw [grouped_append hbefore, grouped, if_neg hself]

end Chain

/-- A term, or an expression in brackets. -/
inductive Operand where
  | term (text : Text)
  | bracketed (inner : Chain Operand)

abbrev Expression := Chain Operand

mutual

def Operand.items : Operand → List Item
  | .term t => [.term t]
  | .bracketed e => .opening :: (Expression.items e ++ [.closing])

def Expression.items : Expression → List Item
  | .last o => o.items
  | .join o c rest => o.items ++ .keyword c :: Expression.items rest

end

/-- The node of a term: its leaf, read off the text without the spaces around it. A text that
reads as no leaf leaves a gap. -/
def termNode (mode : FieldMode) (t : Text) : Node :=
  match Query.readLeaf mode t.trim with
  | .ok l => .leaf l
  | .error _ => .gap .leaf

/-- The connectives from the loosest to the tightest: the `OR` family splits further out than the
`AND` family, and in each of them the plain connective before the negated one. -/
def Connective.bindingOrder : List Connective := [.or, .orNot, .and, .andNot]

theorem Connective.splitOrder_eq : Connective.splitOrder = Connective.bindingOrder := rfl

mutual

def Operand.node (mode : FieldMode) : Operand → Node
  | .term t => termNode mode t
  | .bracketed e => (Expression.nodes mode e).grouped Connective.bindingOrder

def Expression.nodes (mode : FieldMode) : Expression → Chain Node
  | .last o => .last (o.node mode)
  | .join o c rest => .join (o.node mode) c (Expression.nodes mode rest)

end

/-- The tree that the grammar assigns to an expression. -/
def Expression.tree (mode : FieldMode) (e : Expression) : Node :=
  (Expression.nodes mode e).grouped Connective.bindingOrder

namespace Expression

theorem nodes_eq_map (mode : FieldMode) (e : Expression) :
    nodes mode e = e.map (Operand.node mode) := by
  induction e with
  | last o => rfl
  | join o c rest ih => simp [nodes, Chain.map, ih]

@[simp] theorem tree_last (mode : FieldMode) (o : Operand) : tree mode (.last o) = o.node mode := by
  simp [tree, nodes]

theorem tree_term (mode : FieldMode) (t : Text) :
    tree mode (.last (.term t)) = termNode mode t := by
  rw [tree_last, Operand.node]

theorem tree_bracketed (mode : FieldMode) (e : Expression) :
    tree mode (.last (.bracketed e)) = tree mode e := by
  rw [tree_last, Operand.node, tree]

theorem tree_of_first {mode : FieldMode} {before after : List Connective} {c : Connective}
    {e : Expression} (horder : Connective.bindingOrder = before ++ c :: after)
    (hc : c ∈ e.connectives) (h : ∀ d ∈ before, d ∉ e.connectives) :
    tree mode e = .group c ((e.splitOn c).map (tree mode)) := by
  rw [tree, nodes_eq_map, horder, Chain.grouped_of_first (by simpa using hc) (by simpa using h),
    Chain.splitOn_map, List.map_map]
  congr 1
  apply List.map_congr_left
  intro l _
  simp only [Function.comp_apply, tree, nodes_eq_map, horder]

private def Ends : List Item → Prop
  | [] => True
  | i :: _ => i = .closing

mutual

private theorem operand_items_append_inj : ∀ (o o' : Operand) (r r' : List Item),
    o.items ++ r = o'.items ++ r' → o = o' ∧ r = r'
  | .term t, .term t', r, r', h => by simpa [Operand.items] using h
  | .term t, .bracketed e', r, r', h => by simp [Operand.items] at h
  | .bracketed e, .term t', r, r', h => by simp [Operand.items] at h
  | .bracketed e, .bracketed e', r, r', h => by
    simp only [Operand.items, List.cons_append, List.append_assoc, List.cons.injEq, true_and,
      List.nil_append] at h
    have hi := items_append_inj e e' (.closing :: r) (.closing :: r') rfl rfl h
    exact ⟨by rw [hi.1], (List.cons.inj hi.2).2⟩

private theorem items_append_inj : ∀ (e e' : Expression) (r r' : List Item),
    Ends r → Ends r' → items e ++ r = items e' ++ r' → e = e' ∧ r = r'
  | .last o, .last o', r, r', _, _, h => by
    have hi := operand_items_append_inj o o' r r' h
    exact ⟨by rw [hi.1], hi.2⟩
  | .last o, .join o' c' e', r, r', hr, _, h => by
    simp only [items, List.append_assoc] at h
    have hi := operand_items_append_inj o o' r _ h
    simp [hi.2, Ends] at hr
  | .join o c e, .last o', r, r', _, hr', h => by
    simp only [items, List.append_assoc] at h
    have hi := operand_items_append_inj o o' _ r' h
    simp [← hi.2, Ends] at hr'
  | .join o c e, .join o' c' e', r, r', hr, hr', h => by
    simp only [items, List.append_assoc] at h
    have hi := operand_items_append_inj o o' _ _ h
    simp only [List.cons_append, List.cons.injEq, Item.keyword.injEq] at hi
    obtain ⟨rfl, rfl, ht⟩ := hi
    have hrest := items_append_inj e e' r r' hr hr' ht
    exact ⟨by rw [hrest.1], hrest.2⟩

end

/-- The grammar is unambiguous: no two expressions have the same items. -/
theorem items_injective {e e' : Expression} (h : e.items = e'.items) : e = e' := by
  have hi := items_append_inj e e' [] [] trivial trivial (by simpa using h)
  exact hi.1

theorem items_eq_iff {e : Expression} {is : List Item} (h : e.items = is) (e' : Expression) :
    e'.items = is ↔ e' = e := by
  constructor
  · intro h'
    exact items_injective (h'.trans h.symm)
  · rintro rfl
    exact h

theorem items_append (c : Connective) (e e' : Expression) :
    items (e.append c e') = e.items ++ .keyword c :: e'.items := by
  induction e with
  | last o => rfl
  | join o d rest ih => simp [Chain.append, items, ih]

theorem items_link (c : Connective) (e : Expression) (es : List Expression) :
    items (e.link c es) = List.intercalate [.keyword c] (e.items :: es.map items) := by
  induction es generalizing e with
  | nil => simp [Chain.link, List.intercalate]
  | cons e' es ih =>
    rw [Chain.link, items_append, ih]
    simp [List.intercalate, List.intersperse_cons_cons]

end Expression

namespace Item

/-! ### Cutting a sequence of items -/

def rise : Item → Int
  | term _ => 0
  | opening => 1
  | closing => -1
  | keyword _ => 0

/-- The items between the occurrences of a keyword at bracket depth zero, for a sequence that
begins inside `depth` brackets. -/
def splitFrom (c : Connective) (depth : Int) : List Item → List (List Item)
  | [] => [[]]
  | i :: is =>
    if i = keyword c ∧ depth = 0 then [] :: splitFrom c depth is
    else (splitFrom c (depth + i.rise) is).modifyHead (i :: ·)

def closeFrom (depth : Nat) : List Item → Option (List Item × List Item)
  | [] => none
  | opening :: is => (closeFrom (depth + 1) is).map (Prod.map (opening :: ·) id)
  | closing :: is =>
    if depth = 0 then some ([], is)
    else (closeFrom (depth - 1) is).map (Prod.map (closing :: ·) id)
  | i :: is => (closeFrom depth is).map (Prod.map (i :: ·) id)

theorem splitFrom_ne_nil (c : Connective) (depth : Int) (is : List Item) :
    splitFrom c depth is ≠ [] := by
  induction is generalizing depth with
  | nil => simp [splitFrom]
  | cons i is ih =>
    rw [splitFrom]
    split_ifs <;> simp [ih]

theorem intercalate_splitFrom (c : Connective) (depth : Int) (is : List Item) :
    List.intercalate [keyword c] (splitFrom c depth is) = is := by
  induction is generalizing depth with
  | nil => rfl
  | cons i is ih =>
    rw [splitFrom]
    obtain ⟨s, ss, hs⟩ := List.exists_cons_of_ne_nil (splitFrom_ne_nil c (depth + i.rise) is)
    split_ifs with h
    · have he : depth + i.rise = depth := by simp [h.1, rise]
      rw [he] at hs
      have hi := ih depth
      rw [hs] at hi ⊢
      rw [h.1]
      simpa [List.intercalate, List.intersperse_cons_cons] using hi
    · have hi := ih (depth + i.rise)
      rw [hs] at hi ⊢
      cases ss <;> simpa [List.intercalate, List.intersperse_cons_cons] using hi

theorem eq_append_of_closeFrom {depth : Nat} {is js ks : List Item}
    (h : closeFrom depth is = some (js, ks)) : is = js ++ closing :: ks := by
  have hstep {depth : Nat} {i : Item} {is js : List Item}
      (ih : ∀ {js}, closeFrom depth is = some (js, ks) → is = js ++ closing :: ks)
      (h : (closeFrom depth is).map (Prod.map (i :: ·) id) = some (js, ks)) :
      i :: is = js ++ closing :: ks := by
    obtain ⟨⟨a, b⟩, hp, he⟩ := Option.map_eq_some_iff.mp h
    simp only [Prod.map_apply, id_eq, Prod.mk.injEq] at he
    obtain ⟨rfl, rfl⟩ := he
    rw [ih hp]
    rfl
  fun_induction closeFrom depth is generalizing js with
  | case1 => simp at h
  | case2 depth is ih => exact hstep ih h
  | case3 is =>
    simp only [Option.some.injEq, Prod.mk.injEq] at h
    rw [← h.1, ← h.2]
    rfl
  | case4 depth is hd ih => exact hstep ih h
  | case5 depth i is _ _ ih => exact hstep ih h

end Item

namespace Expression

open Item

private theorem modifyHead_append_comp {α : Type} (a b : List α) (ls : List (List α)) :
    (ls.modifyHead (b ++ ·)).modifyHead (a ++ ·) = ls.modifyHead ((a ++ b) ++ ·) := by
  cases ls <;> simp

private theorem splitFrom_cons {c : Connective} {depth : Int} {i : Item} {is : List Item}
    (h : ¬(i = keyword c ∧ depth = 0)) :
    splitFrom c depth (i :: is) = (splitFrom c (depth + i.rise) is).modifyHead ([i] ++ ·) := by
  rw [splitFrom, if_neg h]
  rfl

mutual

private theorem splitFrom_operand_append (c : Connective) : ∀ (o : Operand) (depth : Int)
    (r : List Item), 0 ≤ depth →
    splitFrom c depth (o.items ++ r) = (splitFrom c depth r).modifyHead (o.items ++ ·)
  | .term t, depth, r, _ => by
    have h : splitFrom c depth (.term t :: r) =
        (splitFrom c (depth + rise (.term t)) r).modifyHead ([.term t] ++ ·) :=
      splitFrom_cons (by simp)
    simpa [Operand.items, rise] using h
  | .bracketed e, depth, r, hd => by
    rw [Operand.items, List.cons_append, splitFrom_cons (by simp), List.append_assoc,
      splitFrom_items_append c e _ _ (by simp only [rise]; omega),
      List.singleton_append, splitFrom_cons (by simp), modifyHead_append_comp,
      modifyHead_append_comp]
    have hd' : depth + rise opening + rise closing = depth := by
      simp only [rise]
      omega
    rw [hd']
    simp

private theorem splitFrom_items_append (c : Connective) : ∀ (e : Expression) (depth : Int)
    (r : List Item), 0 < depth →
    splitFrom c depth (items e ++ r) = (splitFrom c depth r).modifyHead (items e ++ ·)
  | .last o, depth, r, hd => splitFrom_operand_append c o depth r (by omega)
  | .join o d rest, depth, r, hd => by
    have hne : ¬(keyword d = keyword c ∧ depth = 0) := fun h => by omega
    rw [items, List.append_assoc, splitFrom_operand_append c o depth _ (by omega),
      List.cons_append, splitFrom_cons hne]
    have hd' : depth + rise (keyword d) = depth := by simp [rise]
    rw [hd', splitFrom_items_append c rest depth r hd, modifyHead_append_comp,
      modifyHead_append_comp]
    simp

end

theorem splitFrom_items (c : Connective) (e : Expression) :
    splitFrom c 0 e.items = (e.splitOn c).map items := by
  induction e with
  | last o =>
    have h := splitFrom_operand_append c o 0 [] (Int.le_refl 0)
    simpa [splitFrom, items, Chain.splitOn] using h
  | join o d rest ih =>
    rw [items, splitFrom_operand_append c o 0 _ (Int.le_refl 0), Chain.splitOn]
    by_cases h : d = c
    · subst h
      rw [splitFrom, if_pos ⟨rfl, rfl⟩, ih]
      simp [items]
    · have hne : ¬(keyword d = keyword c ∧ (0 : Int) = 0) := by simp [h]
      obtain ⟨l, ls, hl⟩ := List.exists_cons_of_ne_nil (Chain.splitOn_ne_nil c rest)
      rw [splitFrom_cons hne, if_neg h]
      simp only [rise, Int.add_zero]
      rw [ih, hl]
      simp [items]

mutual

private theorem closeFrom_operand_append : ∀ (o : Operand) (depth : Nat) (r : List Item),
    closeFrom depth (o.items ++ r) = (closeFrom depth r).map (Prod.map (o.items ++ ·) id)
  | .term t, depth, r => rfl
  | .bracketed e, depth, r => by
    rw [Operand.items, List.cons_append, closeFrom, List.append_assoc,
      closeFrom_items_append e, List.singleton_append, closeFrom, if_neg (by omega),
      Nat.add_sub_cancel]
    simp only [Option.map_map]
    congr 1
    funext ⟨a, b⟩
    simp

theorem closeFrom_items_append : ∀ (e : Expression) (depth : Nat) (r : List Item),
    closeFrom depth (items e ++ r) = (closeFrom depth r).map (Prod.map (items e ++ ·) id)
  | .last o, depth, r => closeFrom_operand_append o depth r
  | .join o c rest, depth, r => by
    rw [items, List.append_assoc, closeFrom_operand_append o, List.cons_append, closeFrom,
      closeFrom_items_append rest]
    · simp only [Option.map_map]
      congr 1
      funext ⟨a, b⟩
      simp
    all_goals simp

end

end Expression

end BooleanSearch
