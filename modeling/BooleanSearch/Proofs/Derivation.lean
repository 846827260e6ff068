import BooleanSearch.Proofs.Leaves
import BooleanSearch.Proofs.Spelling
import BooleanSearch.Query.Grouping

/-!
# Grouping follows the grammar

Grouping a text that spells a sequence of items gives a node exactly if the items derive from the
grammar, every term reads as a leaf and the tree of the derivation fits into the levels left. The
node is then that tree.
-/

namespace BooleanSearch.Query

open Text Segment Item

/-! ### Pairs of brackets around all items -/

/-- Tells that the items `js` stand inside pairs of brackets, each of which wraps all of the
items inside it. -/
inductive Wrapped (js : List Item) : List Item → Prop
  | bare : Wrapped js js
  | wrap {is : List Item} (h : Wrapped js is)
      (hc : Item.closeFrom 0 (is ++ [.closing]) = some (is, [])) :
      Wrapped js (.opening :: (is ++ [.closing]))

theorem Wrapped.term_mem {js is : List Item} (h : Wrapped js is) {u : Text} :
    .term u ∈ is ↔ .term u ∈ js := by
  induction h with
  | bare => rfl
  | wrap _ _ ih => simp [ih]

theorem Wrapped.derive {js is : List Item} (h : Wrapped js is) {e : Expression}
    (he : e.items = js) :
    ∃ e' : Expression, e'.items = is ∧ ∀ mode, e'.tree mode = e.tree mode := by
  induction h with
  | bare => exact ⟨e, he, fun _ => rfl⟩
  | wrap _ _ ih =>
    obtain ⟨e', hi, ht⟩ := ih
    refine ⟨.last (.bracketed e'), ?_, fun mode => ?_⟩
    · rw [Expression.items, Operand.items, hi]
    · rw [Expression.tree_bracketed, ht]

private theorem bracketed_of_close {is : List Item} {e : Expression}
    (he : e.items = .opening :: (is ++ [.closing]))
    (hc : Item.closeFrom 0 (is ++ [.closing]) = some (is, [])) :
    ∃ e' : Expression, e = .last (.bracketed e') ∧ e'.items = is := by
  cases e with
  | last o =>
    cases o with
    | term t => simp [Expression.items, Operand.items] at he
    | bracketed e' =>
      rw [Expression.items, Operand.items, List.cons.injEq] at he
      exact ⟨e', rfl, List.append_cancel_right he.2⟩
  | join o c rest =>
    cases o with
    | term t => simp [Expression.items, Operand.items] at he
    | bracketed e' =>
      -- the first bracket closes before the keyword, not at the end
      let after : List Item := .keyword c :: Expression.items rest
      have hi : Expression.items e' ++ .closing :: after = is ++ [.closing] := by
        simpa [Expression.items, Operand.items] using he
      have hclose := Expression.closeFrom_items_append e' 0 (.closing :: after)
      rw [hi, hc] at hclose
      simp [Item.closeFrom, after] at hclose

theorem Wrapped.underive {js is : List Item} (h : Wrapped js is) {e : Expression}
    (he : e.items = is) :
    ∃ e' : Expression, e'.items = js ∧ ∀ mode, e.tree mode = e'.tree mode := by
  induction h generalizing e with
  | bare => exact ⟨e, he, fun _ => rfl⟩
  | wrap _ hc ih =>
    obtain ⟨e₁, rfl, hi⟩ := bracketed_of_close he hc
    obtain ⟨e', hi', ht⟩ := ih hi
    refine ⟨e', hi', fun mode => ?_⟩
    rw [Expression.tree_bracketed, ht]

theorem exists_wrapped {t : Text} {is : List Item} (h : Spells t is) (hl : Legible is) :
    ∃ js, Wrapped js is ∧ Legible js ∧ Spells (operandText t) js ∧
      (operandText t).trim = operandText t ∧ unwrap? (operandText t) = none := by
  have hmain : ∀ u : Text, u.trim = u → ∀ is, Spells u is → Legible is →
      ∃ js, Wrapped js is ∧ Legible js ∧ Spells (unwrapAll u) js ∧
        (unwrapAll u).trim = unwrapAll u ∧ unwrap? (unwrapAll u) = none := by
    intro u
    induction u using unwrapAll_induction with
    | none u hu =>
      intro ht is h hl
      rw [unwrapAll_of_none hu]
      exact ⟨is, .bare, hl, h, ht, hu⟩
    | some u v hv ih =>
      intro ht is h hl
      obtain ⟨ks, rfl, hc, hk⟩ := h.close_of_unwrap hl hv
      have hlk : Legible ks := hl.of_isInfix ⟨[.opening], [.closing], by simp⟩
      obtain ⟨js, hw, hrest⟩ := ih (trim_trim v) ks hk.trim hlk
      rw [unwrapAll_of_some hv]
      exact ⟨js, .wrap hw hc, hrest⟩
  exact hmain t.trim (trim_trim t) is h.trim hl

/-! ### One step of grouping -/

theorem rootSplit?_eq_none_iff {t : Text} :
    rootSplit? t = none ↔ ∀ c ∈ Connective.bindingOrder, splitPoints c t = [] := by
  rw [rootSplit?, Connective.splitOrder_eq, List.findSome?_eq_none_iff]
  apply forall₂_congr
  intro c _
  cases splitPoints c t <;> simp

theorem rootSplit?_eq_some_iff {t : Text} {c : Connective} {segments : List Text} :
    rootSplit? t = some (c, segments) ↔ ∃ before after,
      Connective.bindingOrder = before ++ c :: after ∧ (∀ d ∈ before, splitPoints d t = []) ∧
        splitPoints c t ≠ [] ∧ segments = cut t (splitPoints c t) := by
  rw [rootSplit?, Connective.splitOrder_eq, List.findSome?_eq_some_iff]
  constructor
  · rintro ⟨before, d, after, horder, hd, hbefore⟩
    have hnil : ∀ b ∈ before, splitPoints b t = [] := by
      intro b hb
      have hnone := hbefore b hb
      cases hp : splitPoints b t with
      | nil => rfl
      | cons p ps => simp [hp] at hnone
    cases hp : splitPoints d t with
    | nil => simp [hp] at hd
    | cons p ps =>
      simp only [hp, Option.some.injEq, Prod.mk.injEq] at hd
      obtain ⟨rfl, rfl⟩ := hd
      exact ⟨before, after, horder, hnil, by simp [hp], by rw [hp]⟩
  · rintro ⟨before, after, horder, hbefore, hne, rfl⟩
    refine ⟨before, c, after, horder, ?_, fun b hb => by rw [hbefore b hb]⟩
    cases hp : splitPoints c t with
    | nil => exact absurd hp hne
    | cons p ps => rfl

/-- What grouping does: a text without connective is a leaf, and any other one is a group of the
nodes of its segments, which takes up a level. -/
theorem nodeOf_eq_ok_iff {rules : Rules} {levels : Nat} {t : Text} {n : Node} :
    nodeOf rules levels t = .ok n ↔ operandText t ≠ [] ∧
      ((rootSplit? (operandText t) = none ∧
          ∃ l, readLeaf rules.fieldMode (operandText t) = .ok l ∧ .leaf l = n) ∨
        ∃ c segments m ns, rootSplit? (operandText t) = some (c, segments) ∧ levels = m + 1 ∧
          List.Forall₂ (fun s n => nodeOf rules m s = .ok n) segments ns ∧ .group c ns = n) := by
  have hinner (inner : Option (Text → Except QueryError Node)) :
      nodeBy rules inner t = .ok n ↔ operandText t ≠ [] ∧
        ((rootSplit? (operandText t) = none ∧
            ∃ l, readLeaf rules.fieldMode (operandText t) = .ok l ∧ .leaf l = n) ∨
          ∃ c segments f ns, rootSplit? (operandText t) = some (c, segments) ∧ inner = some f ∧
            List.Forall₂ (fun s n => f s = .ok n) segments ns ∧ .group c ns = n) := by
    unfold nodeBy
    by_cases hnil : operandText t = []
    · simp [hnil]
    · have hfalse : (operandText t).isEmpty = false := by simpa using hnil
      simp only [hfalse, Bool.false_eq_true, if_false, ne_eq, hnil, not_false_eq_true, true_and]
      cases hr : rootSplit? (operandText t) with
      | none => simp [map_eq_ok]
      | some p =>
        obtain ⟨c, segments⟩ := p
        cases inner with
        | none => simp
        | some f => simp [map_eq_ok, mapM_eq_ok]
  cases levels with
  | zero =>
    rw [nodeOf, hinner none]
    simp
  | succ m =>
    rw [nodeOf, hinner (some (nodeOf rules m))]
    simp

/-! ### Items of a leaf -/

theorem hasUnquoted_cons {mark c : Char} (hc : c ≠ '"') (t : Text) :
    hasUnquoted mark (c :: t) = (decide (c = mark) || hasUnquoted mark t) := by
  rw [hasUnquoted, hasUnquoted, breakUnquoted?, breakUnquoted?, breakFrom, if_neg hc]
  by_cases h : c = mark <;> simp [h]

theorem hasUnquoted_of_mem {t : Text} {is : List Item} (h : Spells t is) (hl : Legible is)
    {i : Item} {mark : Char} (hm : mark = '(' ∨ mark = ')') (hcore : i.core = [mark])
    (hi : i ∈ is) : hasUnquoted mark t = true := by
  have hmark : mark ≠ '"' := by rcases hm with rfl | rfl <;> decide
  induction h with
  | nil hs => simp at hi
  | @cons s t j is hs ht ih =>
    rw [hasUnquoted_append_of_quiet hm (quiet_of_allSpace hs)]
    rcases List.mem_cons.mp hi with rfl | hi
    · rw [hcore, List.singleton_append, hasUnquoted_cons hmark]
      simp
    · have hrest := ih hl.tail hi
      cases j with
      | term u =>
        rw [show Item.core (.term u) = u.trim from rfl,
          hasUnquoted_append_of_quiet hm (hl.quiet u (by simp))]
        exact hrest
      | opening =>
        rw [Item.core, List.singleton_append, hasUnquoted_cons (by decide), hrest, Bool.or_true]
      | closing =>
        rw [Item.core, List.singleton_append, hasUnquoted_cons (by decide), hrest, Bool.or_true]
      | keyword d =>
        have hd : d.symbol ≠ '"' := by cases d <;> simp only [Connective.symbol] <;> decide
        rw [Item.core, List.singleton_append, hasUnquoted_cons hd, hrest, Bool.or_true]

private theorem two_le_length_splitFrom {c : Connective} {is : List Item}
    (hflat : ∀ i ∈ is, i.rise = 0) (hc : .keyword c ∈ is) :
    2 ≤ (Item.splitFrom c 0 is).length := by
  induction is with
  | nil => simp at hc
  | cons i is ih =>
    have hpos : 0 < (Item.splitFrom c 0 is).length :=
      List.length_pos_iff.mpr (Item.splitFrom_ne_nil c 0 is)
    rw [Item.splitFrom]
    split_ifs with h
    · rw [List.length_cons]
      omega
    · rw [List.length_modifyHead, hflat i (by simp), Int.add_zero]
      rcases List.mem_cons.mp hc with hi | hc
      · exact absurd ⟨hi.symm, rfl⟩ h
      · exact ih (fun j hj => hflat j (by simp [hj])) hc

private theorem eq_term_of_unsplit {t : Text} {is : List Item} (h : Spells t is)
    (hl : Legible is) (hsplit : ∀ c ∈ Connective.bindingOrder, splitPoints c t = [])
    (ho : hasUnquoted '(' t = false) (hc : hasUnquoted ')' t = false) :
    is = [] ∨ ∃ u, is = [.term u] := by
  have hflat : ∀ i ∈ is, i.rise = 0 := by
    intro i hi
    cases i with
    | opening =>
      have hs := hasUnquoted_of_mem h hl (Or.inl rfl) rfl hi
      simp [ho] at hs
    | closing =>
      have hs := hasUnquoted_of_mem h hl (Or.inr rfl) rfl hi
      simp [hc] at hs
    | _ => rfl
  have hterm : ∀ i ∈ is, ∃ u, i = .term u := by
    intro i hi
    cases i with
    | term u => exact ⟨u, rfl⟩
    | keyword c =>
      have hk := hl.known c hi
      have hlen := two_le_length_splitFrom hflat hi
      rw [length_splitFrom hk h hl, hsplit c (Connective.isKnown_iff_mem.mp hk)] at hlen
      simp at hlen
    | opening => simpa [rise] using hflat _ hi
    | closing => simpa [rise] using hflat _ hi
  cases is with
  | nil => exact Or.inl rfl
  | cons i is =>
    obtain ⟨u, rfl⟩ := hterm i (by simp)
    cases is with
    | nil => exact Or.inr ⟨u, rfl⟩
    | cons j is =>
      obtain ⟨v, rfl⟩ := hterm j (by simp)
      exact absurd ⟨rfl, rfl⟩ (List.isChain_cons_cons.mp hl.apart).1

/-! ### Derivations -/

/-- Tells that every term among the items reads as a leaf. -/
def Readable (mode : FieldMode) (is : List Item) : Prop :=
  ∀ u, .term u ∈ is → ∃ l, readLeaf mode u.trim = .ok l

theorem termNode_of_readLeaf {mode : FieldMode} {u : Text} {l : Leaf}
    (h : readLeaf mode u.trim = .ok l) : termNode mode u = .leaf l := by
  rw [termNode, h]

private theorem mem_of_mem_splitFrom {c : Connective} {i : Item} {is : List Item} (depth : Int)
    (hi : i ∈ is) (hne : i ≠ .keyword c) : ∃ js ∈ Item.splitFrom c depth is, i ∈ js := by
  induction is generalizing depth with
  | nil => simp at hi
  | cons j is ih =>
    rw [Item.splitFrom]
    split_ifs with h
    · rcases List.mem_cons.mp hi with rfl | hi
      · exact absurd h.1 hne
      · obtain ⟨js, hj, hm⟩ := ih depth hi
        exact ⟨js, by simp [hj], hm⟩
    · obtain ⟨s, ss, hs⟩ :=
        List.exists_cons_of_ne_nil (Item.splitFrom_ne_nil c (depth + j.rise) is)
      rw [hs, List.modifyHead_cons]
      rcases List.mem_cons.mp hi with rfl | hi
      · exact ⟨i :: s, by simp, by simp⟩
      · obtain ⟨js, hj, hm⟩ := ih (depth + j.rise) hi
        rw [hs] at hj
        rcases List.mem_cons.mp hj with rfl | hj
        · exact ⟨j :: js, by simp, by simp [hm]⟩
        · exact ⟨js, by simp [hj], hm⟩

private theorem readable_of_splitFrom {mode : FieldMode} {c : Connective} {is : List Item}
    (h : ∀ js ∈ Item.splitFrom c 0 is, Readable mode js) : Readable mode is := by
  intro u hu
  obtain ⟨js, hj, hu⟩ := mem_of_mem_splitFrom 0 hu (by simp)
  exact h js hj u hu

private theorem length_splitPoints {c : Connective} (hc : c.isKnown = true) {t : Text}
    {e : Expression} (h : Spells t e.items) (hl : Legible e.items) :
    (splitPoints c t).length = e.connectives.count c := by
  have hlen := length_splitFrom hc h hl
  rw [Expression.splitFrom_items, List.length_map, Chain.length_splitOn] at hlen
  omega

private theorem splitPoints_eq_nil_iff {c : Connective} (hc : c.isKnown = true) {t : Text}
    {e : Expression} (h : Spells t e.items) (hl : Legible e.items) :
    splitPoints c t = [] ↔ c ∉ e.connectives := by
  rw [← List.length_eq_zero_iff, length_splitPoints hc h hl, List.count_eq_zero]

private theorem isKnown_of_order {before after : List Connective} {c : Connective}
    (horder : Connective.bindingOrder = before ++ c :: after) :
    c.isKnown = true ∧ ∀ d ∈ before, d.isKnown = true := by
  refine ⟨Connective.isKnown_iff_mem.mpr (by simp [horder]), fun d hd => ?_⟩
  exact Connective.isKnown_iff_mem.mpr (by simp [horder, hd])

private theorem tree_of_rootSplit? {mode : FieldMode} {t : Text} {e : Expression}
    {c : Connective} {segments : List Text} (h : Spells t e.items) (hl : Legible e.items)
    (hr : rootSplit? t = some (c, segments)) :
    e.tree mode = .group c ((e.splitOn c).map (Expression.tree mode)) ∧
      List.Forall₂ Spells segments ((e.splitOn c).map Expression.items) := by
  obtain ⟨before, after, horder, hbefore, hne, rfl⟩ := rootSplit?_eq_some_iff.mp hr
  have hknown := isKnown_of_order horder
  constructor
  · apply Expression.tree_of_first horder
    · by_contra hc
      exact hne ((splitPoints_eq_nil_iff hknown.1 h hl).mpr hc)
    · intro d hd
      exact (splitPoints_eq_nil_iff (hknown.2 d hd) h hl).mp (hbefore d hd)
  · rw [cut_splitPoints, ← Expression.splitFrom_items]
    exact h.pieces hknown.1 hl 0

private theorem exists_derivations {mode : FieldMode} {P : Text → Node → Prop} {m : Nat}
    (ih : ∀ {t is n}, Spells t is → Legible is → P t n →
      ∃ e : Expression, e.items = is ∧ Readable mode is ∧ (e.tree mode).depth ≤ m ∧
        e.tree mode = n)
    {segments : List Text} {parts : List (List Item)} {ns : List Node}
    (hs : List.Forall₂ Spells segments parts) (hl : ∀ js ∈ parts, Legible js)
    (hn : List.Forall₂ P segments ns) :
    ∃ es : List Expression, es.map Expression.items = parts ∧
      (∀ js ∈ parts, Readable mode js) ∧ (∀ n ∈ ns, n.depth ≤ m) ∧
        es.map (Expression.tree mode) = ns := by
  induction hs generalizing ns with
  | nil =>
    cases hn
    exact ⟨[], by simp⟩
  | @cons s js segments parts hs _ ih' =>
    cases hn with
    | @cons _ n _ ns hn hns =>
      obtain ⟨e, he, hr, hd, ht⟩ := ih hs (hl js (by simp)) hn
      obtain ⟨es, hes, hrs, hds, hts⟩ := ih' (fun ks hk => hl ks (by simp [hk])) hns
      refine ⟨e :: es, by rw [List.map_cons, he, hes], ?_, ?_, by rw [List.map_cons, ht, hts]⟩
      · exact List.forall_mem_cons.mpr ⟨hr, hrs⟩
      · exact List.forall_mem_cons.mpr ⟨ht ▸ hd, hds⟩

private theorem exists_link {c : Connective} {is : List Item} {es : List Expression}
    (h : es.map Expression.items = Item.splitFrom c 0 is) :
    ∃ e : Expression, e.items = is ∧ e.splitOn c = es := by
  have hnil : es ≠ [] := by
    rintro rfl
    exact Item.splitFrom_ne_nil c 0 is h.symm
  obtain ⟨e, es, rfl⟩ := List.exists_cons_of_ne_nil hnil
  have hitems : Expression.items (e.link c es) = is := by
    rw [Expression.items_link, ← List.map_cons, h, Item.intercalate_splitFrom]
  refine ⟨e.link c es, hitems, ?_⟩
  apply List.map_injective_iff.mpr fun _ _ => Expression.items_injective
  rw [← Expression.splitFrom_items, hitems, h]

/-- Grouping makes nothing but the tree of a derivation. -/
theorem derivation_of_nodeOf {rules : Rules} {levels : Nat} {t : Text} {is : List Item} {n : Node}
    (h : Spells t is) (hl : Legible is) (hn : nodeOf rules levels t = .ok n) :
    ∃ e : Expression, e.items = is ∧ Readable rules.fieldMode is ∧
      (e.tree rules.fieldMode).depth ≤ levels ∧ e.tree rules.fieldMode = n := by
  induction levels using Nat.strongRecOn generalizing t is n with
  | ind levels ih =>
    obtain ⟨js, hw, hlj, hj, htrim, _⟩ := exists_wrapped h hl
    -- a derivation of the items inside the brackets is enough
    suffices hinner : ∃ e : Expression, e.items = js ∧ Readable rules.fieldMode js ∧
        (e.tree rules.fieldMode).depth ≤ levels ∧ e.tree rules.fieldMode = n by
      obtain ⟨e, he, hr, hd, ht⟩ := hinner
      obtain ⟨e', he', ht'⟩ := hw.derive he
      refine ⟨e', he', fun u hu => hr u (hw.term_mem.mp hu), ?_, ?_⟩
      · rw [ht']
        exact hd
      · rw [ht', ht]
    obtain ⟨hne, hcases⟩ := nodeOf_eq_ok_iff.mp hn
    rcases hcases with ⟨hroot, l, hleaf, rfl⟩ | ⟨c, segments, m, ns, hroot, rfl, hns, rfl⟩
    · obtain ⟨_, ho, hc, _⟩ := readLeaf_eq_ok_iff.mp hleaf
      rcases eq_term_of_unsplit hj hlj (rootSplit?_eq_none_iff.mp hroot) ho hc with rfl | ⟨u, rfl⟩
      · have hnil := trim_eq_nil_iff.mpr hj.allSpace
        exact absurd (htrim ▸ hnil) hne
      · rw [hj.eq_of_term htrim] at hleaf
        refine ⟨.last (.term u), rfl, ?_, ?_, ?_⟩
        · intro v hv
          obtain rfl : v = u := by simpa using hv
          exact ⟨l, hleaf⟩
        · rw [Expression.tree_term, termNode_of_readLeaf hleaf]
          simp
        · rw [Expression.tree_term, termNode_of_readLeaf hleaf]
    · obtain ⟨before, after, horder, _, _, hsegments⟩ := rootSplit?_eq_some_iff.mp hroot
      have hknown := (isKnown_of_order horder).1
      have hpieces := hj.pieces hknown hlj 0
      rw [← cut_splitPoints, ← hsegments] at hpieces
      have hlp : ∀ ks ∈ Item.splitFrom c 0 js, Legible ks := fun ks hk =>
        hlj.of_isInfix (infix_of_mem_splitFrom hk)
      obtain ⟨es, hes, hrs, hds, rfl⟩ :=
        exists_derivations (ih m (Nat.lt_succ_self m)) hpieces hlp hns
      obtain ⟨e, rfl, hparts⟩ := exists_link hes
      have htree := (@tree_of_rootSplit? rules.fieldMode _ _ _ _ hj hlj hroot).1
      rw [hparts] at htree
      refine ⟨e, rfl, readable_of_splitFrom hrs, ?_, htree⟩
      rw [htree]
      exact Node.depth_group_le_iff.mpr hds

private theorem forall₂_of_mem {α β : Type} {R S : α → β → Prop} {xs : List α} {ys : List β}
    (h : List.Forall₂ R xs ys) (hy : ∀ y ∈ ys, ∀ x, R x y → S x y) : List.Forall₂ S xs ys := by
  induction h with
  | nil => exact .nil
  | cons h _ ih => exact .cons (hy _ (by simp) _ h) (ih fun y hm => hy y (by simp [hm]))

theorem keyword_mem_items {c : Connective} {e : Expression} (h : c ∈ e.connectives) :
    .keyword c ∈ e.items := by
  induction e with
  | last o => simp [Chain.connectives] at h
  | join o d rest ih =>
    rw [Expression.items]
    rcases List.mem_cons.mp h with rfl | h
    · simp
    · simp [ih h]

theorem not_readable_nil (mode : FieldMode) (l : Leaf) : readLeaf mode [] ≠ .ok l := by
  intro h
  obtain ⟨_, _, _, field, value, hs, rfl, hv⟩ := readLeaf_eq_ok_iff.mp h
  simp only [splitField, breakUnquoted?, breakFrom, Except.ok.injEq, Prod.mk.injEq] at hs
  obtain ⟨rfl, rfl⟩ := hs
  exact hv rfl

private theorem ne_nil_of_spells {mode : FieldMode} {t : Text} {e : Expression}
    (h : Spells t e.items) (hr : Readable mode e.items) : t ≠ [] := by
  rintro rfl
  cases hi : e.items with
  | nil => cases e with
    | last o => cases o <;> simp [Expression.items, Operand.items] at hi
    | join o c rest => simp [Expression.items] at hi
  | cons i is =>
    rw [hi] at h hr
    generalize ht : ([] : Text) = t at h
    cases h with
    | cons hs hrest =>
      have hcore : i.core = [] :=
        (List.append_eq_nil_iff.mp (List.append_eq_nil_iff.mp ht.symm).2).1
      cases i with
      | term u =>
        obtain ⟨l, hl⟩ := hr u (by simp)
        rw [show u.trim = [] from hcore] at hl
        exact not_readable_nil mode l hl
      | _ => simp [Item.core] at hcore

private theorem eq_term_of_rootSplit? {t : Text} {e : Expression} (h : Spells t e.items)
    (hl : Legible e.items) (ht : t.trim = t) (hu : unwrap? t = none)
    (hroot : rootSplit? t = none) : ∃ u, e = .last (.term u) := by
  have hnil : ∀ c, c ∉ e.connectives := by
    intro c hc
    have hk := hl.known c (keyword_mem_items hc)
    have hp := rootSplit?_eq_none_iff.mp hroot c (Connective.isKnown_iff_mem.mp hk)
    exact (splitPoints_eq_nil_iff hk h hl).mp hp hc
  cases e with
  | join o c rest => exact absurd (by simp [Chain.connectives]) (hnil c)
  | last o =>
    cases o with
    | term u => exact ⟨u, rfl⟩
    | bracketed e =>
      have hclose : Item.closeFrom 0 (Expression.items e ++ [.closing]) =
          some (Expression.items e, []) := by
        rw [Expression.closeFrom_items_append]
        simp [Item.closeFrom]
      obtain ⟨v, hv, _⟩ := h.unwrap_of_close hl ht hclose
      rw [hu] at hv
      simp at hv

/-- Grouping makes the tree of every derivation that fits. -/
theorem nodeOf_of_derivation {rules : Rules} {levels : Nat} {t : Text} {e : Expression}
    (h : Spells t e.items) (hl : Legible e.items) (hr : Readable rules.fieldMode e.items)
    (hd : (e.tree rules.fieldMode).depth ≤ levels) :
    nodeOf rules levels t = .ok (e.tree rules.fieldMode) := by
  induction levels using Nat.strongRecOn generalizing t e with
  | ind levels ih =>
    obtain ⟨js, hw, hlj, hj, htrim, hunwrap⟩ := exists_wrapped h hl
    obtain ⟨e', rfl, ht⟩ := hw.underive rfl
    have hr' : Readable rules.fieldMode e'.items := fun u hu => hr u (hw.term_mem.mpr hu)
    rw [ht] at hd ⊢
    refine nodeOf_eq_ok_iff.mpr ⟨ne_nil_of_spells hj hr', ?_⟩
    cases hroot : rootSplit? (operandText t) with
    | none =>
      obtain ⟨u, rfl⟩ := eq_term_of_rootSplit? hj hlj htrim hunwrap hroot
      obtain ⟨l, hleaf⟩ := hr' u (by simp [Expression.items, Operand.items])
      refine Or.inl ⟨rfl, l, ?_, ?_⟩
      · rw [hj.eq_of_term htrim]
        exact hleaf
      · rw [Expression.tree_term, termNode_of_readLeaf hleaf]
    | some p =>
      obtain ⟨c, segments⟩ := p
      obtain ⟨htree, hsegments⟩ := @tree_of_rootSplit? rules.fieldMode _ _ _ _ hj hlj hroot
      rw [htree] at hd ⊢
      have hpos := Node.depth_group_pos c ((e'.splitOn c).map (Expression.tree rules.fieldMode))
      obtain ⟨m, rfl⟩ : ∃ m, levels = m + 1 := ⟨levels - 1, by omega⟩
      have hdepth := Node.depth_group_le_iff.mp hd
      refine Or.inr ⟨c, segments, m, _, rfl, rfl, ?_, rfl⟩
      rw [List.forall₂_map_right_iff] at hsegments ⊢
      apply forall₂_of_mem hsegments
      intro part hpart s hs
      have hwithin : Expression.items part <:+: e'.items := by
        apply @infix_of_mem_splitFrom c 0
        rw [Expression.splitFrom_items]
        exact List.mem_map_of_mem hpart
      exact ih m (Nat.lt_succ_self m) hs (hlj.of_isInfix hwithin)
        (fun u hu => hr' u (hwithin.subset hu)) (hdepth _ (List.mem_map_of_mem hpart))

end BooleanSearch.Query
