import BooleanSearch.Proofs.CanonicalText
import BooleanSearch.Proofs.Conservation
import BooleanSearch.Text.Editions

/-!
# Reading canonical text again

The canonical text of a parsed query is read as the same tree, or refused. It is refused if its
brackets do not balance once quoted ones count, or if a leaf is written like a keyword. In the
latter case terms are lacking: an expression has one term more than keywords, and each leaf that is
taken for a keyword or joined to one lowers that number, which no added keyword can raise.
-/

namespace BooleanSearch

open Text Query

/-! ### Terms against keywords -/

namespace Item

def worth : Item → Int
  | term _ => 1
  | keyword _ => -1
  | opening => 0
  | closing => 0

/-- The surplus of terms over keywords. -/
def surplus : List Item → Int
  | [] => 0
  | i :: is => i.worth + surplus is

private theorem surplus_cons (i : Item) (is : List Item) :
    surplus (i :: is) = i.worth + surplus is := rfl

private theorem surplus_append (is js : List Item) :
    surplus (is ++ js) = surplus is + surplus js := by
  induction is with
  | nil => rw [List.nil_append, surplus, Int.zero_add]
  | cons i is ih => rw [List.cons_append, surplus, ih, surplus, Int.add_assoc]

private theorem surplus_joinOperands_le (implicit : Connective) (is : List Item) :
    surplus (joinOperands implicit is) ≤ surplus is := by
  fun_induction joinOperands implicit is with
  | case1 => exact Int.le_refl _
  | case2 i => exact Int.le_refl _
  | case3 i j rest hij ih =>
    rw [surplus_cons, surplus_cons, surplus_cons i, worth]
    omega
  | case4 i j rest hij ih =>
    rw [surplus_cons, surplus_cons i]
    omega

end Item

mutual

private theorem surplus_operand : ∀ o : Operand, Item.surplus o.items = 1
  | .term t => rfl
  | .bracketed e => by
    rw [Operand.items, Item.surplus_cons, Item.surplus_append, surplus_expression e]
    rfl

private theorem surplus_expression : ∀ e : Expression, Item.surplus e.items = 1
  | .last o => surplus_operand o
  | .join o c rest => by
    rw [Expression.items, Item.surplus_append, Item.surplus_cons, surplus_operand o,
      surplus_expression rest]
    rfl

end

namespace Lexeme

/-- The surplus of terms over keywords of the items of a sequence of lexemes, `joined` if a
keyword came just before. -/
def surplusFrom (joined : Bool) : List Lexeme → Int
  | [] => 0
  | opening :: ls => surplusFrom false ls
  | closing :: ls => surplusFrom false ls
  | word w :: ls =>
    if (Item.connective? w).isSome then surplusFrom true ls - 1
    else if joined = true ∧ w = "NOT".toList then surplusFrom false ls
    else surplusFrom false ls + 1

private theorem surplusFrom_eq {ls : List Lexeme} (h : ls.head? ≠ some (.word "NOT".toList)) :
    surplusFrom true ls = surplusFrom false ls := by
  cases ls with
  | nil => rfl
  | cons l ls =>
    cases l with
    | opening => rfl
    | closing => rfl
    | word w =>
      have hw : w ≠ "NOT".toList := fun he => h (by rw [he]; rfl)
      simp only [surplusFrom, hw, and_false]

theorem surplus_ofLexemes (ls : List Lexeme) :
    Item.surplus (Item.ofLexemes ls) = surplusFrom false ls := by
  have hkeyword {w : Text} {c d : Connective} {ls : List Lexeme}
      (hw : Item.connective? w = some c)
      (h : Item.surplus (Item.ofLexemes ls) = surplusFrom true ls) :
      Item.surplus (.keyword d :: Item.ofLexemes ls) = surplusFrom false (word w :: ls) := by
    rw [Item.surplus_cons, h, surplusFrom, hw, Item.worth, Option.isSome_some, if_pos rfl]
    omega
  fun_induction Item.ofLexemes ls with
  | case1 => rfl
  | case2 rest ih =>
    rw [Item.surplus_cons, ih, surplusFrom, Item.worth, Int.zero_add]
  | case3 rest ih =>
    rw [Item.surplus_cons, ih, surplusFrom, Item.worth, Int.zero_add]
  | case4 w rest hw ih =>
    rw [Item.surplus_cons, ih, surplusFrom, hw, Item.worth]
    simp
    omega
  | case5 w c hw later ih =>
    rw [Item.surplus_cons, ih, surplusFrom, hw, Item.worth, Option.isSome_some, if_pos rfl,
      surplusFrom, if_neg (by decide), if_pos ⟨rfl, rfl⟩]
    omega
  | case6 w c hw v later hv ih =>
    apply hkeyword hw
    rw [ih, surplusFrom_eq]
    simpa using hv
  | case7 w c hw later ih => exact hkeyword hw (by rw [ih]; rfl)
  | case8 w c hw later ih => exact hkeyword hw (by rw [ih]; rfl)
  | case9 w c hw => exact @hkeyword w c c [] hw rfl

private theorem surplusFrom_words {c : Connective} (hc : c.isKnown = true) (joined : Bool)
    (ls : List Lexeme) :
    surplusFrom joined (c.words ++ ls) = surplusFrom (!c.isNegated) ls - 1 := by
  cases c with
  | and => rfl
  | andNot => rfl
  | or => rfl
  | orNot => rfl
  | other word => simp [Connective.isKnown] at hc

end Lexeme

namespace Node

open Lexeme

mutual

/-- A tree adds one to the surplus of what follows it if all its leaves are in place, and less
otherwise. -/
private theorem surplusFrom_lexemes : ∀ (n : Node), n.Formed 0 → ∀ (follows : Bool)
    (ls : List Lexeme), surplusFrom true ls = surplusFrom false ls →
      surplusFrom follows (n.lexemes ++ ls) = surplusFrom false ls + 1 ∧ n.Placed follows ∨
        surplusFrom follows (n.lexemes ++ ls) ≤ surplusFrom false ls
  | leaf l, _, follows, ls, hls => by
    rw [lexemes, List.singleton_append, surplusFrom, Placed]
    split_ifs with hword hnot
    · -- taken for a keyword, which counts minus one
      right
      omega
    · -- joined to the keyword before it, so that it does not count at all
      right
      exact Int.le_refl _
    · left
      refine ⟨rfl, by simpa using hword, fun hf hn => hnot ⟨hf, hn⟩⟩
  | group c xs, ⟨hc, hpos, hxs⟩, follows, ls, hls => by
    have hinner := surplusFrom_lexemesAll c hc xs hpos hxs false (.closing :: ls) rfl
    rw [lexemes, List.cons_append, List.append_assoc, List.singleton_append, surplusFrom, Placed]
    simpa only [surplusFrom] using hinner

private theorem surplusFrom_lexemesAll (c : Connective) (hc : c.isKnown = true) :
    ∀ (xs : List Node), 0 < xs.length → FormedAll 0 xs → ∀ (follows : Bool)
      (ls : List Lexeme), surplusFrom true ls = surplusFrom false ls →
        surplusFrom follows (lexemesAll c xs ++ ls) = surplusFrom false ls + 1 ∧
            PlacedAll c follows xs ∨
          surplusFrom follows (lexemesAll c xs ++ ls) ≤ surplusFrom false ls
  | [x], _, ⟨hx, _⟩, follows, ls, hls => by
    simpa [lexemesAll, PlacedAll] using surplusFrom_lexemes x hx follows ls hls
  | x :: y :: ys, _, ⟨hx, hys⟩, follows, ls, hls => by
    have hrest := surplusFrom_lexemesAll c hc (y :: ys) (by simp) hys (!c.isNegated) ls hls
    -- the keyword takes away what the first tree adds, whatever comes just before it
    have hwords (b : Bool) := surplusFrom_words hc b (lexemesAll c (y :: ys) ++ ls)
    have hfirst := surplusFrom_lexemes x hx follows (c.words ++ (lexemesAll c (y :: ys) ++ ls))
      (by rw [hwords, hwords])
    rw [hwords] at hfirst
    rw [lexemesAll, List.append_assoc, List.append_assoc]
    obtain ⟨hf, hpx⟩ | hf := hfirst
    · obtain ⟨hr, hps⟩ | hr := hrest
      · left
        exact ⟨by omega, hpx, hps⟩
      · right
        omega
    · right
      obtain ⟨hr, _⟩ | hr := hrest <;> omega

end

/-- If the items of canonical text can be derived at all, all leaves are in place. -/
theorem placed_of_items [CharacterData] {implicit : Connective} {n : Node} (h : n.Formed 0)
    {e : Expression}
    (he : e.items = Item.joinOperands implicit (Item.ofText n.render)) : n.Placed false := by
  have hle := Item.surplus_joinOperands_le implicit (Item.ofText n.render)
  rw [← he, surplus_expression, Item.ofText, ofText_render h, surplus_ofLexemes] at hle
  have hn := surplusFrom_lexemes n h false [] rfl
  rw [List.append_nil, surplusFrom] at hn
  obtain ⟨_, hp⟩ | hn := hn
  · exact hp
  · omega

end Node

/-! ### Trees of queries -/

private theorem canonical_of_term {implicit : Connective} {query u : Text} {l : Leaf}
    (hr : hasReserved query = false) (heven : query.trim.count '"' % 2 = 0)
    (hu : .term u ∈ itemsOf implicit query) (hl : readLeaf .preserve u.trim = .ok l) :
    l.Canonical := by
  have hword := isWord_of_term hr heven hu
  have hrender := render_of_readLeaf hl
  constructor
  · rw [hrender, hl]
  · rw [hrender, trim_trim]
  · rw [hrender]
    exact hword.outside
  · rw [hrender]
    exact hword.squeezed.squeeze_eq
  · rw [hrender]
    exact hword.clean

private theorem formed_tree {e : Expression}
    (hterm : ∀ u, .term u ∈ e.items → ∃ l, readLeaf .preserve u.trim = .ok l ∧ l.Canonical)
    (hkeyword : ∀ c, .keyword c ∈ e.items → c.isKnown = true) : (e.tree .preserve).Formed 1 := by
  apply Expression.tree_induction _ _ hkeyword
  · intro c xs hc hlen hxs
    exact ⟨hc, hlen, Node.formedAll_iff.mpr hxs⟩
  · intro u hu
    obtain ⟨l, hl, hcanonical⟩ := hterm u hu
    rw [termNode_of_readLeaf hl]
    exact hcanonical

/-! ### Leaves that are written like keywords -/

def Leaf.bare (word : String) : Leaf := ⟨[], word.toList, false⟩

namespace Node

mutual

/-- Tells whether every bare `NOT` comes first in its group or is a child of a negated group. -/
def notsLead : Node → Bool
  | leaf _ => true
  | gap _ => true
  | group c xs => (c.isNegated || !xs.tail.contains (leaf (.bare "NOT"))) && notsLeadAll xs

def notsLeadAll : List Node → Bool
  | [] => true
  | x :: xs => notsLead x && notsLeadAll xs

end

private theorem render_eq_iff {l : Leaf} (hl : l.Canonical) {word : String}
    (hword : readLeaf .preserve word.toList = .ok (.bare word)) :
    l.render = word.toList ↔ l = .bare word := by
  constructor
  · intro h
    have hread := hl.read
    rw [h, hword] at hread
    exact (Except.ok.inj hread).symm
  · rintro rfl
    rfl

private theorem connective?_render_iff {l : Leaf} (hl : l.Canonical) :
    Item.connective? l.render = none ↔ l ≠ .bare "AND" ∧ l ≠ .bare "OR" := by
  rw [Ne, ← render_eq_iff hl (by decide +kernel), Ne, ← render_eq_iff hl (by decide +kernel),
    Item.connective?]
  split_ifs with hand hor
  · simp [hand]
  · simp [hor]
  · exact iff_of_true rfl ⟨hand, hor⟩

mutual

theorem placed_iff : ∀ (n : Node), n.Formed 0 → ∀ follows : Bool,
    n.Placed follows ↔ (∀ l ∈ n.leaves, l ≠ .bare "AND" ∧ l ≠ .bare "OR") ∧ n.notsLead = true ∧
      (follows = true → n ≠ leaf (.bare "NOT"))
  | leaf l, hl, follows => by
    have hnot : l.render ≠ "NOT".toList ↔ leaf l ≠ leaf (.bare "NOT") := by
      rw [Ne, render_eq_iff hl (by decide +kernel), Ne, leaf.injEq]
    rw [Placed, connective?_render_iff hl, hnot, leaves_leaf, List.forall_mem_singleton, notsLead]
    simp only [true_and]
  | group c (x :: xs), ⟨_, _, hx, hxs⟩, follows => by
    rw [Placed, PlacedAll, placed_iff x hx, placedAll_iff c xs hxs, leaves_group,
      List.flatMap_cons, notsLead, notsLeadAll, List.tail_cons, List.forall_mem_append]
    cases c.isNegated <;> simp <;> tauto

private theorem placedAll_iff (c : Connective) : ∀ (xs : List Node), FormedAll 0 xs →
    (PlacedAll c (!c.isNegated) xs ↔
      (∀ l ∈ xs.flatMap leaves, l ≠ .bare "AND" ∧ l ≠ .bare "OR") ∧ notsLeadAll xs = true ∧
        (c.isNegated = false → leaf (.bare "NOT") ∉ xs))
  | [], _ => by simp [PlacedAll, notsLeadAll]
  | x :: xs, ⟨hx, hxs⟩ => by
    rw [PlacedAll, placed_iff x hx, placedAll_iff c xs hxs, notsLeadAll, List.flatMap_cons,
      List.forall_mem_append]
    cases c.isNegated <;> simp <;> tauto

end

end Node

/-! ### Parsing canonical text -/

mutual

private theorem apart_operand : ∀ o : Operand,
    o.items.IsChain fun i j => ¬(i.closesOperand = true ∧ j.opensOperand = true)
  | .term t => .singleton _
  | .bracketed e => by
    rw [Operand.items, List.isChain_cons]
    refine ⟨by simp [Item.closesOperand], ?_⟩
    rw [List.isChain_append]
    exact ⟨apart_items e, .singleton _, by simp [Item.opensOperand]⟩

private theorem apart_items : ∀ e : Expression,
    e.items.IsChain fun i j => ¬(i.closesOperand = true ∧ j.opensOperand = true)
  | .last o => apart_operand o
  | .join o c rest => by
    rw [Expression.items, List.isChain_append, List.isChain_cons]
    exact ⟨apart_operand o, ⟨by simp [Item.closesOperand], apart_items rest⟩,
      by simp [Item.opensOperand]⟩

end

private theorem joinOperands_items (implicit : Connective) (e : Expression) :
    Item.joinOperands implicit e.items = e.items :=
  joinOperands_eq_self implicit (apart_items e)

namespace Node

mutual

private theorem readable_operand : ∀ (n : Node), n.Formed 0 → Readable .preserve n.operand.items
  | leaf l, hl, u, hu => by
    obtain rfl : u = l.render := by simpa [operand, Operand.items] using hu
    exact ⟨l, by rw [hl.trimmed, hl.read]⟩
  | group c xs, ⟨_, hpos, hxs⟩, u, hu => by
    apply readable_chain c xs hpos hxs u
    simpa [operand, Operand.items] using hu

private theorem readable_chain (c : Connective) : ∀ (xs : List Node), 0 < xs.length →
    FormedAll 0 xs → Readable .preserve (Expression.items (chain c xs))
  | [x], _, ⟨hx, _⟩ => readable_operand x hx
  | x :: y :: ys, _, ⟨hx, hys⟩ => by
    intro u hu
    simp only [chain, Expression.items, List.mem_append, List.mem_cons, reduceCtorEq,
      false_or] at hu
    rcases hu with hu | hu
    · exact readable_operand x hx u hu
    · exact readable_chain c (y :: ys) (by simp) hys u hu

end

theorem formed_rooted {n : Node} (h : n.Formed 1) : (rooted n).Formed 0 := by
  cases n with
  | leaf l => exact ⟨rfl, by simp, h, trivial⟩
  | gap k => exact h
  | group c xs => exact formed_mono (by decide) _ h

private theorem node_operand_rooted {n : Node} (h : n.Formed 1) :
    (rooted n).operand.node .preserve = n := by
  cases n with
  | leaf l =>
    have hl := node_operand (leaf l) h
    rw [rooted, term, operand, chain, ← Expression.tree_last, Expression.tree_bracketed,
      Expression.tree_last]
    exact hl
  | gap k => exact h.elim
  | group c xs => exact node_operand _ h

private theorem trim_render_rooted [CharacterData] {n : Node} (h : n.Formed 1) :
    (rooted n).render.trim = (rooted n).render := by
  cases n with
  | leaf l => exact trim_eq_self _ (by decide) (by decide)
  | gap k => exact h.elim
  | group c xs => exact trim_eq_self _ (by decide) (by decide)

end Node

namespace Query

/-- Canonical text is parsed exactly if its brackets balance and all leaves are in place, and then
to the tree that it was made from. -/
theorem parse_render_iff [CharacterData] {settings : Settings}
    (hk : settings.implicit.isKnown = true)
    (hmode : settings.fieldMode = .preserve) {n m : Node} (hn : n.Formed 1)
    (hd : n.depth ≤ settings.toRules.levelsAt 0) :
    parse settings (rooted n).render = .ok m ↔
      requireBalance (rooted n).render = .ok () ∧ (rooted n).Placed false ∧ m = rooted n := by
  have hformed := Node.formed_rooted hn
  have htree : Expression.tree settings.fieldMode (.last (rooted n).operand) = n := by
    rw [Expression.tree_last, hmode, Node.node_operand_rooted hn]
  have hitems : (rooted n).Placed false →
      Expression.items (.last (rooted n).operand) =
        itemsOf settings.implicit (rooted n).render := by
    intro hp
    rw [itemsOf, Node.trim_render_rooted hn, Node.ofText_render_eq_items hformed hp]
    exact (joinOperands_items settings.implicit (.last (rooted n).operand)).symm
  constructor
  · intro h
    obtain ⟨hb, _, e, he, _, _, rfl⟩ := derivation_of_parse hk h
    have hp : (rooted n).Placed false := by
      apply Node.placed_of_items hformed (e := e)
      rw [he, itemsOf, Node.trim_render_rooted hn]
    obtain rfl := Expression.items_injective (he.trans (hitems hp).symm)
    exact ⟨hb, hp, by rw [htree]⟩
  · rintro ⟨hb, hp, rfl⟩
    have hparse := parse_of_derivation hk hb (Node.hasReserved_render hformed) (hitems hp)
      (by rw [hmode]; exact Node.readable_operand _ hformed) (by rw [htree]; exact hd)
    rwa [htree] at hparse

end Query

namespace Configuration

/-- Canonical text of a parsed query is read as the same tree or refused. It is read exactly if
its brackets balance, quoted ones counted, no leaf is a bare `AND` or `OR`, and every bare `NOT`
leads its group or is a child of a negated one. -/
theorem reparse_render [CharacterData] {c : Configuration} (hc : c.check = .ok ())
    (hmode : c.fieldMode = .preserve)
    {query : Text} {t : Node} (h : c.parse query = .ok t) :
    (∀ t', c.parse t.render = .ok t' → t' = t) ∧
      (c.parse t.render = .ok t ↔
        Balanced t.render ∧ (∀ l ∈ t.leaves, l ≠ .bare "AND" ∧ l ≠ .bare "OR") ∧
          t.notsLead = true) := by
  obtain ⟨_, hk, _, _⟩ := check_eq_ok_iff.mp hc
  obtain ⟨_, hr, e, he, hread, hd, rfl⟩ := derivation_of_parse hk h
  have hmode' : c.settings.fieldMode = .preserve := hmode
  have heven := even_quotes_of_readable hread
  rw [quotes_itemsOf] at heven
  rw [hmode'] at hread hd h ⊢
  have hterm : ∀ u, .term u ∈ e.items → ∃ l, readLeaf .preserve u.trim = .ok l ∧ l.Canonical := by
    intro u hu
    rw [he] at hu
    obtain ⟨l, hl⟩ := hread u hu
    exact ⟨l, hl, canonical_of_term hr heven hu hl⟩
  have hkeyword : ∀ d, .keyword d ∈ e.items → d.isKnown = true := by
    intro d hd
    rw [he] at hd
    exact isKnown_of_keyword_itemsOf hk hd
  have hn := formed_tree hterm hkeyword
  have hparse (m : Node) := @parse_render_iff _ c.settings hk hmode' _ m hn hd
  constructor
  · intro t' ht'
    exact ((hparse t').mp ht').2.2
  · have hplaced := Node.placed_iff _ (Node.formed_rooted hn) false
    rw [← requireBalance_eq_ok_iff]
    constructor
    · intro hself
      obtain ⟨hb, hp, _⟩ := (hparse _).mp hself
      obtain ⟨hleaves, hnots, _⟩ := hplaced.mp hp
      exact ⟨hb, hleaves, hnots⟩
    · rintro ⟨hb, hleaves, hnots⟩
      exact (hparse _).mpr ⟨hb, hplaced.mpr ⟨hleaves, hnots, by simp⟩, rfl⟩

theorem reparse_render_bare_not :
    (standard.parse "NOT x".toList = .ok (.group .and [.leaf (.bare "NOT"), .leaf (.bare "x")]) ∧
      standard.parse (Node.render (.group .and [.leaf (.bare "NOT"), .leaf (.bare "x")])) =
        .ok (.group .and [.leaf (.bare "NOT"), .leaf (.bare "x")])) ∧
    standard.parse "x NOT y".toList =
        .ok (.group .and [.leaf (.bare "x"), .leaf (.bare "NOT"), .leaf (.bare "y")]) ∧
      ∀ t', standard.parse (Node.render
        (.group .and [.leaf (.bare "x"), .leaf (.bare "NOT"), .leaf (.bare "y")])) ≠ .ok t' := by
  have hc : standard.check = .ok () := rfl
  have hleads : standard.parse "NOT x".toList =
      .ok (.group .and [.leaf (.bare "NOT"), .leaf (.bare "x")]) := by
    decide +kernel
  have hbetween : standard.parse "x NOT y".toList =
      .ok (.group .and [.leaf (.bare "x"), .leaf (.bare "NOT"), .leaf (.bare "y")]) := by
    decide +kernel
  obtain ⟨_, hreads⟩ := reparse_render hc rfl hleads
  obtain ⟨hsame, hrefused⟩ := reparse_render hc rfl hbetween
  refine ⟨⟨hleads, hreads.mpr ⟨?_, by decide, by decide⟩⟩, hbetween, ?_⟩
  · exact requireBalance_eq_ok_iff.mp (by decide)
  · intro t' ht'
    obtain rfl := hsame t' ht'
    exact absurd (hrefused.mp ht').2.2 (by decide)

end Configuration

end BooleanSearch
