import BooleanSearch.Node.Printer
import BooleanSearch.Proofs.Acceptance

/-!
# Canonical text

The canonical text of a tree whose leaves are words is cut into the brackets, keywords and leaves
of the tree. If no leaf stands where it is taken for a keyword or joined to one, the items of the
text derive from the grammar, and the derivation has the shape of the tree.
-/

namespace BooleanSearch

open Text Query

/-- Tells that a leaf is read back from its canonical text, which is a word of a query. -/
structure Leaf.Canonical (l : Leaf) : Prop where
  read : readLeaf .preserve l.render = .ok l
  trimmed : l.render.trim = l.render
  word : Outside WordChar false l.render
  squeezed : l.render.squeeze = l.render
  clean : ∀ c ∈ l.render, c ∉ Connective.symbols

namespace Node

mutual

/-- Tells that all leaves are canonical, all connectives known, and that every group has more than
`least` children. -/
def Formed (least : Nat) : Node → Prop
  | leaf l => l.Canonical
  | gap _ => False
  | group c xs => c.isKnown = true ∧ least < xs.length ∧ FormedAll least xs

def FormedAll (least : Nat) : List Node → Prop
  | [] => True
  | x :: xs => Formed least x ∧ FormedAll least xs

end

theorem formedAll_iff {least : Nat} {xs : List Node} :
    FormedAll least xs ↔ ∀ x ∈ xs, Formed least x := by
  induction xs with
  | nil => simp [FormedAll]
  | cons x xs ih => rw [FormedAll, ih, List.forall_mem_cons]

mutual

theorem formed_mono {least more : Nat} (h : least ≤ more) : ∀ n : Node, n.Formed more →
    n.Formed least
  | leaf _, hn => hn
  | gap _, hn => hn
  | group _ xs, ⟨hc, hlen, hxs⟩ => ⟨hc, Nat.lt_of_le_of_lt h hlen, formedAll_mono h xs hxs⟩

theorem formedAll_mono {least more : Nat} (h : least ≤ more) : ∀ xs : List Node,
    FormedAll more xs → FormedAll least xs
  | [], hxs => hxs
  | x :: xs, ⟨hx, hxs⟩ => ⟨formed_mono h x hx, formedAll_mono h xs hxs⟩

end

end Node

def Connective.words : Connective → List Lexeme
  | and => [.word "AND".toList]
  | andNot => [.word "AND".toList, .word "NOT".toList]
  | or => [.word "OR".toList]
  | orNot => [.word "OR".toList, .word "NOT".toList]
  | other _ => []

theorem Connective.upper_keyword [CharacterData] {c : Connective} (hc : c.isKnown = true) :
    c.keyword.upper = c.keyword := by
  cases c with
  | other word => simp [Connective.isKnown] at hc
  | _ => rfl

namespace Node

mutual

def lexemes : Node → List Lexeme
  | leaf l => [.word l.render]
  | gap _ => []
  | group c xs => .opening :: (lexemesAll c xs ++ [.closing])

def lexemesAll (c : Connective) : List Node → List Lexeme
  | [] => []
  | [x] => lexemes x
  | x :: y :: ys => lexemes x ++ (c.words ++ lexemesAll c (y :: ys))

end

mutual

def operand : Node → Operand
  | leaf l => .term l.render
  | gap _ => .term []
  | group c xs => .bracketed (chain c xs)

def chain (c : Connective) : List Node → Chain Operand
  | [] => .last (.term [])
  | [x] => .last (operand x)
  | x :: y :: ys => .join (operand x) c (chain c (y :: ys))

end

end Node

/-! ### Cutting canonical text -/

namespace Lexeme

theorem lexemes_mk_nil (ls : List Lexeme) : Cut.lexemes ⟨[], ls⟩ = ls := rfl

theorem scan_space (t : Text) : scan false (' ' :: t) = ⟨[], (scan false t).lexemes⟩ := by
  rw [scan]
  rfl

theorem scan_opening (t : Text) :
    scan false ('(' :: t) = ⟨[], opening :: (scan false t).lexemes⟩ := by
  rw [scan]
  rfl

theorem scan_closing (t : Text) :
    scan false (')' :: t) = ⟨[], closing :: (scan false t).lexemes⟩ := by
  rw [scan]
  rfl

private theorem scan_append {quoted : Bool} {w : Text} (hw : Outside WordChar quoted w) (t : Text) :
    scan quoted (w ++ t) = ⟨w ++ (scan false t).within, (scan false t).after⟩ := by
  induction w generalizing quoted with
  | nil =>
    obtain rfl : quoted = false := hw
    rfl
  | cons c w ih =>
    rw [List.cons_append, scan]
    by_cases hq : c = '"'
    · subst hq
      rw [if_pos rfl, ih (outside_quote.mp hw)]
      rfl
    · rw [if_neg hq]
      cases quoted with
      | true =>
        rw [if_pos rfl, ih ((outside_cons_quoted hq).mp hw)]
        rfl
      | false =>
        obtain ⟨⟨hb, ho, hc⟩, hrest⟩ := (outside_cons_unquoted hq).mp hw
        rw [if_neg (by simp), if_neg (by simp [hb]), if_neg ho, if_neg hc, ih hrest]
        rfl

theorem lexemes_word {w : Text} (hw : Outside WordChar false w) (hne : w ≠ []) {t : Text}
    (ht : (scan false t).within = []) :
    (scan false (w ++ t)).lexemes = word w :: (scan false t).lexemes := by
  obtain ⟨c, cs, rfl⟩ := List.exists_cons_of_ne_nil hne
  rw [scan_append hw, ht, List.append_nil, Cut.lexemes, Cut.lexemes, ht]

theorem lexemes_keyword {c : Connective} (hc : c.isKnown = true) {t : Text}
    (ht : (scan false t).within = []) :
    (scan false (c.keyword ++ t)).lexemes = c.words ++ (scan false t).lexemes := by
  have hand : Outside WordChar false "AND".toList := by simp [Outside, WordChar, isBlank]
  have hor : Outside WordChar false "OR".toList := by simp [Outside, WordChar, isBlank]
  have hnot : Outside WordChar false "NOT".toList := by simp [Outside, WordChar, isBlank]
  have hpair {w : Text} (hw : Outside WordChar false w) (hne : w ≠ []) :
      (scan false (w ++ ' ' :: ("NOT".toList ++ t))).lexemes =
        [word w, word "NOT".toList] ++ (scan false t).lexemes := by
    rw [lexemes_word hw hne (by rw [scan_space]), scan_space, lexemes_mk_nil,
      lexemes_word hnot (by decide) ht]
    rfl
  cases c with
  | and => exact lexemes_word hand (by decide) ht
  | andNot => exact hpair hand (by decide)
  | or => exact lexemes_word hor (by decide) ht
  | orNot => exact hpair hor (by decide)
  | other word => simp [Connective.isKnown] at hc

theorem scan_separator {c : Connective} (hc : c.isKnown = true) (t : Text) :
    scan false (' ' :: (c.keyword ++ ' ' :: t)) = ⟨[], c.words ++ (scan false t).lexemes⟩ := by
  rw [scan_space, lexemes_keyword hc (by rw [scan_space]), scan_space, lexemes_mk_nil]

end Lexeme

namespace Node

private theorem render_ne_nil {l : Leaf} (h : l.Canonical) : l.render ≠ [] := by
  intro hnil
  have hread := h.read
  rw [hnil] at hread
  exact not_readable_nil _ _ hread

mutual

private theorem lexemes_render_append [CharacterData] : ∀ (n : Node), n.Formed 0 → ∀ t : Text,
    (Lexeme.scan false t).within = [] →
      (Lexeme.scan false (n.render ++ t)).lexemes = n.lexemes ++ (Lexeme.scan false t).lexemes
  | leaf l, hl, t, ht => Lexeme.lexemes_word hl.word (render_ne_nil hl) ht
  | group c xs, ⟨hc, hpos, hxs⟩, t, ht => by
    have hclose : (Lexeme.scan false (')' :: t)).within = [] := by rw [Lexeme.scan_closing]
    have hinner := lexemes_renderAll_append c hc xs hpos hxs (')' :: t) hclose
    rw [render, List.cons_append, List.append_assoc, List.cons_append, List.nil_append,
      Lexeme.scan_opening, Lexeme.lexemes_mk_nil, hinner, Lexeme.scan_closing,
      Lexeme.lexemes_mk_nil, lexemes]
    simp

private theorem lexemes_renderAll_append [CharacterData] (c : Connective) (hc : c.isKnown = true) :
    ∀ (xs : List Node), 0 < xs.length → FormedAll 0 xs → ∀ t : Text,
      (Lexeme.scan false t).within = [] →
        (Lexeme.scan false (renderAll (' ' :: (c.keyword.upper ++ [' '])) xs ++ t)).lexemes =
          lexemesAll c xs ++ (Lexeme.scan false t).lexemes
  | [x], _, ⟨hx, _⟩, t, ht => lexemes_render_append x hx t ht
  | x :: y :: ys, _, ⟨hx, hys⟩, t, ht => by
    have hrest := lexemes_renderAll_append c hc (y :: ys) (by simp) hys t ht
    rw [Connective.upper_keyword hc] at hrest ⊢
    rw [renderAll, List.append_assoc]
    simp only [List.cons_append, List.append_assoc, List.nil_append]
    have hsep := Lexeme.scan_separator hc (renderAll (' ' :: (c.keyword ++ [' '])) (y :: ys) ++ t)
    rw [lexemes_render_append x hx _ (by rw [hsep]), hsep, Lexeme.lexemes_mk_nil, hrest,
      lexemesAll, List.append_assoc, List.append_assoc]

end

theorem ofText_render [CharacterData] {n : Node} (h : n.Formed 0) : Lexeme.ofText n.render =
    n.lexemes := by
  have hn := lexemes_render_append n h [] rfl
  rw [List.append_nil] at hn
  rw [Lexeme.ofText, hn]
  exact List.append_nil _

theorem hasReserved_separator [CharacterData] {c : Connective} (hc : c.isKnown = true) :
    hasReserved (' ' :: (c.keyword.upper ++ [' '])) = false := by
  rw [Connective.upper_keyword hc]
  cases c with
  | and => decide
  | andNot => decide
  | or => decide
  | orNot => decide
  | other word => simp [Connective.isKnown] at hc

mutual

private theorem clean_render [CharacterData] : ∀ (n : Node), n.Formed 0 → ∀ ch ∈ n.render, ch ∉
    Connective.symbols
  | leaf l, hl, ch, hm => hl.clean ch hm
  | group c xs, ⟨hc, _, hxs⟩, ch, hm => by
    have hsep : ∀ ch ∈ ' ' :: (c.keyword.upper ++ [' ']), ch ∉ Connective.symbols :=
      hasReserved_eq_false_iff.mp (hasReserved_separator hc)
    simp only [render, List.mem_cons, List.mem_append, List.not_mem_nil, or_false] at hm
    rcases hm with rfl | hm | rfl
    · decide
    · exact clean_renderAll hsep xs hxs ch hm
    · decide

private theorem clean_renderAll [CharacterData] {separator : Text}
    (hs : ∀ ch ∈ separator, ch ∉ Connective.symbols) : ∀ (xs : List Node), FormedAll 0 xs →
      ∀ ch ∈ renderAll separator xs, ch ∉ Connective.symbols
  | [], _, ch, hm => by simp [renderAll] at hm
  | [x], ⟨hx, _⟩, ch, hm => clean_render x hx ch hm
  | x :: y :: ys, ⟨hx, hys⟩, ch, hm => by
    simp only [renderAll, List.mem_append] at hm
    rcases hm with hm | hm | hm
    · exact clean_render x hx ch hm
    · exact hs ch hm
    · exact clean_renderAll hs (y :: ys) hys ch hm

end

theorem hasReserved_render [CharacterData] {n : Node} (h : n.Formed 0) : hasReserved n.render =
    false :=
  hasReserved_eq_false_iff.mpr (clean_render n h)

end Node

/-! ### Items of canonical text -/

theorem Item.ofLexemes_keyword {w : Text} {c : Connective} {ls : List Lexeme}
    (hw : Item.connective? w = some c) (hne : ls.head? ≠ some (.word "NOT".toList)) :
    Item.ofLexemes (.word w :: ls) = .keyword c :: Item.ofLexemes ls := by
  cases ls with
  | nil => simp [Item.ofLexemes, hw]
  | cons i ls =>
    cases i with
    | opening => simp [Item.ofLexemes, hw]
    | closing => simp [Item.ofLexemes, hw]
    | word v =>
      have hv : v ≠ "NOT".toList := fun he => hne (by rw [he]; rfl)
      rw [Item.ofLexemes, hw]
      exact if_neg hv

namespace Node

mutual

/-- Tells that no leaf is taken for a keyword, or joined to the keyword before it if `follows`. -/
def Placed (follows : Bool) : Node → Prop
  | leaf l => Item.connective? l.render = none ∧ (follows = true → l.render ≠ "NOT".toList)
  | gap _ => True
  | group c xs => PlacedAll c false xs

def PlacedAll (c : Connective) (follows : Bool) : List Node → Prop
  | [] => True
  | x :: xs => Placed follows x ∧ PlacedAll c (!c.isNegated) xs

end

theorem ofLexemes_words {c : Connective} (hc : c.isKnown = true) {ls : List Lexeme}
    (h : c.isNegated = false → ls.head? ≠ some (.word "NOT".toList)) :
    Item.ofLexemes (c.words ++ ls) = .keyword c :: Item.ofLexemes ls := by
  cases c with
  | and => exact Item.ofLexemes_keyword rfl (h rfl)
  | andNot => rfl
  | or => exact Item.ofLexemes_keyword rfl (h rfl)
  | orNot => rfl
  | other word => simp [Connective.isKnown] at hc

theorem lexemesAll_cons (c : Connective) (x : Node) (xs : List Node) :
    ∃ ls, lexemesAll c (x :: xs) = x.lexemes ++ ls := by
  cases xs with
  | nil => exact ⟨[], by rw [lexemesAll, List.append_nil]⟩
  | cons y ys => exact ⟨_, by rw [lexemesAll]⟩

private theorem head?_lexemes_append {n : Node} (hn : n.Formed 0) (hp : n.Placed true)
    (ls : List Lexeme) : (n.lexemes ++ ls).head? ≠ some (.word "NOT".toList) := by
  cases n with
  | leaf l =>
    have hne := hp.2 rfl
    simpa [lexemes] using hne
  | gap k => exact hn.elim
  | group c xs => simp [lexemes]

mutual

private theorem ofLexemes_lexemes_append : ∀ (n : Node) {follows : Bool}, n.Formed 0 →
    n.Placed follows → ∀ ls : List Lexeme,
      Item.ofLexemes (n.lexemes ++ ls) = n.operand.items ++ Item.ofLexemes ls
  | leaf l, _, hl, ⟨hword, _⟩, ls => by
    rw [lexemes, List.singleton_append, Item.ofLexemes, hword]
    simp only [hl.squeezed]
    rfl
  | group c xs, _, ⟨hc, hpos, hxs⟩, hp, ls => by
    have hinner := ofLexemes_lexemesAll_append c hc xs hpos hxs hp (.closing :: ls)
    rw [lexemes, List.cons_append, List.append_assoc, List.singleton_append, Item.ofLexemes,
      hinner, Item.ofLexemes, operand, Operand.items]
    simp

private theorem ofLexemes_lexemesAll_append (c : Connective) (hc : c.isKnown = true) :
    ∀ (xs : List Node) {follows : Bool}, 0 < xs.length → FormedAll 0 xs →
      PlacedAll c follows xs → ∀ ls : List Lexeme,
        Item.ofLexemes (lexemesAll c xs ++ ls) =
          Expression.items (chain c xs) ++ Item.ofLexemes ls
  | [x], _, _, ⟨hx, _⟩, ⟨hp, _⟩, ls => ofLexemes_lexemes_append x hx hp ls
  | x :: y :: ys, _, _, ⟨hx, hys⟩, ⟨hp, hps⟩, ls => by
    have hrest := ofLexemes_lexemesAll_append c hc (y :: ys) (by simp) hys hps ls
    -- after a keyword with its own `NOT` a further one is an ordinary term
    have hhead : c.isNegated = false →
        (lexemesAll c (y :: ys) ++ ls).head? ≠ some (.word "NOT".toList) := by
      intro hneg
      obtain ⟨ms, hms⟩ := lexemesAll_cons c y ys
      have hy : y.Placed true := by
        have hy := hps.1
        rwa [hneg] at hy
      rw [hms, List.append_assoc]
      exact head?_lexemes_append hys.1 hy _
    rw [lexemesAll, List.append_assoc, List.append_assoc, ofLexemes_lexemes_append x hx hp,
      ofLexemes_words hc hhead, hrest, chain, Expression.items]
    simp

end

/-- Canonical text with all leaves in place has the items of the tree's own derivation. -/
theorem ofText_render_eq_items [CharacterData] {n : Node} (h : n.Formed 0) (hp : n.Placed false) :
    Item.ofText n.render = n.operand.items := by
  have hn := ofLexemes_lexemes_append n h hp []
  rw [List.append_nil] at hn
  rw [Item.ofText, ofText_render h, hn]
  exact List.append_nil _

end Node

/-! ### The tree of the derivation -/

theorem Expression.tree_uniform {mode : FieldMode} {c : Connective} (hc : c.isKnown = true)
    {o : Operand} {os : List Operand} (hne : os ≠ []) :
    Expression.tree mode (.uniform c o os) = .group c ((o :: os).map (Operand.node mode)) := by
  obtain ⟨before, after, horder, hnot⟩ :=
    List.eq_append_cons_of_mem (Connective.isKnown_iff_mem.mp hc)
  have hmem : ∀ d, d ∈ (Chain.uniform c o os).connectives ↔ d = c := by
    intro d
    rw [Chain.connectives_uniform, List.mem_replicate]
    simp [hne]
  have htree : Expression.tree mode (.uniform c o os) = _ :=
    Expression.tree_of_first horder ((hmem c).mpr rfl) fun d hd hd' => hnot ((hmem d).mp hd' ▸ hd)
  have hnode : Expression.tree mode ∘ Chain.last = Operand.node mode :=
    funext (Expression.tree_last mode)
  rw [htree, Chain.splitOn_uniform, List.map_map, hnode]

namespace Node

private theorem chain_cons (c : Connective) (x : Node) (xs : List Node) :
    chain c (x :: xs) = Chain.uniform c x.operand (xs.map operand) := by
  induction xs generalizing x with
  | nil => rfl
  | cons y ys ih =>
    rw [chain, ih]
    rfl

mutual

/-- A tree is the node of the operand that it is written as. -/
theorem node_operand : ∀ (n : Node), n.Formed 1 → n.operand.node .preserve = n
  | leaf l, hl => by
    rw [operand, Operand.node]
    apply termNode_of_readLeaf
    rw [hl.trimmed, hl.read]
  | group c xs, ⟨hc, hlen, hxs⟩ => by
    have hnodes := nodes_operand xs hxs
    obtain ⟨x, y, ys, rfl⟩ : ∃ x y ys, xs = x :: y :: ys := by
      match xs, hlen with
      | x :: y :: ys, _ => exact ⟨x, y, ys, rfl⟩
    have hparts : (x.operand :: (y :: ys).map operand).map (Operand.node .preserve) =
        x :: y :: ys := by
      simpa [Function.comp_def] using hnodes
    rw [operand, ← Expression.tree_last, Expression.tree_bracketed, chain_cons,
      Expression.tree_uniform hc (by simp), hparts]

theorem nodes_operand : ∀ (xs : List Node), FormedAll 1 xs →
    xs.map (fun x => x.operand.node .preserve) = xs
  | [], _ => rfl
  | x :: xs, ⟨hx, hxs⟩ => by rw [List.map_cons, node_operand x hx, nodes_operand xs hxs]

end

end Node

end BooleanSearch
