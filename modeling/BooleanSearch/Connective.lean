import BooleanSearch.Text.Quoted

/-!
# Connectives

Four connectives join the operands of a group. Trees built by hand may carry any other word in
their place, so a connective is one of the four or a word that no rule knows.
-/

namespace BooleanSearch

/-- What joins the operands of a group. The negated connectives apply between the first operand
and each later one. -/
inductive Connective (τ : Type := Text) where
  | and
  | andNot
  | or
  | orNot
  | other (word : τ)
  deriving DecidableEq, Repr

-- Named, so that tests for membership do not each carry the instances that it is made from.
instance : LawfulBEq (Connective Text) := inferInstance

namespace Connective

def keyword : Connective → Text
  | and => "AND".toList
  | andNot => "AND NOT".toList
  | or => "OR".toList
  | orNot => "OR NOT".toList
  | other word => word

def ofKeyword (t : Text) : Connective :=
  if t = "AND".toList then and
  else if t = "AND NOT".toList then andNot
  else if t = "OR".toList then or
  else if t = "OR NOT".toList then orNot
  else other t

def isKnown {τ : Type} : Connective τ → Bool
  | other _ => false
  | _ => true

def map {τ υ : Type} (f : τ → υ) : Connective τ → Connective υ
  | and => and
  | andNot => andNot
  | or => or
  | orNot => orNot
  | other word => other (f word)

@[simp] theorem isKnown_map {τ υ : Type} (f : τ → υ) (c : Connective τ) :
    (c.map f).isKnown = c.isKnown := by
  cases c <;> rfl

def isNegated : Connective → Bool
  | andNot => true
  | orNot => true
  | _ => false

def withNot : Connective → Connective
  | or => orNot
  | _ => andNot

/-- The order in which a root connective is looked for. One that is tried earlier splits further
out, so the `AND` family binds tighter than the `OR` family. -/
def splitOrder : List Connective := [or, orNot, and, andNot]

/-- The reserved character that stands for a keyword in normalized text. -/
def symbol : Connective → Char
  | and => Char.ofNat 0xE000
  | andNot => Char.ofNat 0xE001
  | or => Char.ofNat 0xE002
  | orNot => Char.ofNat 0xE003
  | other _ => Char.ofNat 0

def symbols : List Char := [and.symbol, andNot.symbol, or.symbol, orNot.symbol]

@[simp] theorem keyword_ofKeyword (t : Text) : (ofKeyword t).keyword = t := by
  unfold ofKeyword
  split
  · next h => exact h.symm
  split
  · next h => exact h.symm
  split
  · next h => exact h.symm
  split
  · next h => exact h.symm
  · rfl

theorem ofKeyword_keyword {c : Connective} (h : c.isKnown = true) : ofKeyword c.keyword = c := by
  cases c <;> first | rfl | simp [isKnown] at h

def parse? (t : Text) : Option Connective :=
  let c := ofKeyword t
  if c.isKnown then some c else none

def unknownMessage [CharacterData] (t : Text) : String := "unknown connective " ++ t.quote

end Connective

end BooleanSearch
