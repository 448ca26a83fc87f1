/-!
# Regular expressions

Regular expressions over any alphabet, with matching by derivatives: the derivative of an
expression by a symbol accepts what the expression accepts after that symbol, so a word is accepted
exactly if the expression that is left after all its symbols accepts the empty word. Expressions
always describe the whole word; a search that may stop early ends in `anything`.
-/

namespace Outline.Text

/-- A regular expression over the alphabet `α`. -/
inductive Regex (α : Type) where
  /-- No word. -/
  | never
  /-- The empty word. -/
  | empty
  /-- One symbol of a class. -/
  | symbol (accepts : α → Bool)
  /-- A word of the first, then a word of the second. -/
  | seq (r s : Regex α)
  /-- A word of either. -/
  | alt (r s : Regex α)
  /-- Any number of words of the expression, one after the other. -/
  | star (r : Regex α)

namespace Regex

variable {α : Type}

/-- Whether the empty word is accepted. -/
def nullable : Regex α → Bool
  | never => false
  | empty => true
  | symbol _ => false
  | seq r s => r.nullable && s.nullable
  | alt r s => r.nullable || s.nullable
  | star _ => true

/-- A sequence, simplified where one side accepts nothing or only the empty word. -/
def join : Regex α → Regex α → Regex α
  | never, _ => never
  | empty, s => s
  | r, s => seq r s

/-- A choice, simplified where one side accepts nothing. -/
def either : Regex α → Regex α → Regex α
  | never, s => s
  | r, never => r
  | r, s => alt r s

/-- What is left of an expression after one symbol. -/
def deriv (a : α) : Regex α → Regex α
  | never => never
  | empty => never
  | symbol p => if p a then empty else never
  | seq r s =>
    if r.nullable then either (join (r.deriv a) s) (s.deriv a) else join (r.deriv a) s
  | alt r s => either (r.deriv a) (s.deriv a)
  | star r => join (r.deriv a) (star r)

/-- Whether the whole word belongs to the expression. -/
def accepts (r : Regex α) (word : List α) : Bool :=
  (word.foldl (fun r a => r.deriv a) r).nullable

/-- One given symbol. -/
def exactly [BEq α] (a : α) : Regex α :=
  symbol (· == a)

/-- One given word. -/
def word [BEq α] (w : List α) : Regex α :=
  w.foldr (fun a r => seq (exactly a) r) empty

/-- The expression or the empty word. -/
def optional (r : Regex α) : Regex α :=
  alt r empty

/-- Any one symbol. -/
def anyOne : Regex α :=
  symbol fun _ => true

/-- Every word. -/
def anything : Regex α :=
  star anyOne

/-- The words of any of the expressions. -/
def oneOf (rs : List (Regex α)) : Regex α :=
  rs.foldr alt never

end Regex

end Outline.Text
