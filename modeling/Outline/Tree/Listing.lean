import Outline.Text.Blank
import Outline.Tree.Basic

/-!
# Node listings

A syntax tree as a list of lines, one for each node, each before the nodes below it. A line gives
depth, field, first and last offset and kind, separated by single blanks: `2 name 4 9 identifier`.
The field is `-` where there is none. The kind of a token is its text after an apostrophe; an
exclamation mark before the kind says that the node is missing from the source.
-/

namespace Outline.Listing

/-- One line of a listing. -/
structure Entry where
  /-- Distance from the root. -/
  depth : Nat
  label : Label

/-- The number that a piece of text spells in decimal digits. -/
def number? (digits : List Char) : Option Nat :=
  if digits.isEmpty || !digits.all Char.isDigit then none
  else some (digits.foldl (fun n c => 10 * n + (c.toNat - '0'.toNat)) 0)

/-- The text up to the first blank, and the text after it. -/
def word? (line : List Char) : Option (List Char × List Char) :=
  match line.dropWhile (· != ' ') with
  | [] => none
  | _ :: rest => some (line.takeWhile (· != ' '), rest)

/-- Whether a node is missing, and its kind. -/
def kindOf : List Char → Bool × Kind
  | '!' :: rest => (true, plain rest)
  | rest => (false, plain rest)
where
  /-- The kind without the mark of a missing node. -/
  plain : List Char → Kind
    | '\x27' :: text => .token (String.ofList text)
    | name => .ofName (String.ofList name)

/-- Read one line. -/
def Entry.ofLine? (line : String) : Option Entry := do
  let (depth, rest) ← word? line.toList
  let (field, rest) ← word? rest
  let (start, rest) ← word? rest
  let (stop, rest) ← word? rest
  let (missing, kind) := kindOf rest
  let field := if field = ['-'] then none else some (Field.ofName (String.ofList field))
  return ⟨← number? depth, kind, field, missing, ← number? start, ← number? stop⟩

/-- Put a node in front of the trees that follow it: those that are deeper, up to the first that is
    not, hang below it. -/
def attach (e : Entry) (following : List (Nat × Tree)) : List (Nat × Tree) :=
  let deeper := fun (p : Nat × Tree) => decide (e.depth < p.1)
  (e.depth, .node e.label ((following.takeWhile deeper).map Prod.snd)) ::
    following.dropWhile deeper

/-- The tree of a listing, if it has exactly one root. -/
def tree? (entries : List Entry) : Option Tree :=
  match entries.foldr attach [] with
  | [(_, t)] => some t
  | _ => none

/-- Read a listing. -/
def read? (lines : List String) : Option Tree := do
  tree? (← lines.mapM Entry.ofLine?)

end Outline.Listing
