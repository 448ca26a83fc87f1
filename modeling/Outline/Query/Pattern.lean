import Outline.Text.Regex
import Outline.Tree.Basic

/-!
# Tree patterns

A pattern describes a node and some of its children. Its child patterns have to be met by children
in the same order, with any other children in between, and every choice of children that meets them
is a hit of its own. A hit reports the tagged nodes, each before those below it, and the way to the
node that met the last part of the pattern. Hits at one node are reported in the order in which
their last parts are reached on a walk through the tree; rules that end at the same node come in
the order of the rules.
-/

namespace Outline

/-- The name under which a pattern reports a node: what it is part of, and as what. -/
structure Tag where
  category : String
  field : String
deriving DecidableEq, Inhabited

namespace Tag

/-- Read a tag from its written form: the category up to the first dot, the field after it. -/
def ofString (name : String) : Tag :=
  let cs := name.toList
  ⟨String.ofList (cs.takeWhile (· != '.')), String.ofList ((cs.dropWhile (· != '.')).drop 1)⟩

/-- The written form of a tag. -/
def name (t : Tag) : String :=
  t.category ++ "." ++ t.field

end Tag

/-- What a pattern asks of a single node. -/
inductive NodeTest where
  /-- The node has one of the kinds. -/
  | oneOf (kinds : List Kind)
  /-- The node is named and no error. -/
  | anyNamed

/-- Whether a node of a kind passes the test. -/
def NodeTest.accepts : NodeTest → Kind → Bool
  | oneOf kinds, k => kinds.contains k
  | anyNamed, k => k.isNamed && k != .error

/-- A pattern for a node and some of the nodes below it. -/
inductive Pattern where
  /-- A node that hangs under `field` (if given), passes `test`, has no child under the fields
      `without`, is reported under `tag` (if given), and has children that meet `children`. -/
  | node (field : Option Field) (test : NodeTest) (without : List Field) (tag : Option Tag)
      (children : List Pattern)

/-- One way in which a node meets a pattern. -/
structure Hit where
  /-- The tagged nodes, each before those below it. -/
  captures : List (Tag × Cursor)
  /-- The way from the node to the one that met the last part of the pattern: the number of the
      child to descend to, again and again. -/
  finish : List Nat

namespace Pattern

/-- Every element of a list, with the elements after it. -/
def choices {α : Type} : List α → List (α × List α)
  | [] => []
  | a :: as => (a, as) :: choices as

/-- Whether a node passes what a pattern asks of the node itself. -/
def admits (field : Option Field) (test : NodeTest) (without : List Field) (c : Cursor) : Bool :=
  field.all (fun f => c.label.field == some f) && test.accepts c.kind &&
    without.all fun f => (c.node.child? f).isNone

/-- A hit of a child pattern at child `i`, followed by a hit of the child patterns after it. -/
def follow (i : Nat) (first later : Hit) : Hit :=
  ⟨first.captures ++ later.captures,
   if later.finish.isEmpty then i :: first.finish else later.finish⟩

mutual

/-- All ways in which a node meets a pattern. -/
def hits : Pattern → Cursor → List Hit
  | .node field test without tag children, c =>
    if admits field test without c then
      (hitsBelow children c.children.zipIdx).map fun h =>
        ⟨(tag.map (·, c)).toList ++ h.captures, h.finish⟩
    else []

/-- All ways in which some of the numbered nodes meet the patterns, in order. -/
def hitsBelow : List Pattern → List (Cursor × Nat) → List Hit
  | [], _ => [⟨[], []⟩]
  | p :: ps, cs =>
    (choices cs).flatMap fun choice =>
      (p.hits choice.1.1).flatMap fun first =>
        (hitsBelow ps choice.2).map fun later => follow choice.1.2 first later

end

end Pattern

/-- A condition on the text of a tagged node. -/
structure Guard where
  /-- The tag of the node. -/
  tag : Tag
  /-- What its text has to be. -/
  language : Text.Regex Char

/-- A pattern and a condition on its hits. -/
structure Rule where
  pattern : Pattern
  guard : Option Guard

/-- A tagged node of a match, with its text. -/
structure Capture where
  tag : Tag
  text : String
  site : Cursor

/-- A hit of a rule in a source. -/
structure Match where
  /-- The number of the rule. -/
  rule : Nat
  /-- The tagged nodes, each before those below it. -/
  captures : List Capture

namespace Match

/-- The first capture whose tag has the field. -/
def field? (m : Match) (field : String) : Option Capture :=
  m.captures.find? (·.tag.field == field)

/-- Whether a capture's tag has the field. -/
def hasField (m : Match) (field : String) : Bool :=
  m.captures.any (·.tag.field == field)

/-- The capture for the first of the fields that has one. -/
def firstOf? (m : Match) (fields : List String) : Option Capture :=
  fields.findSome? m.field?

/-- Whether a capture's tag has the category. -/
def hasCategory (m : Match) (category : String) : Bool :=
  m.captures.any (·.tag.category == category)

end Match

namespace Rule

/-- Whether a hit satisfies the guard of a rule, if there is one. -/
def allows (r : Rule) (src : Source) (h : Hit) : Bool :=
  r.guard.all fun g =>
    h.captures.all fun (tag, c) =>
      tag != g.tag || g.language.accepts (src.readable c.label.start c.label.stop)

/-- The hits of a rule at a node. -/
def hits (r : Rule) (src : Source) (c : Cursor) : List Hit :=
  (r.pattern.hits c).filter (r.allows src)

/-- A hit of the rule with the given number as a match. -/
def toMatch (src : Source) (number : Nat) (h : Hit) : Match :=
  ⟨number, h.captures.map fun (tag, c) => ⟨tag, c.text src, c⟩⟩

/-- Whether one way down a tree comes before another on a walk through it, or is the same. -/
def reachedBy : List Nat → List Nat → Bool
  | [], _ => true
  | _ :: _, [] => false
  | i :: is, j :: js => i < j || (i == j && reachedBy is js)

/-- The matches of some rules at a node, in the order in which their last parts are reached. -/
def matchesAt (rules : List Rule) (src : Source) (c : Cursor) : List Match :=
  let found := rules.zipIdx.flatMap fun (r, i) => (r.hits src c).map ((i, ·))
  (found.mergeSort fun a b => reachedBy a.2.finish b.2.finish).map fun (i, h) => toMatch src i h

/-- The matches of some rules in a tree, node by node. -/
def matchesIn (rules : List Rule) (src : Source) (t : Tree) : List Match :=
  (Cursor.preorder t).flatMap (matchesAt rules src)

end Rule

end Outline
