import Outline.Source
import Outline.Tree.Kind

/-!
# Syntax trees

A syntax tree is a label with a list of subtrees. A node seen in its tree is a `Cursor`: the subtree
with the chain of nodes above it, nearest first. Walks to the root read that chain, and walks down
extend it, so no node needs an identity of its own.
-/

namespace Outline

/-- What a node says about itself. -/
structure Label where
  kind : Kind
  /-- The field under which the node hangs in its parent. -/
  field : Option Field
  /-- Whether the node stands for something that the source lacks. -/
  missing : Bool
  /-- Offset of the first byte. -/
  start : Nat
  /-- Offset past the last byte. -/
  stop : Nat
deriving DecidableEq, Inhabited

/-- A syntax tree. -/
inductive Tree where
  | node (label : Label) (children : List Tree)
deriving Inhabited

namespace Tree

/-- The label of the root. -/
def label : Tree → Label
  | node l _ => l

/-- The subtrees below the root. -/
def children : Tree → List Tree
  | node _ cs => cs

/-- The kind of the root. -/
def kind (t : Tree) : Kind :=
  t.label.kind

/-- The children that are no tokens. -/
def namedChildren (t : Tree) : List Tree :=
  t.children.filter (·.kind.isNamed)

/-- The first child under a field. -/
def child? (t : Tree) (f : Field) : Option Tree :=
  t.children.find? (·.label.field == some f)

/-- Whether the root has a child of a kind. -/
def hasChild (t : Tree) (k : Kind) : Bool :=
  t.children.any (·.kind == k)

/-- Whether the root has the given token as a child. -/
def hasToken (t : Tree) (text : String) : Bool :=
  t.hasChild (.token text)

/-- The source text of the tree. -/
def text (t : Tree) (src : Source) : String :=
  src.text t.label.start t.label.stop

/-- The location of the tree in its source. -/
def location (t : Tree) (src : Source) : Location :=
  src.locate t.label.start t.label.stop

/-- Whether a node of the tree is an error or stands for something missing. -/
def hasError : Tree → Bool
  | node l cs => l.kind == .error || l.missing || hasErrorBelow cs
where
  /-- Whether one of the trees has an error. -/
  hasErrorBelow : List Tree → Bool
    | [] => false
    | t :: ts => t.hasError || hasErrorBelow ts

end Tree

/-- A node in its tree. -/
structure Cursor where
  /-- The node with all that is below it. -/
  node : Tree
  /-- The nodes above it, the parent first and the root last. -/
  above : List Tree
deriving Inhabited

namespace Cursor

/-- The root of a tree. -/
def root (t : Tree) : Cursor :=
  ⟨t, []⟩

/-- The label of the node. -/
def label (c : Cursor) : Label :=
  c.node.label

/-- The kind of the node. -/
def kind (c : Cursor) : Kind :=
  c.node.kind

/-- The parent of the node. -/
def parent? (c : Cursor) : Option Cursor :=
  match c.above with
  | [] => none
  | p :: ps => some ⟨p, ps⟩

/-- The ancestors of a node with the given nodes above it, nearest first. -/
def chain : List Tree → List Cursor
  | [] => []
  | p :: ps => ⟨p, ps⟩ :: chain ps

/-- The proper ancestors of the node, the parent first and the root last. -/
def ancestors (c : Cursor) : List Cursor :=
  chain c.above

/-- The children of the node, in source order. -/
def children (c : Cursor) : List Cursor :=
  c.node.children.map fun t => ⟨t, c.node :: c.above⟩

/-- The first child under a field. -/
def child? (c : Cursor) (f : Field) : Option Cursor :=
  (c.node.child? f).map fun t => ⟨t, c.node :: c.above⟩

/-- The source text of the node. -/
def text (c : Cursor) (src : Source) : String :=
  c.node.text src

/-- The location of the node. -/
def location (c : Cursor) (src : Source) : Location :=
  c.node.location src

mutual

/-- The nodes of a tree that hangs below the given nodes, each before the nodes below it. -/
def preorderFrom (above : List Tree) : Tree → List Cursor
  | .node l cs => ⟨.node l cs, above⟩ :: preorderBelow (.node l cs :: above) cs

/-- The nodes of several trees that hang below the given nodes. -/
def preorderBelow (above : List Tree) : List Tree → List Cursor
  | [] => []
  | t :: ts => preorderFrom above t ++ preorderBelow above ts

end

/-- All nodes of a tree, each before the nodes below it. -/
def preorder (t : Tree) : List Cursor :=
  preorderFrom [] t

end Cursor

end Outline
