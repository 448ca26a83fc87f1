import Outline.Text.Blank
import Outline.Tree.Basic

/-!
# Where a symbol is declared

Walks from the name of a symbol towards the root: to its declaration, to the statement that exports
the declaration, and through the scopes around it. Each walk reads the chain of ancestors and stops
after a fixed number of them.
-/

namespace Outline.Cursor

/-- The number of ancestors among which the declaration of a name is looked for. -/
def declarationReach : Nat := 8

/-- The number of ancestors whose names go into a qualified name. -/
def scopeReach : Nat := 64

/-- The nearest declaration around a name. -/
def declaration? (name : Cursor) : Option Cursor :=
  (name.ancestors.take declarationReach).find? (·.kind.isDeclaration)

/-- The `declare` wrapper directly around a declaration. -/
def ambient? (decl : Cursor) : Option Cursor :=
  decl.parent?.filter (·.kind == .ambientDeclaration)

/-- The statement that a declaration is part of: the export of the declaration or of the `declare`
    wrapper around it, and otherwise that wrapper. -/
def wrapper? (decl : Cursor) : Option Cursor :=
  (((decl.ambient?.getD decl).parent?).filter (·.kind == .exportStatement)).or decl.ambient?

/-- The name that a node adds to the qualified names inside it. -/
def scopeName? (src : Source) (c : Cursor) : Option String :=
  if c.kind.isScope then
    let name := (c.node.child? .name).map fun t =>
      Text.onChars (Text.trim fun ch => ch == '"' || ch == '\x27') (t.text src)
    name.filter (· != "")
  else none

/-- A name with the names of the scopes around a node, outermost first, joined by dots. -/
def qualify (src : Source) (c : Cursor) (name : String) : String :=
  let scopes := (c.ancestors.take scopeReach).filterMap (scopeName? src)
  ".".intercalate (scopes.reverse ++ [name])

/-- Whether a chain of ancestors leads to an export statement past fewer than `levels` other nodes.
    A `declare` wrapper is no level. -/
def exportWithin : Nat → List Cursor → Bool
  | _, [] => false
  | levels, a :: rest =>
    if a.kind == .exportStatement then true
    else if a.kind == .ambientDeclaration then exportWithin levels rest
    else if levels ≤ 1 then false
    else exportWithin (levels - 1) rest

/-- Where the search for the export of a name starts: a variable's name is one level deeper than
    other names, so its declarator stands in for it. -/
def exportAnchor (name : Cursor) : Cursor :=
  (name.parent?.filter (·.kind == .variableDeclarator)).getD name

/-- Whether the declaration of a name is exported. -/
def isExported (name : Cursor) : Bool :=
  exportWithin 2 name.exportAnchor.ancestors

end Outline.Cursor
