import Outline.Query.Pattern
import Outline.Symbol.Scope
import Outline.Symbol.Signature

/-!
# Symbols from matches

Every match of a symbol rule names a symbol. Several rules may match one name: the symbol is then
built from the first match, and becomes a function if the first match took it for a variable or a
constant and a later one for a function. Symbols come out in source order.
-/

namespace Outline

namespace Symbol

/-- The symbol of a name, taken for the given kind. -/
def ofName (src : Source) (site : Cursor) (name : String) (kind : SymbolKind) : Symbol :=
  let decl := site.declaration?
  let signature := (decl.map (Signature.ofDeclaration src · site)).getD Signature.none
  { name := name
    qualifiedName := (decl.getD site).qualify src name
    kind := kind
    location := match decl with
      | some d => (d.wrapper?.getD d).location src
      | none => site.location src
    visibility := signature.visibility
    modifiers := signature.modifiers
    parameters := signature.parameters.map Prod.fst
    parameterTypes := signature.parameters.map Prod.snd
    returnType := signature.returnType
    exported := site.isExported }

/-- A symbol with the span of its name. -/
structure Found where
  start : Nat
  stop : Nat
  symbol : Symbol

/-- The kind of a name that is taken for two kinds, first and later. -/
def settleKind (first later : SymbolKind) : SymbolKind :=
  if later = .function ∧ (first = .plainVariable ∨ first = .constant) then .function else first

/-- The capture of a match that names a symbol: the first under the field `name`, unless its text is
    empty. -/
def nameOf? (m : Match) : Option Capture :=
  (m.field? "name").filter (·.text != "")

/-- Add the symbol of a name to those found before. -/
def addFound (src : Source) (c : Capture) : List Found → List Found
  | [] => [⟨c.site.label.start, c.site.label.stop,
      ofName src c.site c.text (.ofCategory c.tag.category)⟩]
  | f :: fs =>
    if f.start = c.site.label.start ∧ f.stop = c.site.label.stop then
      { f with symbol.kind := settleKind f.symbol.kind (.ofCategory c.tag.category) } :: fs
    else f :: addFound src c fs

/-- The symbols of some matches, in source order. -/
def ofMatches (src : Source) (ms : List Match) : List Symbol :=
  let found := (ms.filterMap nameOf?).foldl (fun fs c => addFound src c fs) []
  (found.mergeSort fun a b => a.start ≤ b.start).map (·.symbol)

end Symbol

end Outline
