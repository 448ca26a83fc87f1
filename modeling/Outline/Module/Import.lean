import Outline.Module.Resolve
import Outline.Query.Pattern
import Outline.Text.Dict

/-!
# Imports

One record for each name that an `import` statement or a `require` call binds, and one for a
statement that binds none.
-/

namespace Outline

/-- How an import binds names. -/
inductive ImportForm where
  | named
  | default
  | namespaced
  | sideEffect
  | typeNamed
  | typeDefault
  | typeNamespaced
deriving DecidableEq, Inhabited

namespace ImportForm

/-- The name in records and listings. -/
def name : ImportForm → String
  | named => "named"
  | default => "default"
  | namespaced => "namespace"
  | sideEffect => "side_effect"
  | typeNamed => "type_named"
  | typeDefault => "type_default"
  | typeNamespaced => "type_namespace"

/-- All forms. -/
def all : List ImportForm :=
  [named, default, namespaced, sideEffect, typeNamed, typeDefault, typeNamespaced]

/-- The form of an import that is only for types. -/
def typeOnly : ImportForm → ImportForm
  | named => typeNamed
  | default => typeDefault
  | namespaced => typeNamespaced
  | form => form

end ImportForm

/-- The record of an import. -/
structure Import where
  /-- The source of the module, without quotes. -/
  source : String
  /-- The file that the source means, if it means one. -/
  resolvedPath : Option String
  /-- Whether the source names a package. -/
  isExternal : Bool
  /-- The names that are bound, each with the name that is imported: `default` for the default
      export and `*` for the whole module. -/
  names : Dict
  form : ImportForm
  /-- Whether the import is a `require` call. -/
  commonjs : Bool
  location : Location
deriving DecidableEq, Inhabited

/-- A capture with a field, and the first capture under `alias` after it. -/
def Match.withAlias? (m : Match) (field : String) : Option (Capture × Option Capture) :=
  match m.captures.dropWhile (·.tag.field != field) with
  | [] => none
  | c :: later => some (c, later.find? (·.tag.field == "alias"))

namespace Import

/-- Whether a named part of an import clause binds a name: anything but empty braces. -/
def isBinder (t : Tree) : Bool :=
  t.kind != .namedImports || !t.namedChildren.isEmpty

/-- Whether an `import` statement binds a name. -/
def bindsNames (statement : Tree) : Bool :=
  (statement.children.filter (·.kind == .importClause)).any fun clause =>
    clause.namedChildren.any isBinder

/-- What an import binds. -/
structure Binding where
  form : ImportForm
  names : Dict
  /-- The specifier that the binding comes from. -/
  specifier : Option Tree

/-- What a match binds; nothing if other matches tell what the statement binds. -/
def binding? (m : Match) : Option Binding :=
  match m.field? "namespace", m.field? "default", m.withAlias? "named" with
  | some ns, _, _ => some ⟨.namespaced, .single ns.text "*", none⟩
  | none, some d, _ => some ⟨.default, .single d.text "default", none⟩
  | none, none, some (named, renamed) =>
    some ⟨.named, .single ((renamed.map (·.text)).getD named.text) named.text,
      named.site.parent?.map (·.node)⟩
  | none, none, none =>
    if (m.field? "statement").any (fun s => bindsNames s.site.node) then none
    else some ⟨.sideEffect, .empty, none⟩

/-- Whether an import is only for types: the statement or the specifier says so. -/
def isTypeOnly (m : Match) (specifier : Option Tree) : Bool :=
  (m.field? "statement").any (fun s => s.site.node.hasToken "type") ||
    specifier.any fun s => s.kind == .importSpecifier && s.hasToken "type"

/-- The fields under which the source of an import may be found, in order. -/
def sourceFields : List String :=
  ["source", "require_source", "module", "path"]

/-- Where a match stands: its statement, or its first capture. -/
def locationOf (src : Source) (m : Match) : Location :=
  (((m.field? "statement").or m.captures.head?).map (·.site.location src)).getD default

/-- The record of a match. -/
def ofMatch? (fs : FileSystem) (importer : String) (src : Source) (m : Match) : Option Import := do
  let source := Text.stripQuotes (← m.firstOf? sourceFields).text
  let binding ← binding? m
  let commonjs := m.hasField "require_fn" || m.hasField "require_source"
  let typeOnly := !commonjs && isTypeOnly m binding.specifier
  return {
    source := source
    resolvedPath := Module.resolve? fs importer source
    isExternal := Module.isExternal source
    names := binding.names
    form := if typeOnly then binding.form.typeOnly else binding.form
    commonjs := commonjs
    location := locationOf src m }

/-- The imports of some matches, in source order. -/
def ofMatches (fs : FileSystem) (importer : String) (src : Source) (ms : List Match) :
    List Import :=
  let found := (ms.filter (·.hasCategory "import")).filterMap (ofMatch? fs importer src)
  found.mergeSort fun a b => a.location.startByte ≤ b.location.startByte

end Import

end Outline
