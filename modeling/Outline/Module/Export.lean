import Outline.Module.Import

/-!
# Exports

One record for each exported declaration, value, specifier or module, from `export` statements and
from assignments to `exports`.
-/

namespace Outline

/-- How an export exposes names. -/
inductive ExportForm where
  | named
  | default
  | namespaced
  | reExport
  | typeNamed
  | typeReExport
deriving DecidableEq, Inhabited

namespace ExportForm

/-- The name in records and listings. -/
def name : ExportForm → String
  | named => "named"
  | default => "default"
  | namespaced => "namespace"
  | reExport => "re_export"
  | typeNamed => "type_named"
  | typeReExport => "type_re_export"

/-- All forms. -/
def all : List ExportForm :=
  [named, default, namespaced, reExport, typeNamed, typeReExport]

/-- The form of an export that is only for types. -/
def typeOnly : ExportForm → ExportForm
  | named => typeNamed
  | reExport => typeReExport
  | form => form

end ExportForm

/-- The record of an export. -/
structure Export where
  /-- The source of the module that is exported again. -/
  source : Option String
  /-- The file that the source means, if it means one. -/
  resolvedPath : Option String
  /-- The exported names, each with what it names: the kind of a declaration, `value` for an
      expression, `binding` for a specifier and `*` for a whole module. -/
  names : Dict
  /-- The exported names that differ from the local ones, with those. -/
  aliases : Dict
  form : ExportForm
  /-- Whether the export is an assignment. -/
  commonjs : Bool
  location : Location
deriving DecidableEq, Inhabited

namespace Export

/-! ## Names of declarations -/

/-- What a declaration that is none of variables declares. -/
def labelOf : Kind → String
  | .functionDeclaration | .generatorFunctionDeclaration | .functionSignature => "function"
  | .classDeclaration | .abstractClassDeclaration | .classExpression => "class"
  | .interfaceDeclaration => "interface"
  | .typeAliasDeclaration => "type"
  | .enumDeclaration => "enum"
  | .internalModule | .moduleBlock => "namespace"
  | _ => "value"

/-- The name that a declarator binds, and what it is. -/
def declaratorName? (src : Source) (constant : Bool) (d : Tree) : Option (String × String) :=
  (d.child? .name).map fun name =>
    (name.text src,
      if (d.child? .value).any (·.kind.isFunctionValue) then "function"
      else if constant then "constant" else "variable")

/-- The names that a declaration of variables binds. -/
def variableNames (src : Source) (decl : Tree) : List (String × String) :=
  (decl.namedChildren.filter (·.kind == .variableDeclarator)).filterMap
    (declaratorName? src (decl.hasToken "const"))

mutual

/-- The names that a declaration declares, with what they are. A `declare` wrapper declares what is
    inside it. -/
def declaredNames (src : Source) : Tree → List (String × String)
  | .node l cs =>
    if l.kind == .ambientDeclaration then
      (declaredBelow src cs).filter fun n => n.1 != ""
    else if l.kind.isVariables then variableNames src (.node l cs)
    else
      [((((Tree.node l cs).child? .name).map fun n => Text.stripQuotes (n.text src)).getD "",
        labelOf l.kind)]

/-- The names that the declarations among some trees declare. -/
def declaredBelow (src : Source) : List Tree → List (String × String)
  | [] => []
  | t :: ts =>
    if t.kind.isNamed && t.kind != .comment then declaredNames src t ++ declaredBelow src ts
    else declaredBelow src ts

end

/-! ## `export` statements -/

/-- What an export exposes. -/
structure Exposed where
  form : ExportForm
  names : Dict
  aliases : Dict

/-- A default export of something that is named `name` here; an empty name is none. -/
def exposeDefault (name kind : String) : Exposed :=
  ⟨.default, .single "default" kind, if name = "" then .empty else .single "default" name⟩

/-- An exported declaration. -/
def exposeDeclaration (src : Source) (statement decl : Tree) : Exposed :=
  let declared := declaredNames src decl
  if statement.hasToken "default" then
    let first := declared.head?.getD ("", "")
    exposeDefault first.1 first.2
  else ⟨.named, .ofList declared, .empty⟩

/-- An exported expression. -/
def exposeValue (src : Source) (value : Capture) : Exposed :=
  let ownName := ((value.site.node.child? .name).map (·.text src)).getD ""
  let kind := value.site.kind
  if kind == .identifier then exposeDefault value.text "value"
  else if kind == .classExpression then exposeDefault ownName "class"
  else if kind.isFunctionValue then exposeDefault ownName "function"
  else exposeDefault "" "value"

/-- An export specifier, with its alias if it has one. -/
def exposeSpecifier (hasSource : Bool) (name : Capture) (renamed : Option Capture) : Exposed :=
  let inner := Text.stripQuotes name.text
  let outer := (renamed.map fun a => Text.stripQuotes a.text).getD inner
  let form : ExportForm := if hasSource then .reExport else .named
  let typeOnly := (name.site.parent?).any fun s =>
    s.kind == .exportSpecifier && s.node.hasToken "type"
  ⟨if typeOnly then form.typeOnly else form, .single outer "binding",
   if outer = inner then .empty else .single outer inner⟩

/-- What a match of an `export` statement exposes. -/
def exposed? (src : Source) (statement : Tree) (m : Match) : Option Exposed :=
  match m.field? "declaration", m.field? "value" with
  | some d, _ => some (exposeDeclaration src statement d.site.node)
  | none, some v => some (exposeValue src v)
  | none, none =>
    if m.hasField "wildcard" then some ⟨.reExport, .single "*" "*", .empty⟩
    else match m.field? "namespace", m.withAlias? "name" with
      | some ns, _ => some ⟨.namespaced, .single (Text.stripQuotes ns.text) "*", .empty⟩
      | none, some (name, renamed) => some (exposeSpecifier (m.hasField "source") name renamed)
      | none, none => none

/-- The record of a match of an `export` statement. -/
def ofStatement? (fs : FileSystem) (importer : String) (src : Source) (m : Match) :
    Option Export := do
  let statement := (← m.field? "statement").site
  let exposed ← exposed? src statement.node m
  let source := (m.field? "source").map fun c => Text.stripQuotes c.text
  return {
    source := source
    resolvedPath := source.bind (Module.resolve? fs importer)
    names := exposed.names
    aliases := exposed.aliases
    form := if statement.node.hasToken "type" then exposed.form.typeOnly else exposed.form
    commonjs := false
    location := statement.location src }

/-! ## Assignments -/

/-- The name that a property of an object literal exports, with what it names. -/
def propertyName? (src : Source) (t : Tree) : Option (String × String) :=
  match t.kind with
  | .shorthandPropertyIdentifier => some (t.text src, "binding")
  | .pair => (t.child? .key).map fun k => (Text.stripQuotes (k.text src), "value")
  | _ => none

/-- The exports of a value that replaces the whole module: the properties of an object literal, or
    the value as the default. -/
def exposeModule (src : Source) (value : Tree) : Exposed :=
  if value.kind == .objectLiteral then
    ⟨.named, .ofList (value.namedChildren.filterMap (propertyName? src)), .empty⟩
  else ⟨.default, .single "default" "value", .empty⟩

/-- The part of an assignment's target that names what is exported, as far as the target says
    `exports` or `exports.…`: without a leading `module.`. -/
def targetPath (target : List Char) : List Char :=
  (Text.after? "module.".toList target).getD target

/-- What an assignment exposes. The target is `exports`, possibly after `module.`, or a member of
    it, of which the first part counts. -/
def exposeAssignment? (src : Source) (target : List Char) (value : Tree) : Option Exposed :=
  let path := targetPath target
  if path = "exports".toList then some (exposeModule src value)
  else (Text.after? "exports.".toList path).map fun member =>
    ⟨.named, .single (String.ofList (member.takeWhile (· != '.'))) "value", .empty⟩

/-- The record of a match of an assignment. An assignment without a target replaces the module. -/
def ofAssignment? (src : Source) (m : Match) : Option Export := do
  let value ← m.field? "commonjs_value"
  let target := ((m.field? "commonjs_target").map (·.text.toList)).getD "exports".toList
  let exposed ← exposeAssignment? src target value.site.node
  return {
    source := none
    resolvedPath := none
    names := exposed.names
    aliases := exposed.aliases
    form := exposed.form
    commonjs := true
    location := ((m.field? "commonjs_statement").getD value).site.location src }

/-- Whether a tag says that it is one of an assignment. -/
def isAssignmentTag (tag : Tag) : Bool :=
  [tag.category, tag.field].any fun s => Text.occursIn "commonjs".toList s.toList

/-- Whether a match is one of an assignment. -/
def isAssignment (m : Match) : Bool :=
  m.captures.any (isAssignmentTag ·.tag)

/-- The record of a match. -/
def ofMatch? (fs : FileSystem) (importer : String) (src : Source) (m : Match) : Option Export :=
  if isAssignment m then ofAssignment? src m else ofStatement? fs importer src m

/-- The exports of some matches, in source order. -/
def ofMatches (fs : FileSystem) (importer : String) (src : Source) (ms : List Match) :
    List Export :=
  let found := (ms.filter (·.hasCategory "export")).filterMap (ofMatch? fs importer src)
  found.mergeSort fun a b => a.location.startByte ≤ b.location.startByte

end Export

end Outline
