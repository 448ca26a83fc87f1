import Outline.Query.Pattern

/-!
# Rules for imports and exports

One match for each clause or specifier. Both languages share the rules for `import` and `export`
statements, for `require` calls and for assignments to `exports`; TypeScript adds
`import x = require(…)` and `export = x`.
-/

namespace Outline.ModuleRules

/-- A node of a kind, with children. -/
def part (kind : Kind) (children : List Pattern) : Pattern :=
  .node none (.oneOf [kind]) [] none children

/-- A node of a kind under a field, with children. -/
def under (field : Field) (kind : Kind) (children : List Pattern) : Pattern :=
  .node (some field) (.oneOf [kind]) [] none children

/-- A node of a kind, reported. -/
def found (kind : Kind) (tag : Tag) : Pattern :=
  .node none (.oneOf [kind]) [] (some tag) []

/-- A node of a kind under a field, reported. -/
def foundUnder (field : Field) (kind : Kind) (tag : Tag) : Pattern :=
  .node (some field) (.oneOf [kind]) [] (some tag) []

/-- Any named node under a field, reported. -/
def anyUnder (field : Field) (tag : Tag) : Pattern :=
  .node (some field) .anyNamed [] (some tag) []

/-- A tag of an import. -/
def importAs (field : String) : Tag := ⟨"import", field⟩

/-- A tag of an export. -/
def exportAs (field : String) : Tag := ⟨"export", field⟩

/-! ## `import` statements -/

/-- An `import` statement with the given parts in front of its source. -/
def importStatement (parts : List Pattern) : Rule :=
  ⟨.node none (.oneOf [.importStatement]) [] (some (importAs "statement"))
    (parts ++ [foundUnder .source .stringLiteral (importAs "source")]), none⟩

/-- A specifier between the braces of an import clause. -/
def importSpecifier (without : List Field) (rest : List Pattern) : Pattern :=
  part .importClause [part .namedImports
    [.node none (.oneOf [.importSpecifier]) without none
      (anyUnder .name (importAs "named") :: rest)]]

/-- The rules for `import` statements. The last one holds for every statement with a source. -/
def imports : List Rule :=
  [importStatement [part .importClause [found .identifier (importAs "default")]],
   importStatement
     [part .importClause [part .namespaceImport [found .identifier (importAs "namespace")]]],
   importStatement [importSpecifier [.asName] []],
   importStatement [importSpecifier [] [foundUnder .asName .identifier (importAs "alias")]],
   importStatement []]

/-! ## `require` calls -/

/-- The children of a call of a function with a string among its arguments. -/
def requireCall : List Pattern :=
  [foundUnder .function .identifier (importAs "require_fn"),
   under .arguments .arguments [found .stringLiteral (importAs "require_source")]]

/-- The called function is `require`. -/
def isRequire : Guard :=
  ⟨importAs "require_fn", .word "require".toList⟩

/-- A declarator whose value is a `require` call. -/
def requireVariable (name : Pattern) : Rule :=
  ⟨.node none (.oneOf [.variableDeclarator]) [] (some (importAs "statement"))
    [name, under .value .callExpression requireCall], some isRequire⟩

/-- The rules for `require` calls. -/
def requires : List Rule :=
  [requireVariable (foundUnder .name .identifier (importAs "default")),
   requireVariable
     (under .name .objectPattern [found .shorthandPropertyIdentifierPattern (importAs "named")]),
   requireVariable
     (under .name .objectPattern
       [part .pairPattern
         [foundUnder .key .propertyIdentifier (importAs "named"),
          foundUnder .value .identifier (importAs "alias")]]),
   ⟨.node none (.oneOf [.expressionStatement]) [] (some (importAs "statement"))
     [part .callExpression requireCall], some isRequire⟩]

/-! ## `export` statements -/

/-- An `export` statement with children. -/
def exportStatement (without : List Field) (children : List Pattern) : Rule :=
  ⟨.node none (.oneOf [.exportStatement]) without (some (exportAs "statement")) children, none⟩

/-- A specifier between the braces of an export clause. -/
def exportSpecifier (without : List Field) (rest : List Pattern) : Pattern :=
  part .exportClause
    [.node none (.oneOf [.exportSpecifier]) without none
      (anyUnder .name (exportAs "name") :: rest)]

/-- A specifier without an alias. -/
def plainSpecifier : Pattern :=
  exportSpecifier [.asName] []

/-- A specifier with an alias. -/
def aliasedSpecifier : Pattern :=
  exportSpecifier [] [anyUnder .asName (exportAs "alias")]

/-- The source of a re-export. -/
def exportSource : Pattern :=
  foundUnder .source .stringLiteral (exportAs "source")

/-- The rules for `export` statements. -/
def exports : List Rule :=
  [exportStatement [] [anyUnder .declaration (exportAs "declaration")],
   exportStatement [] [anyUnder .value (exportAs "value")],
   exportStatement [.source] [plainSpecifier],
   exportStatement [.source] [aliasedSpecifier],
   exportStatement [] [plainSpecifier, exportSource],
   exportStatement [] [aliasedSpecifier, exportSource],
   exportStatement [] [found (.token "*") (exportAs "wildcard"), exportSource],
   exportStatement []
     [part .namespaceExport [.node none .anyNamed [] (some (exportAs "namespace")) []],
      exportSource]]

/-! ## Assignments to `exports` -/

/-- The targets of an assignment that exports something: `exports` or `module.exports`, alone or
    with a member. -/
def exportsTarget : Text.Regex Char :=
  .seq (.optional (.word "module.".toList))
    (.seq (.word "exports".toList) (.optional (.seq (.exactly '.') .anything)))

/-- The rule for assignments to `exports`. -/
def assignments : List Rule :=
  [⟨.node none (.oneOf [.assignmentExpression]) [] (some (exportAs "commonjs_statement"))
      [foundUnder .left .memberExpression (exportAs "commonjs_target"),
       anyUnder .right (exportAs "commonjs_value")],
    some ⟨exportAs "commonjs_target", exportsTarget⟩⟩]

/-! ## The two languages -/

/-- The rules for JavaScript. -/
def javascript : List Rule :=
  imports ++ requires ++ exports ++ assignments

/-- The rules for TypeScript. -/
def typescript : List Rule :=
  javascript ++
  [⟨.node none (.oneOf [.importStatement]) [] (some (importAs "statement"))
     [part .importRequireClause
       [found .identifier (importAs "default"),
        foundUnder .source .stringLiteral (importAs "require_source")]], none⟩,
   ⟨.node none (.oneOf [.exportStatement]) [] (some (exportAs "commonjs_statement"))
     [part (.token "=") [],
      .node none .anyNamed [] (some (exportAs "commonjs_value")) []], none⟩]

end Outline.ModuleRules
