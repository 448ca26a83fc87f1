import Outline.Language
import Outline.Query.Pattern

/-!
# Rules for symbols

The declarations that give a symbol, by language. A match reports the name of the symbol and its
definition; the category of the tags selects the kind of the symbol.
-/

namespace Outline.SymbolRules

/-- A child under a field, of one of the kinds, reported as the name of a symbol. -/
def nameOf (field : Field) (kinds : List Kind) (category : String) : Pattern :=
  .node (some field) (.oneOf kinds) [] (some ⟨category, "name"⟩) []

/-- A node of a kind that is the definition of a symbol, with children. -/
def definition (kind : Kind) (category : String) (children : List Pattern) : Rule :=
  ⟨.node none (.oneOf [kind]) [] (some ⟨category, "definition"⟩) children, none⟩

/-- A declaration with its name as a direct child. -/
def named (kind : Kind) (category : String) (names : List Kind) : Rule :=
  definition kind category [nameOf .name names category]

/-- The names of class members. -/
def memberNames : List Kind :=
  [.propertyIdentifier, .privatePropertyIdentifier]

/-- A declarator that binds a function. -/
def functionVariable : Rule :=
  definition .variableDeclarator "function"
    [nameOf .name [.identifier] "function",
     .node (some .value) (.oneOf [.arrowFunction, .functionExpression, .generatorFunction])
       [] none []]

/-- A declaration of variables, with a token in front of the declarators if one is given. -/
def declarators (kind : Kind) (category : String) (keyword : Option String) : Rule :=
  definition kind category
    ((keyword.map fun text => .node none (.oneOf [.token text]) [] none []).toList ++
      [.node none (.oneOf [.variableDeclarator]) [] none [nameOf .name [.identifier] category]])

/-- The declarations of variables, in both languages. -/
def variableRules : List Rule :=
  [functionVariable,
   declarators .lexicalDeclaration "constant" (some "const"),
   declarators .lexicalDeclaration "variable" (some "let"),
   declarators .variableDeclaration "variable" none]

/-- The rules for TypeScript. -/
def typescript : List Rule :=
  [named .functionDeclaration "function" [.identifier],
   named .generatorFunctionDeclaration "function" [.identifier],
   named .functionSignature "function" [.identifier],
   named .classDeclaration "class" [.typeIdentifier],
   named .abstractClassDeclaration "class" [.typeIdentifier],
   named .interfaceDeclaration "interface" [.typeIdentifier],
   named .typeAliasDeclaration "type" [.typeIdentifier],
   named .enumDeclaration "enum" [.identifier],
   named .methodDefinition "method" memberNames,
   named .methodSignature "method" [.propertyIdentifier],
   named .abstractMethodSignature "method" [.propertyIdentifier],
   named .publicFieldDefinition "property" memberNames,
   named .propertySignature "property" [.propertyIdentifier]] ++ variableRules

/-- The rules for JavaScript. -/
def javascript : List Rule :=
  [named .functionDeclaration "function" [.identifier],
   named .generatorFunctionDeclaration "function" [.identifier],
   named .classDeclaration "class" [.identifier],
   named .methodDefinition "method" memberNames,
   definition .fieldDefinition "property" [nameOf .property memberNames "property"]] ++
  variableRules

end Outline.SymbolRules
