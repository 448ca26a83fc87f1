import Outline.Query.Pattern

/-!
# Rules for type annotations

A match reports the identifier that is bound (a variable, a parameter or a property) and a type that
its annotation or its initial value names: a plain name, or a generic type with one of its
arguments.
-/

namespace Outline.TypeRules

/-- A tag of a type annotation. -/
def typeAs (field : String) : Tag := ⟨"type", field⟩

/-- A node of a kind that binds an identifier and has one more part. -/
def binding (kind : Kind) (field : Field) (name : Kind) (role : String) (rest : Pattern) : Rule :=
  ⟨.node none (.oneOf [kind]) [] none
    [.node (some field) (.oneOf [name]) [] (some (typeAs role)) [], rest], none⟩

/-- The annotation of a binding. -/
def annotated (inner : Pattern) : Pattern :=
  .node (some .type) (.oneOf [.annotatedType]) [] none [inner]

/-- A plain type. -/
def plainType : Pattern :=
  .node none (.oneOf [.typeIdentifier, .predefinedType]) [] (some (typeAs "name")) []

/-- A named type, reported in the given role. -/
def namedType (role : String) : Pattern :=
  .node none (.oneOf [.typeIdentifier]) [] (some (typeAs role)) []

/-- A generic type with one of its arguments. -/
def genericType : Pattern :=
  .node none (.oneOf [.genericType]) [] none
    [namedType "base", .node none (.oneOf [.typeArguments]) [] none [namedType "arg"]]

/-- A member of an intersection of types. -/
def intersectionMember : Pattern :=
  .node none (.oneOf [.intersectionType]) [] none [namedType "name"]

/-- A value that a constructor call makes. -/
def constructed : Pattern :=
  .node (some .value) (.oneOf [.newExpression]) [] none
    [.node (some .constructor) (.oneOf [.identifier]) [] (some (typeAs "name")) []]

/-- A variable with one more part. -/
def variableWith (rest : Pattern) : Rule :=
  binding .variableDeclarator .name .identifier "variable" rest

/-- The rules for TypeScript. -/
def typescript : List Rule :=
  [variableWith (annotated plainType),
   variableWith (annotated genericType),
   variableWith (annotated intersectionMember),
   variableWith constructed,
   binding .requiredParameter .pattern .identifier "parameter" (annotated plainType),
   binding .requiredParameter .pattern .identifier "parameter" (annotated genericType),
   binding .optionalParameter .pattern .identifier "parameter" (annotated plainType),
   binding .publicFieldDefinition .name .propertyIdentifier "property" (annotated plainType)]

/-- The rules for JavaScript, which has no annotations: a constructor call still tells a type. -/
def javascript : List Rule :=
  [variableWith constructed]

end Outline.TypeRules
