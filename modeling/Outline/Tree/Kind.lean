/-!
# Kinds and fields of syntax nodes

The kinds of nodes that the extraction looks at, and the fields under which children hang. Every
other named kind is kept by name, and every token by its text.
-/

namespace Outline

/-- The kind of a syntax node. -/
inductive Kind where
  | functionDeclaration
  | generatorFunctionDeclaration
  | functionSignature
  | ambientDeclaration
  | classDeclaration
  | abstractClassDeclaration
  /-- A class expression. -/
  | classExpression
  | interfaceDeclaration
  | typeAliasDeclaration
  | enumDeclaration
  | lexicalDeclaration
  | variableDeclaration
  | variableDeclarator
  | methodDefinition
  | methodSignature
  | abstractMethodSignature
  | publicFieldDefinition
  | fieldDefinition
  | propertySignature
  /-- A `namespace` block. -/
  | internalModule
  /-- A `module` block. -/
  | moduleBlock
  | arrowFunction
  | functionExpression
  | generatorFunction
  | formalParameters
  | requiredParameter
  | optionalParameter
  | assignmentPattern
  | restPattern
  | exportStatement
  | exportClause
  | exportSpecifier
  | namespaceExport
  | importStatement
  | importClause
  | importSpecifier
  | importRequireClause
  | namedImports
  | namespaceImport
  | identifier
  | typeIdentifier
  | propertyIdentifier
  | privatePropertyIdentifier
  | shorthandPropertyIdentifier
  | shorthandPropertyIdentifierPattern
  | objectLiteral
  | objectPattern
  | pair
  | pairPattern
  | stringLiteral
  | arguments
  | callExpression
  | newExpression
  | memberExpression
  | assignmentExpression
  | expressionStatement
  | annotatedType
  | typeArguments
  | genericType
  | intersectionType
  | predefinedType
  | accessibilityModifier
  | comment
  /-- A stretch of source that fits no rule. -/
  | error
  /-- A named node of any other kind. -/
  | other (name : String)
  /-- A token: a keyword, an operator or a punctuation mark. -/
  | token (text : String)
deriving DecidableEq, Inhabited

/-- The field under which a node hangs in its parent. -/
inductive Field where
  | name
  | asName
  | source
  | declaration
  | value
  | key
  | left
  | right
  | function
  | arguments
  | constructor
  | property
  | pattern
  | type
  | parameters
  | parameter
  | returnType
  /-- Any other field. -/
  | other (name : String)
deriving DecidableEq, Inhabited

namespace Kind

/-- The kind of a named node, from the name that the grammars give it. -/
def ofName : String → Kind
  | "function_declaration" => functionDeclaration
  | "generator_function_declaration" => generatorFunctionDeclaration
  | "function_signature" => functionSignature
  | "ambient_declaration" => ambientDeclaration
  | "class_declaration" => classDeclaration
  | "abstract_class_declaration" => abstractClassDeclaration
  | "class" => classExpression
  | "interface_declaration" => interfaceDeclaration
  | "type_alias_declaration" => typeAliasDeclaration
  | "enum_declaration" => enumDeclaration
  | "lexical_declaration" => lexicalDeclaration
  | "variable_declaration" => variableDeclaration
  | "variable_declarator" => variableDeclarator
  | "method_definition" => methodDefinition
  | "method_signature" => methodSignature
  | "abstract_method_signature" => abstractMethodSignature
  | "public_field_definition" => publicFieldDefinition
  | "field_definition" => fieldDefinition
  | "property_signature" => propertySignature
  | "internal_module" => internalModule
  | "module" => moduleBlock
  | "arrow_function" => arrowFunction
  | "function_expression" => functionExpression
  | "function" => functionExpression
  | "generator_function" => generatorFunction
  | "formal_parameters" => formalParameters
  | "required_parameter" => requiredParameter
  | "optional_parameter" => optionalParameter
  | "assignment_pattern" => assignmentPattern
  | "rest_pattern" => restPattern
  | "export_statement" => exportStatement
  | "export_clause" => exportClause
  | "export_specifier" => exportSpecifier
  | "namespace_export" => namespaceExport
  | "import_statement" => importStatement
  | "import_clause" => importClause
  | "import_specifier" => importSpecifier
  | "import_require_clause" => importRequireClause
  | "named_imports" => namedImports
  | "namespace_import" => namespaceImport
  | "identifier" => identifier
  | "type_identifier" => typeIdentifier
  | "property_identifier" => propertyIdentifier
  | "private_property_identifier" => privatePropertyIdentifier
  | "shorthand_property_identifier" => shorthandPropertyIdentifier
  | "shorthand_property_identifier_pattern" => shorthandPropertyIdentifierPattern
  | "object" => objectLiteral
  | "object_pattern" => objectPattern
  | "pair" => pair
  | "pair_pattern" => pairPattern
  | "string" => stringLiteral
  | "arguments" => arguments
  | "call_expression" => callExpression
  | "new_expression" => newExpression
  | "member_expression" => memberExpression
  | "assignment_expression" => assignmentExpression
  | "expression_statement" => expressionStatement
  | "type_annotation" => annotatedType
  | "type_arguments" => typeArguments
  | "generic_type" => genericType
  | "intersection_type" => intersectionType
  | "predefined_type" => predefinedType
  | "accessibility_modifier" => accessibilityModifier
  | "comment" => comment
  | "ERROR" => error
  | name => other name

/-- Whether nodes of this kind are named; the others are tokens. -/
def isNamed : Kind → Bool
  | token _ => false
  | _ => true

/-- Whether a node of this kind is a whole declaration, which a symbol's location covers. -/
def isDeclaration : Kind → Bool
  | functionDeclaration | generatorFunctionDeclaration | functionSignature
  | classDeclaration | abstractClassDeclaration | classExpression
  | interfaceDeclaration | typeAliasDeclaration | enumDeclaration
  | lexicalDeclaration | variableDeclaration
  | methodDefinition | methodSignature | abstractMethodSignature
  | publicFieldDefinition | fieldDefinition | propertySignature => true
  | _ => false

/-- Whether a node of this kind opens a scope that is part of the qualified names inside it. -/
def isScope : Kind → Bool
  | classDeclaration | abstractClassDeclaration | classExpression
  | interfaceDeclaration | internalModule | moduleBlock => true
  | _ => false

/-- Whether a node of this kind is a function used as a value. -/
def isFunctionValue : Kind → Bool
  | arrowFunction | functionExpression | generatorFunction => true
  | _ => false

/-- Whether a node of this kind declares variables. -/
def isVariables : Kind → Bool
  | lexicalDeclaration | variableDeclaration => true
  | _ => false

/-- Whether a node of this kind declares a field of a class. -/
def isClassField : Kind → Bool
  | publicFieldDefinition | fieldDefinition => true
  | _ => false

end Kind

/-- The field with a given name. -/
def Field.ofName : String → Field
  | "name" => name
  | "alias" => asName
  | "source" => source
  | "declaration" => declaration
  | "value" => value
  | "key" => key
  | "left" => left
  | "right" => right
  | "function" => function
  | "arguments" => arguments
  | "constructor" => constructor
  | "property" => property
  | "pattern" => pattern
  | "type" => type
  | "parameters" => parameters
  | "parameter" => parameter
  | "return_type" => returnType
  | text => other text

end Outline
