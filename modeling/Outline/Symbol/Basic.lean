import Outline.Source
import Outline.Text.Blank

/-!
# Symbols

The record of a declared name: what it is called, what it is, where its declaration stands, and the
signature that the declaration gives it.
-/

namespace Outline

/-- What a symbol is. -/
inductive SymbolKind where
  | function
  | classType
  | interfaceType
  | typeAlias
  | plainVariable
  | constant
  | enumeration
  | method
  | property
deriving DecidableEq, Inhabited

namespace SymbolKind

/-- The name in records and listings. -/
def name : SymbolKind → String
  | function => "function"
  | classType => "class"
  | interfaceType => "interface"
  | typeAlias => "type"
  | plainVariable => "variable"
  | constant => "constant"
  | enumeration => "enum"
  | method => "method"
  | property => "property"

/-- All kinds. -/
def all : List SymbolKind :=
  [function, classType, interfaceType, typeAlias, plainVariable, constant, enumeration, method,
   property]

/-- The kind that a category of tags stands for; a variable if the category is not one of a kind. -/
def ofCategory (category : String) : SymbolKind :=
  (all.find? (·.name == category)).getD plainVariable

/-- Whether symbols of the kind are called with arguments. -/
def isCallable : SymbolKind → Bool
  | function | method => true
  | _ => false

end SymbolKind

/-- Who may use a class member. -/
inductive Visibility where
  /-- Everyone. -/
  | everyone
  /-- The class itself. -/
  | ownClass
  /-- The class and those derived from it. -/
  | derivedClasses
deriving DecidableEq, Inhabited

namespace Visibility

/-- The keyword. -/
def name : Visibility → String
  | everyone => "public"
  | ownClass => "private"
  | derivedClasses => "protected"

/-- All visibilities. -/
def all : List Visibility :=
  [everyone, ownClass, derivedClasses]

/-- The visibility that a keyword stands for; blanks around the keyword do not count. -/
def ofKeyword? (text : String) : Option Visibility :=
  all.find? (·.name == Text.trimBlank text)

end Visibility

/-- A keyword in front of a declaration. -/
inductive Modifier where
  | static
  | async
  | readonly
  | abstract
  | const
deriving DecidableEq, Inhabited

namespace Modifier

/-- The keyword. -/
def name : Modifier → String
  | static => "static"
  | async => "async"
  | readonly => "readonly"
  | abstract => "abstract"
  | const => "const"

/-- All modifiers. -/
def all : List Modifier :=
  [static, async, readonly, abstract, const]

/-- The modifier that a token stands for. -/
def ofToken? (text : String) : Option Modifier :=
  all.find? (·.name == text)

end Modifier

/-- A declared name. -/
structure Symbol where
  /-- The name as it is declared. -/
  name : String
  /-- The name with those of the enclosing classes, interfaces and namespaces. -/
  qualifiedName : String
  kind : SymbolKind
  /-- The span of the whole declaration. -/
  location : Location
  visibility : Option Visibility
  /-- The modifiers, each once, in the order of their first occurrence. -/
  modifiers : List Modifier
  /-- The names of the parameters. -/
  parameters : List String
  /-- The types of the parameters; empty where none is given. -/
  parameterTypes : List String
  /-- The type of the result; empty if none is given. -/
  returnType : String
  /-- Whether the declaration is exported. -/
  exported : Bool
deriving DecidableEq, Inhabited

end Outline
