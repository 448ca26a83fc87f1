import Outline.Symbol.Basic
import Outline.Tree.Basic

/-!
# Signatures

What a declaration says about its symbol: who may use it, its modifiers, its parameters with their
types, and the type of its result. A variable or a field that holds a function takes the parameters
and the result from that function.
-/

namespace Outline

/-- The part of a symbol that its declaration's signature gives. -/
structure Signature where
  visibility : Option Visibility
  modifiers : List Modifier
  /-- The parameters: name and type, the latter empty where none is given. -/
  parameters : List (String × String)
  /-- The type of the result; empty if none is given. -/
  returnType : String
deriving DecidableEq, Inhabited

namespace Signature

/-- The text of a type annotation without its leading colons and the blanks around it. -/
def annotationText (src : Source) (t : Tree) : String :=
  let uncolon := fun cs => (Text.trimStart Text.isBlank cs).dropWhile (· == ':')
  Text.onChars (fun cs => Text.trim Text.isBlank (uncolon cs)) (t.text src)

mutual

/-- The node that a binding pattern is named by: without the default value of an assignment and the
    dots of a rest element. -/
def binder? : Tree → Option Tree
  | .node l cs =>
    if l.kind == .assignmentPattern then binderUnderLeft? cs
    else if l.kind == .restPattern then firstBinder? cs
    else some (.node l cs)

/-- The binder of the first tree under the field `left`. -/
def binderUnderLeft? : List Tree → Option Tree
  | [] => none
  | t :: ts => if t.label.field == some .left then binder? t else binderUnderLeft? ts

/-- The binder of the first tree that is no token. -/
def firstBinder? : List Tree → Option Tree
  | [] => none
  | t :: ts => if t.kind.isNamed then binder? t else firstBinder? ts

end

/-- The name of a binding pattern; empty if it has none. -/
def patternName (src : Source) (t : Tree) : String :=
  ((binder? t).map (·.text src)).getD ""

/-- The name and the type of a parameter; a comment among the parameters is none. -/
def parameter? (src : Source) (t : Tree) : Option (String × String) :=
  match t.kind with
  | .comment => none
  | .requiredParameter | .optionalParameter =>
    some (((t.child? .pattern).map (patternName src)).getD "",
      ((t.child? .type).map (annotationText src)).getD "")
  | _ => some (patternName src t, "")

/-- The parameters of a function: those of its list, or the only one of an arrow function without a
    list. -/
def parametersOf (src : Source) (t : Tree) : List (String × String) :=
  match t.child? .parameters with
  | some list => list.namedChildren.filterMap (parameter? src)
  | none => ((t.child? .parameter).map fun p => (p.text src, "")).toList

/-- The type of a function's result; empty if none is given. -/
def returnTypeOf (src : Source) (t : Tree) : String :=
  ((t.child? .returnType).map (annotationText src)).getD ""

/-- Add a modifier that is not there yet. -/
def addModifier (ms : List Modifier) (m : Modifier) : List Modifier :=
  if m ∈ ms then ms else ms ++ [m]

/-- The modifier that a node is. -/
def modifier? (t : Tree) : Option Modifier :=
  match t.kind with
  | .token text => Modifier.ofToken? text
  | _ => none

/-- The modifiers among some nodes, each once, in the order of their first occurrence. -/
def modifiersOf (ts : List Tree) : List Modifier :=
  (ts.filterMap modifier?).foldl addModifier []

/-- The visibility that the last visibility keyword among some nodes gives. -/
def visibilityOf (src : Source) (ts : List Tree) : Option Visibility :=
  ((ts.filter (·.kind == .accessibilityModifier)).getLast?).bind fun t =>
    Visibility.ofKeyword? (t.text src)

/-- The function that a declaration's name is bound to, if the declaration is one of variables or of
    a class field. -/
def functionValue? (decl name : Cursor) : Option Tree :=
  let holder :=
    if decl.kind.isVariables then
      (name.parent?.filter (·.kind == .variableDeclarator)).map (·.node)
    else some decl.node
  (holder.bind (·.child? .value)).filter (·.kind.isFunctionValue)

/-- Whether a declaration takes its signature from the function that it holds. -/
def isHeld (decl : Cursor) : Bool :=
  decl.kind.isVariables || decl.kind.isClassField

/-- The signature that a declaration gives the symbol with the given name. -/
def ofDeclaration (src : Source) (decl name : Cursor) : Signature :=
  let visibility := visibilityOf src decl.node.children
  let modifiers := modifiersOf decl.node.children
  if isHeld decl then
    match functionValue? decl name with
    | none => ⟨visibility, modifiers, [], ""⟩
    | some f =>
      ⟨visibility, if f.hasToken "async" then addModifier modifiers .async else modifiers,
       parametersOf src f, returnTypeOf src f⟩
  else ⟨visibility, modifiers, parametersOf src decl.node, returnTypeOf src decl.node⟩

/-- The signature of a name without a declaration. -/
def none : Signature :=
  ⟨.none, [], [], ""⟩

end Signature

end Outline
