import Outline.Path

/-!
# Languages and grammars

The two languages, told apart by a file's extension, and the grammars that read them. TypeScript has
a second grammar for files with JSX; the JavaScript grammar reads JSX always.
-/

namespace Outline

/-- The language of a source file. -/
inductive Language where
  | typescript
  | javascript
  /-- Any other file. -/
  | unknown
deriving DecidableEq, Inhabited

namespace Language

/-- The name in messages and records. -/
def name : Language → String
  | typescript => "typescript"
  | javascript => "javascript"
  | unknown => "unknown"

/-- The extensions of source files, with their languages. -/
def extensions : List (String × Language) :=
  [("ts", typescript), ("mts", typescript), ("cts", typescript), ("tsx", typescript),
   ("js", javascript), ("jsx", javascript), ("mjs", javascript), ("cjs", javascript)]

/-- The language that an extension stands for. -/
def ofExtension (extension : Option String) : Language :=
  (extension.bind fun e => extensions.lookup e).getD unknown

/-- The language of the file that a path names. -/
def ofPath (path : String) : Language :=
  ofExtension (Route.ofText path).extension?

end Language

/-- Whether a path names a file that may hold JSX. -/
def isJsxPath (path : String) : Bool :=
  match (Route.ofText path).extension? with
  | some "tsx" | some "jsx" => true
  | _ => false

/-- A grammar: a language and whether it reads JSX. -/
structure Grammar where
  language : Language
  jsx : Bool
deriving DecidableEq, Inhabited

namespace Grammar

/-- The grammar of a language. Only TypeScript has a separate one for JSX. -/
def of (language : Language) (jsx : Bool) : Grammar :=
  ⟨language, jsx && language == .typescript⟩

/-- The grammar that reads the file at a path. -/
def ofPath (path : String) : Grammar :=
  of (.ofPath path) (isJsxPath path)

/-- The name in messages. -/
def name (g : Grammar) : String :=
  if g.jsx then g.language.name ++ "+jsx" else g.language.name

/-- Whether the grammar can read anything. -/
def isKnown (g : Grammar) : Bool :=
  g.language != .unknown

end Grammar

end Outline
