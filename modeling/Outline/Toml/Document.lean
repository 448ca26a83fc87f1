import Outline.Toml.Scalar

/-!
# TOML documents

The reader for whole documents. Arrays and tables in braces may be nested, and keys may have parts,
up to a fixed depth.
-/

namespace Outline.Toml

open Outline.Text

namespace Read

open Outline.Text.Reader

/-- Nesting and keys stay below this depth. -/
def depthLimit : Nat := 80

/-! ## Keys -/

/-- A part of a key: a bare word or a string on one line. -/
def keyPart : Reader String := do
  spaces
  let part ← basicString <|> literalString <|>
    (String.ofList <$> run1 fun c => c.isAlphanum || c == '_' || c == '-')
  spaces
  return part

/-- The parts of a key. -/
def key : Reader (List String) := do
  let first ← keyPart
  let rest ← many (do
    let _ ← char '.'
    keyPart)
  if rest.length + 1 < depthLimit then return first :: rest else failure

/-- The parts before the last one, and the last one. -/
def splitKey : Reader (List String × String) := do
  let parts ← key
  match parts.getLast? with
  | some last => return (parts.dropLast, last)
  | none => failure

/-- A key with its value. -/
def pair (value : Reader Toml) : Reader Pair := do
  let (path, key) ← splitKey
  let _ ← char '='
  spaces
  return ⟨path, key, ← value⟩

/-! ## Values -/

/-- Blanks, line ends and comments between the items of an array. -/
def filler : Reader Unit := do
  let _ ← many ((do let _ ← run1 isSpace) <|> newline <|> (do
    comment
    newline))

/-- What a reader reads, repeated with commas in between; perhaps nothing. -/
def commaSeparated {α : Type} (r : Reader α) : Reader (List α) := do
  match ← maybe r with
  | none => return []
  | some first =>
    let rest ← many (do
      let _ ← char ','
      r)
    return first :: rest

/-- An array with items of the given kind. A comma may follow the last item. -/
def array (value : Reader Toml) : Reader Toml := do
  let _ ← char '['
  let items ← commaSeparated (do
    filler
    let v ← value
    filler
    return v)
  if !items.isEmpty then
    let _ ← maybe (char ',')
  filler
  let _ ← char ']'
  return .array items

/-- A table in braces, with values of the given kind. -/
def inlineTable (value : Reader Toml) : Reader Toml := do
  let _ ← char '\x7b'
  let pairs ← commaSeparated (do
    let p ← pair value
    spaces
    return p)
  spaces
  let _ ← char '\x7d'
  match ofPairs? pairs with
  | some t => return t
  | none => failure

/-- A value that is nested no deeper than the given depth. -/
def value : Nat → Reader Toml
  | 0 => scalar
  | depth + 1 => scalar <|> array (value depth) <|> inlineTable (value depth)

/-! ## Lines -/

/-- What a line of a document says. -/
inductive Line where
  | blank
  | heading (h : Heading)
  | pair (p : Pair)

/-- A header. -/
def header : Reader Heading :=
  (do
    word "[["
    let (path, key) ← splitKey
    word "]]"
    return .element path key) <|> (do
    word "["
    let (path, key) ← splitKey
    word "]"
    return .table path key)

/-- A line of a document, up to its end. -/
def line : Reader Line := do
  spaces
  let content ← (Line.heading <$> header) <|> (Line.pair <$> pair (value (depthLimit - 1))) <|>
    pure .blank
  spaces
  let _ ← maybe comment
  return content

/-- The lines of a document. A byte order mark in front does not count. -/
def document : Reader (List Line) := do
  let _ ← maybe (char '\ufeff')
  let first ← line
  let rest ← many (do
    newline
    line)
  return first :: rest

/-- Put lines together to parts: a heading starts a new one. -/
def partsOf : List Line → List Part
  | [] => [⟨.start, []⟩]
  | l :: ls =>
    match l, partsOf ls with
    | .pair p, ⟨.start, ps⟩ :: parts => ⟨.start, p :: ps⟩ :: parts
    | .heading h, ⟨.start, ps⟩ :: parts => ⟨.start, []⟩ :: ⟨h, ps⟩ :: parts
    | _, parts => parts

end Read

/-- Read a document. -/
def read? (text : String) : Option Members := do
  ofParts? (Read.partsOf (← Reader.readAll? Read.document text.toList))

end Outline.Toml
