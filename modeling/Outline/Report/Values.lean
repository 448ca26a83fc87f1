import Outline.Json
import Outline.Session.Batch

/-!
# Records as JSON values

The JSON value of each record. A member that is absent or empty is left out where that says the
same.
-/

namespace Outline

/-- A member that is always there. -/
def member (key : String) (value : Json) : List (String × Json) :=
  [(key, value)]

/-- A member for a text that may be absent. -/
def textMember? (key : String) (value : Option String) : List (String × Json) :=
  match value with
  | some s => [(key, .string s)]
  | none => []

/-- A member for a text, left out if it is empty. -/
def textMember (key value : String) : List (String × Json) :=
  if value = "" then [] else [(key, .string value)]

/-- A member for a list of texts, left out if it is empty. -/
def listMember (key : String) (values : List String) : List (String × Json) :=
  if values = [] then [] else [(key, .array (values.map .string))]

/-- A dictionary as an object. -/
def Dict.toJson (d : Dict) : Json :=
  .object (d.entries.map fun e => (e.1, .string e.2))

/-- A member for a dictionary, left out if it is empty. -/
def dictMember (key : String) (d : Dict) : List (String × Json) :=
  if d.isEmpty then [] else [(key, d.toJson)]

/-- A location as an object. -/
def Location.toJson (l : Location) : Json :=
  .object
    [("start_line", .number l.startLine), ("start_column", .number l.startColumn),
     ("end_line", .number l.endLine), ("end_column", .number l.endColumn),
     ("start_byte", .number l.startByte), ("end_byte", .number l.endByte)]

/-- A symbol as an object. -/
def Symbol.toJson (s : Symbol) : Json :=
  .object <|
    member "name" (.string s.name) ++
    member "fqn" (.string s.qualifiedName) ++
    member "kind" (.string s.kind.name) ++
    member "location" s.location.toJson ++
    textMember? "visibility" (s.visibility.map (·.name)) ++
    listMember "modifiers" (s.modifiers.map (·.name)) ++
    listMember "parameters" s.parameters ++
    listMember "parameter_types" s.parameterTypes ++
    textMember "return_type" s.returnType ++
    member "is_exported" (.bool s.exported)

/-- An import as an object. -/
def Import.toJson (i : Import) : Json :=
  .object <|
    member "source" (.string i.source) ++
    textMember? "resolved_path" i.resolvedPath ++
    member "is_external" (.bool i.isExternal) ++
    member "names" i.names.toJson ++
    member "form" (.string i.form.name) ++
    member "commonjs" (.bool i.commonjs) ++
    member "location" i.location.toJson

/-- An export as an object. -/
def Export.toJson (e : Export) : Json :=
  .object <|
    textMember? "source" e.source ++
    textMember? "resolved_path" e.resolvedPath ++
    member "names" e.names.toJson ++
    dictMember "aliases" e.aliases ++
    member "form" (.string e.form.name) ++
    member "commonjs" (.bool e.commonjs) ++
    member "location" e.location.toJson

/-- The record of a file as an object. -/
def FileRecord.toJson (r : FileRecord) : Json :=
  .object
    [("path", .string r.path), ("language", .string r.language.name),
     ("symbols", .array (r.symbols.map Symbol.toJson)),
     ("imports", .array (r.imports.map Import.toJson)),
     ("exports", .array (r.exports.map Export.toJson)),
     ("types", r.types.toJson), ("has_syntax_errors", .bool r.hasSyntaxErrors)]

/-- A failure as an object. -/
def Failure.toJson (f : Failure) : Json :=
  .object [("path", .string f.path), ("error", .string f.error)]

/-- The members of the counts of a batch. The time is in whole milliseconds. -/
def Stats.members (s : Stats) : List (String × Json) :=
  [("files", .number s.files), ("symbols", .number s.symbols), ("imports", .number s.imports),
   ("exports", .number s.exports), ("failures", .number s.failures),
   ("skipped", .number s.skipped), ("parsers_created", .number s.parsersCreated),
   ("parses_called", .number s.parsesCalled), ("elapsed_ms", .number (s.elapsed / 1000000))]

/-- The summary of a scan as an object. -/
def Stats.toJson (root : String) (s : Stats) : Json :=
  .object (("root", .string root) :: s.members)

end Outline
