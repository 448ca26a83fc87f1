import Outline.Report.Seconds
import Outline.Report.Values

/-!
# Listings

The output for a user: a line for each record that starts with the file and its line, or a JSON
object for each file.
-/

namespace Outline

/-- The forms of output. -/
inductive OutputFormat where
  /-- Lines that start with a file and a line. -/
  | lines
  /-- A JSON object on each line. -/
  | json
deriving DecidableEq, Inhabited

/-- The written form of a parameter with its type. -/
def parameterText (name type : String) : String :=
  if type = "" then name else name ++ ": " ++ type

namespace Symbol

/-- The parameter list of a callable symbol. -/
def parameterList (s : Symbol) : String :=
  if s.kind.isCallable then
    "(" ++ ", ".intercalate (s.parameters.zipWith parameterText s.parameterTypes) ++ ")"
  else ""

/-- The signature of a symbol on one line. -/
def signature (s : Symbol) : String :=
  String.join (s.modifiers.map (·.name ++ " ")) ++ s.kind.name ++ " " ++ s.qualifiedName ++
    s.parameterList ++ (if s.returnType = "" then "" else ": " ++ s.returnType)

/-- What a listing says of a symbol. -/
def entry (s : Symbol) : String :=
  (if s.exported then "export " else "") ++ s.signature

end Symbol

/-- Names in braces. -/
def braced (names : List String) : String :=
  "\x7b" ++ ", ".intercalate names ++ "\x7d"

namespace Import

/-- A bound name with the imported one, if they differ. -/
def nameText (bound imported : String) : String :=
  if bound = imported then bound else imported ++ " as " ++ bound

/-- What a listing says of an import. -/
def entry (i : Import) : String :=
  let names := i.names.entries.map fun e => nameText e.1 e.2
  "import " ++ i.form.name ++ " " ++ i.source ++
    (if names.isEmpty then "" else " " ++ braced names) ++
    (match i.resolvedPath with
      | some path => " -> " ++ path
      | none => "")

end Import

namespace Export

/-- An exported name with the local one, if they differ, and what it names. -/
def nameText (aliases : Dict) (name kind : String) : String :=
  match aliases.get? name with
  | some inner => inner ++ " as " ++ name ++ " (" ++ kind ++ ")"
  | none => name ++ " (" ++ kind ++ ")"

/-- What a listing says of an export. -/
def entry (e : Export) : String :=
  let names := e.names.entries.map fun n => nameText e.aliases n.1 n.2
  "export " ++ e.form.name ++ " " ++ braced names ++
    (match e.source with
      | some source => " from " ++ source
      | none => "") ++
    (if e.commonjs then " [commonjs]" else "")

end Export

/-- A line of a listing. -/
def listingLine (path : String) (l : Location) (entry : String) : String :=
  path ++ ":" ++ toString l.startLine ++ ":  " ++ entry ++ "\n"

namespace FileRecord

/-- The listing of a record. -/
def lines (r : FileRecord) : List String :=
  r.symbols.map (fun s => listingLine r.path s.location s.entry) ++
    r.imports.map (fun i => listingLine r.path i.location i.entry) ++
    r.exports.map (fun e => listingLine r.path e.location e.entry) ++
    r.types.entries.map fun t => r.path ++ ":  type " ++ t.1 ++ ": " ++ t.2 ++ "\n"

end FileRecord

/-- A JSON value on a line of its own. -/
def Json.line (j : Json) : String :=
  j.render ++ "\n"

namespace OutputFormat

/-- The output for a file, with all or only its exported symbols. -/
def file (format : OutputFormat) (exportedOnly : Bool) (r : FileRecord) : List String :=
  let shown := if exportedOnly then r.exportedOnly else r
  match format with
  | json => [shown.toJson.line]
  | lines => shown.lines

/-- The output for a failure. In a listing it has no place. -/
def failure (format : OutputFormat) (f : Failure) : List String :=
  match format with
  | json => [f.toJson.line]
  | lines => []

/-- The output for the counts of a scan. -/
def summary (format : OutputFormat) (root : String) (s : Stats) : List String :=
  match format with
  | json => [(s.toJson root).line]
  | lines =>
    [s!"{root}: {s.files} files ({s.symbols} symbols, {s.imports} imports, {s.exports} exports) in "
      ++ Seconds.text s.elapsed ++ "s\n"] ++
    (if 0 < s.failures || 0 < s.skipped then
      [s!"{root}: {s.failures} failed, {s.skipped} skipped\n"] else []) ++
    [s!"{root}: {s.parsersCreated} parsers created for {s.parsesCalled} parses\n"]

end OutputFormat

end Outline
