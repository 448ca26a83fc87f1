import Outline.FileRecord
import Outline.Session.Queries

/-!
# Sessions

A session has the parsers and the queries that many files share. Extraction takes one parse and
three queries; if one of these fails, there is no record.
-/

namespace Outline

/-- What a session finds around it. -/
structure Workshop where
  frontend : Frontend
  files : FileSystem
  /-- The order in which offered types count. -/
  priority : TypePriority

/-- The state of a session. -/
structure Session where
  parsers : Parsers
  queries : Queries

namespace Session

/-- A new session. -/
def new (poolSize : Nat) : Session :=
  ⟨.new poolSize, .new⟩

/-- The three queries of a grammar. -/
structure QuerySet where
  symbols : Query
  modules : Query
  types : Query

/-- Get the queries of a grammar, one after the other. -/
def querySet (qs : Queries) (g : Grammar) : Except ExtractError QuerySet × Queries :=
  let (symbols, qs) := qs.get g .symbols
  match symbols with
  | .error e => (.error (.getQuery .symbols e), qs)
  | .ok symbols =>
    let (modules, qs) := qs.get g .modules
    match modules with
    | .error e => (.error (.getQuery .modules e), qs)
    | .ok modules =>
      let (types, qs) := qs.get g .types
      match types with
      | .error e => (.error (.getQuery .types e), qs)
      | .ok types => (.ok ⟨symbols.query, modules.query, types.query⟩, qs)

/-- Run a query for an extraction. -/
def run (q : Query) (parsed : Parsed) (src : Source) : Except ExtractError (List Match) :=
  (q.run parsed src).mapError (.runQuery q.topic)

/-- The record of a file, from its tree. -/
def record (w : Workshop) (path : String) (parsed : Parsed) (src : Source) (qs : QuerySet) :
    Except ExtractError FileRecord := do
  let symbols ← run qs.symbols parsed src
  let modules ← run qs.modules parsed src
  let types ← run qs.types parsed src
  return {
    path := path
    language := parsed.grammar.language
    symbols := Symbol.ofMatches src symbols
    imports := Import.ofMatches w.files path src modules
    exports := Export.ofMatches w.files path src modules
    types := Typing.ofMatches w.priority types
    hasSyntaxErrors := parsed.tree.hasError }

/-- Extract the record of a file with the given source. -/
def extract (w : Workshop) (s : Session) (path : String) (src : Source) :
    Except ExtractError FileRecord × Session :=
  let grammar := Grammar.ofPath path
  if !grammar.isKnown then (.error (.unsupportedLanguage path), s)
  else
    let (parsed, parsers) := s.parsers.parse w.frontend grammar.language grammar.jsx src
    match parsed with
    | .error e => (.error (.parse e), { s with parsers })
    | .ok parsed =>
      let (set, queries) := querySet s.queries grammar
      (set.bind (record w path parsed src), ⟨parsers, queries⟩)

end Session

end Outline
