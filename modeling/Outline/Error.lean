import Outline.FileSystem
import Outline.Query.Basic

/-!
# Errors

The ways in which work can fail, layer by layer: parsing, queries, the extraction of a file, a whole
command. An outer error keeps the inner one as its cause, and the message of each is worded in one
place.
-/

namespace Outline

/-- Why a source cannot be parsed. Faults in the source are no such reason: they show in the tree.
    -/
inductive ParseError where
  | unknownLanguage
  /-- There is no pool for the grammar. -/
  | pool (cause : ParseError)
  /-- The pool lends no parser. -/
  | acquire (cause : ParseError)
  /-- A new parser does not accept the grammar. -/
  | binding (grammar : Grammar) (reason : String)
  | poolClosed (grammar : Grammar)
  /-- All pools have been closed. -/
  | closed
  | noTree
deriving DecidableEq, Inhabited

/-- The wording of the error. -/
def ParseError.message : ParseError → String
  | unknownLanguage => "cannot parse unknown language"
  | pool cause => "failed to get pool: " ++ cause.message
  | acquire cause => "failed to acquire parser: " ++ cause.message
  | binding grammar reason => "cannot bind " ++ grammar.name ++ " grammar to parser: " ++ reason
  | poolClosed grammar => "parser pool for " ++ grammar.name ++ " is closed"
  | closed => "parser manager is closed"
  | noTree => "parser produced no tree"

/-- Why a query cannot be had or run. -/
inductive QueryError where
  /-- The language has no such query. -/
  | unsupported (topic : Topic)
  | compile (topic : Topic) (grammar : Grammar) (reason : String)
  /-- The tree is of another grammar. -/
  | grammarMismatch (topic : Topic) (query tree : Grammar)
  /-- The source has another number of bytes than the one that was parsed. -/
  | sourceMismatch (expected actual : Nat)
  | closed
deriving DecidableEq, Inhabited

/-- The wording of the error. -/
def QueryError.message : QueryError → String
  | unsupported topic => "unsupported language for " ++ topic.name ++ " queries"
  | compile topic grammar reason =>
    "failed to compile " ++ topic.name ++ " query for " ++ grammar.name ++ ": " ++ reason
  | grammarMismatch topic query tree =>
    topic.name ++ " query compiled for " ++ query.name ++ " cannot run on a " ++ tree.name ++
      " tree"
  | sourceMismatch expected actual =>
    s!"source is {actual} bytes but the tree was parsed from {expected}"
  | closed => "query manager is closed"

/-- Why nothing can be extracted from a file. -/
inductive ExtractError where
  | unsupportedLanguage (path : String)
  | parse (cause : ParseError)
  | getQuery (topic : Topic) (cause : QueryError)
  | runQuery (topic : Topic) (cause : QueryError)
deriving DecidableEq, Inhabited

/-- The wording of the error. -/
def ExtractError.message : ExtractError → String
  | unsupportedLanguage path => "unsupported language: " ++ path
  | parse cause => "parse failed: " ++ cause.message
  | getQuery topic cause => "failed to get " ++ topic.name ++ " query: " ++ cause.message
  | runQuery topic cause => "failed to execute " ++ topic.name ++ " query: " ++ cause.message

/-- What is wrong with a file that a command needs, as far as advice depends on it. -/
inductive FileProblem where
  | notFound
  | permissionDenied
  | alreadyExists
  | other
deriving DecidableEq, Inhabited

/-- Why a command fails as a whole. -/
inductive CommandError where
  | extract (cause : ExtractError)
  | file (problem : FileProblem) (text : String)
  /-- The command is called in a wrong way. -/
  | usage (text : String)
  /-- Anything else, with what was being done, the innermost first. -/
  | other (text : String) (contexts : List String)
deriving DecidableEq, Inhabited

namespace CommandError

/-- The wording of the error. Of several contexts the outermost counts. -/
def message : CommandError → String
  | extract cause => cause.message
  | file _ text => text
  | usage text => text
  | other text contexts => contexts.getLast?.getD text

/-- The exit code of a command that fails with the error. -/
def exitCode : CommandError → Nat
  | usage _ => 2
  | _ => 1

/-- Advice to the user. -/
def hint? : CommandError → Option String
  | extract (.unsupportedLanguage _) =>
    some "supported extensions: .ts .mts .cts .tsx .js .jsx .mjs .cjs"
  | extract (.getQuery ..) =>
    some "a bundled query failed to compile; the grammar version may not match"
  | file .notFound _ => some "verify the file or directory exists"
  | file .permissionDenied _ => some "check file permissions"
  | _ => none

end CommandError

end Outline
