import Outline.FileSystem
import Outline.Ignore.Glob

/-!
# Ignore rules

A line of an ignore file is a rule about the paths below a directory. An exclamation mark in front
says that the paths are kept after all, a slash in front ties the rule to the directory itself, and
a slash at the end restricts it to directories. A rule without any other slash is about names at
every depth. The last rule that applies to a path decides.
-/

namespace Outline

open Outline.Text

/-- A rule about paths. -/
structure IgnoreRule where
  glob : Glob
  /-- Whether the paths are kept and not ignored. -/
  keeps : Bool
  onlyDirectories : Bool
deriving Inhabited

/-- What is said about a path. -/
inductive Verdict where
  | ignored
  | kept
deriving DecidableEq, Inhabited

/-- What a line of an ignore file says. -/
inductive IgnoreLine where
  /-- Nothing: the line is blank or a comment. -/
  | silent
  | rule (r : IgnoreRule)
  /-- The glob is malformed. -/
  | malformed
deriving Inhabited

namespace IgnoreLine

/-- The text without blanks at its end, unless the last blank is escaped. -/
def trimmed (line : List Char) : List Char :=
  match line.reverse with
  | ' ' :: '\\' :: _ => line
  | _ => trimEnd isBlank line

/-- Whether a rule keeps paths, whether it is tied to its directory, and the rest of the line. -/
def marks : List Char → Bool × Bool × List Char
  | '\\' :: '!' :: rest => (false, false, '!' :: rest)
  | '\\' :: '#' :: rest => (false, false, '#' :: rest)
  | '!' :: '/' :: rest => (true, true, rest)
  | '!' :: rest => (true, false, rest)
  | '/' :: rest => (false, true, rest)
  | rest => (false, false, rest)

/-- Whether a rule is about directories only, and the rest of the line without the slash that says
    so. A backslash before that slash goes too. -/
def directoryMark (line : List Char) : Bool × List Char :=
  match line.reverse with
  | '/' :: '\\' :: rest => (true, rest.reverse)
  | '/' :: rest => (true, rest.reverse)
  | _ => (false, line)

/-- The glob of a rule as it applies to whole paths. One without a slash applies at every depth, and
    one that ends in `**` to what is inside a directory. -/
def wholeGlob (tied : Bool) (glob : List Char) : List Char :=
  let glob := if tied || glob.contains '/' || glob == "**".toList then glob
    else "**/".toList ++ glob
  match glob.reverse with
  | '*' :: '*' :: '/' :: _ => glob ++ "/*".toList
  | _ => glob

/-- Read a line. -/
def read (lenient : Bool) (line : List Char) : IgnoreLine :=
  if line.head? = some '#' then .silent
  else match trimmed line with
    | [] => .silent
    | line =>
      let (keeps, tied, line) := marks line
      let (onlyDirectories, glob) := directoryMark line
      match Glob.read? lenient (wholeGlob tied glob) with
      | some glob => .rule ⟨glob, keeps, onlyDirectories⟩
      | none => .malformed

/-- The rule of a line, if it has one. -/
def rule? : IgnoreLine → Option IgnoreRule
  | rule r => some r
  | _ => none

end IgnoreLine

namespace IgnoreRule

/-- Whether a rule applies to a path. -/
def applies (r : IgnoreRule) (path : List UInt8) (isDirectory : Bool) : Bool :=
  (!r.onlyDirectories || isDirectory) && r.glob.accepts path

/-- What a rule says about the paths that it applies to. -/
def verdict (r : IgnoreRule) : Verdict :=
  if r.keeps then .kept else .ignored

end IgnoreRule

/-- Rules about the paths below a directory. -/
structure RuleSet where
  /-- The path of the directory. -/
  base : String
  rules : List IgnoreRule
deriving Inhabited

namespace RuleSet

/-- What follows the given text, if the path starts with it, and else the path. -/
def dropFront (front path : List Char) : List Char :=
  (after? front path).getD path

/-- Whether a path says the working directory in one step. -/
def isHere (path : String) : Bool :=
  Route.ofText path = ⟨false, [.here]⟩

/-- A path as seen from a directory. A plain name is left as it is, and so is every path if the
    directory is the working directory. -/
def relativeTo (base : String) (path : List Char) : List Char :=
  let path := dropFront "./".toList path
  let base := dropFront "./".toList base.toList
  if isHere (String.ofList base) || !path.contains '/' then path
  else match after? base path with
    | some rest => dropFront "/".toList rest
    | none => path

/-- What the rules say about a path: the last one that applies decides. -/
def verdict? (s : RuleSet) (path : String) (isDirectory : Bool) : Option Verdict :=
  let bytes := encode (String.ofList (relativeTo s.base path.toList))
  (s.rules.reverse.find? (·.applies bytes isDirectory)).map (·.verdict)

/-- The pieces of a file between its line feeds. -/
def pieces : List UInt8 → List (List UInt8)
  | [] => [[]]
  | b :: bs =>
    if b == 10 then [] :: pieces bs
    else match pieces bs with
      | [] => [[b]]
      | piece :: rest => (b :: piece) :: rest

/-- A line without the carriage return that belongs to its end. -/
def unreturned (line : List UInt8) : List UInt8 :=
  if line.getLast? == some 13 then line.dropLast else line

/-- The lines of an ignore file, up to the first that is no text. A line ends in a line feed, with
    or without a carriage return before it; the last line may lack its end. -/
def lines (bytes : List UInt8) : List (List Char) :=
  let all := (pieces bytes).dropLast.map unreturned ++ (pieces bytes).getLast?.toList
  ((all.map decode?).takeWhile Option.isSome).filterMap id

/-- The lines without a byte order mark in front of the first. -/
def unmarked : List (List Char) → List (List Char)
  | [] => []
  | line :: rest => line.dropWhile (· == '\ufeff') :: rest

/-- The rules of an ignore file. Malformed lines do not count. -/
def ofBytes (base : String) (bytes : List UInt8) : RuleSet :=
  ⟨base, (unmarked (lines bytes)).filterMap fun line => (IgnoreLine.read true line).rule?⟩

/-- The rules of the ignore file at a path; none if it cannot be read. -/
def load (fs : FileSystem) (base path : String) : RuleSet :=
  match fs.read path with
  | .ok bytes => ofBytes base bytes
  | .error _ => ⟨base, []⟩

end RuleSet

end Outline
