import Outline.Command.Run
import Outline.Tree.Listing

/-!
# The program

Takes a snapshot of the files that a command may look at, runs the command on it, and prints. The
tree of a source file is read from a listing beside it: that of `a.ts` from `a.ts.tree`.
-/

namespace Outline.Program

open Outline.Command

/-! ## Snapshots -/

/-- The bytes of a file; none if it cannot be read. -/
def bytesAt (path : String) : IO (List UInt8) := do
  try
    return (← IO.FS.readBinFile path).toList
  catch _ =>
    return []

/-- A file, or a directory with all that is in it. Links are left out. -/
partial def entryAt? (path name : String) : IO (Option Entry) := do
  let place := (← IO.currentDir) / path
  try
    match (← place.symlinkMetadata).type with
    | .dir =>
      let inner ← (← place.readDir).toList.filterMapM fun e =>
        entryAt? (joinPath path e.fileName) e.fileName
      return some (.directory name inner)
    | .file => return some (.file name (← bytesAt path))
    | _ => return none
  catch _ =>
    return none

/-- The place that a path leads to from a directory. -/
def placeOf (start : Place) (path : String) : Place :=
  (Route.ofText path).walk start

/-- Add what is at a path to some entries. -/
def addPath (start : Place) (es : List Entry) (path : String) : IO (List Entry) := do
  let place := placeOf start path
  match place.getLast? with
  | none => return es
  | some name =>
    match ← entryAt? path name with
    | some e => return e.graft place.dropLast es
    | none => return es

/-- The files outside of the working directory that a command reads: those of the user, and the
    ignore files of the directories around. -/
def farPaths (home : Option String) (start : Place) : List String :=
  (match home with
    | some h => [Config.pathIn h, joinPath h ".config/git/ignore"]
    | none => []) ++
  (Walk.placesAround start).flatMap fun p =>
    [".ignore", ".gitignore", ".git"].map (joinPath (placePath p))

/-- The paths among the arguments. -/
def argumentPaths (a : Arguments) : List String :=
  match a.action with
  | .extract paths _ => paths
  | .scan path => [path]

/-! ## Trees -/

/-- The tree that the listing beside a file gives. -/
def treeBeside? (es : List Entry) (name : String) : Option Tree := do
  match ← es.find? (·.name == name ++ ".tree") with
  | .file _ bytes =>
    let lines := (String.ofList (← Text.decode? bytes)).splitOn "\n"
    Listing.read? (lines.filter (· != ""))
  | .directory .. => none

mutual

/-- The trees of the source files at an entry that stands among others. -/
def parsedAt (siblings : List Entry) : Entry → List Parsed
  | .file name bytes =>
    match treeBeside? siblings name with
    | some tree => [⟨tree, .ofPath name, ⟨bytes⟩⟩]
    | none => []
  | .directory _ inner => parsedIn inner inner

/-- The trees of the source files at some entries that stand among others. -/
def parsedIn (siblings : List Entry) : List Entry → List Parsed
  | [] => []
  | e :: es => parsedAt siblings e ++ parsedIn siblings es

end

/-- The surroundings of a command. -/
def world (a : Arguments) : IO World := do
  let here := toString (← IO.currentDir)
  let start := placeOf [] here
  let home ← IO.getEnv "HOME"
  let es ← (here :: argumentPaths a ++ farPaths home start).foldlM (addPath start) []
  return ⟨⟨.directory "" es, start⟩, home, .ofParsed (parsedIn es es), 1⟩

/-! ## Printing -/

/-- How the program is called. -/
def usage : String :=
  "usage: outline [--json] extract [--exported] PATH...\n       outline [--json] scan [PATH]\n"

/-- What to say when there is nothing to do. -/
def stopMessage : Stop → String
  | .help => usage
  | .version => "outline 0.1.0\n"
  | .noArguments => usage
  | .missingCommand => errorLine "a command is missing" ++ usage
  | .unknownCommand => errorLine "there is no such command" ++ usage
  | .unknownArgument => errorLine "there is no such argument" ++ usage
  | .missingPath => errorLine "a path is missing" ++ usage
  | .emptyPath => errorLine "a path is empty" ++ usage
  | .surplusValue => errorLine "a flag has no value" ++ usage
  | .repeatedFlag => errorLine "a flag is given twice" ++ usage

/-- Print the output of a command and give its exit code. -/
def finish (o : Output) : IO UInt32 := do
  o.out.forM IO.print
  o.err.forM IO.eprint
  return UInt32.ofNat o.exitCode

/-- Say why there is nothing to do. -/
def stop (s : Stop) : IO UInt32 := do
  if s.exitCode = 0 then IO.print (stopMessage s) else IO.eprint (stopMessage s)
  return UInt32.ofNat s.exitCode

end Outline.Program

open Outline Outline.Command Outline.Program in
/-- Run the program. -/
def main (arguments : List String) : IO UInt32 := do
  match Arguments.read arguments with
  | .error s => stop s
  | .ok a =>
    let w ← world a
    let start ← IO.monoNanosNow
    match ← IO.lazyPure fun _ => perform w a with
    | .error e => finish (failed a.json e)
    | .ok done => finish (done.output ((← IO.monoNanosNow) - start))
