import Outline.Command.Arguments
import Outline.Config
import Outline.Ignore.Walk
import Outline.Report.Listing

/-!
# Running commands

What a command does, from its arguments to its output. The work and the output are two steps, since
the output of a scan tells how long the work took.
-/

namespace Outline.Command

/-- What the machine has for a command. -/
structure Machine where
  /-- The number of processors. -/
  processors : Nat
  /-- Whether a session of a size can be set up: as many workers can be started, and there is memory
      for parser pools of this size. -/
  setsUp : Nat → Bool

/-- A number stands for a machine with as many processors that sets up every session. -/
instance (n : Nat) : OfNat Machine n :=
  ⟨⟨n, fun _ => true⟩⟩

/-- What a command finds around it. -/
structure World where
  files : FileSystem
  /-- The home directory of the user. -/
  home : Option String
  frontend : Frontend
  machine : Machine

/-- What a command prints and how it ends. -/
structure Output where
  exitCode : Nat
  /-- What goes to the standard output. -/
  out : List String
  /-- What goes to the error output. -/
  err : List String
deriving DecidableEq, Inhabited

/-- Work that is done. -/
structure Done where
  /-- The scanned directory, if it was a scan. -/
  scanned : Option String
  /-- Whether only exported symbols are shown. -/
  exportedOnly : Bool
  format : OutputFormat
  report : Report
deriving DecidableEq, Inhabited

/-- A line for an error. -/
def errorLine (message : String) : String :=
  "error: " ++ message ++ "\n"

/-- The form of output: JSON if a flag or the configuration asks for it. -/
def formatFor (json : Bool) (c : Config) : OutputFormat :=
  if json || c.defaultFormat == "json" then .json else .lines

/-- The path of the working directory. -/
def currentDirectory (w : World) : Except CommandError String :=
  w.files.currentDirectory.mapError fun e =>
    .file (if e = .notFound then .notFound else .other) e.message

/-- Load the configuration for a directory. -/
def loadConfig (w : World) (directory : String) : Except CommandError Config :=
  (Config.load w.files w.home (some directory)).mapError fun e => .other e.message []

/-- The source files below a directory. -/
def walk (w : World) (c : Config) (directory : String) : Except CommandError (List String) :=
  match Walk.sources? w.files w.home directory c.patterns with
  | some paths => .ok paths
  | none =>
    .error (.other "malformed glob" ["invalid ignore pattern while walking " ++ directory])

/-- The files that a path stands for: a directory for the source files below it, and anything else
    for itself. -/
def expand (w : World) (c : Config) (path : String) : Except CommandError (List String) :=
  if w.files.isDirectory path then walk w c path else .ok [path]

/-- The files that some paths stand for, in the order of the paths. -/
def expandAll (w : World) (c : Config) : List String → Except CommandError (List String)
  | [] => .ok []
  | path :: paths => do
    let here ← expand w c path
    let there ← expandAll w c paths
    return here ++ there

/-- The size of the parser pools. -/
def poolSize (w : World) (c : Config) : Nat :=
  if c.poolSize = 0 then Pool.sizeFor w.machine.processors else c.poolSize

/-- Set up a session. The error is that of workers that do not start. It also stands for the end of
    a program that runs out of memory. -/
def openSession (w : World) (c : Config) : Except CommandError Session :=
  if w.machine.setsUp (poolSize w c) then .ok (.new (poolSize w c))
  else
    .error (.other "Resource temporarily unavailable (os error 11)"
      ["failed to build extraction worker pool"])

/-- Extract some files in a session. -/
def extractFiles (w : World) (c : Config) (session : Session) (paths : List String) : Report :=
  (session.extractPaths ⟨w.frontend, w.files, c.priority⟩ c.maxFileSize paths).1

/-- Do the work of `extract`. The configuration is the one of the working directory. -/
def extract (w : World) (json exportedOnly : Bool) (paths : List String) :
    Except CommandError Done := do
  let c ← loadConfig w (← currentDirectory w)
  let files ← expandAll w c paths
  let session ← openSession w c
  return ⟨none, exportedOnly, formatFor json c, extractFiles w c session files⟩

/-- Do the work of `scan`. The configuration is the one of the directory. -/
def scan (w : World) (json : Bool) (root : String) : Except CommandError Done := do
  if !w.files.isDirectory root then .error (.file .notFound ("not a directory: " ++ root))
  else
    let c ← loadConfig w root
    let files ← walk w c root
    let session ← openSession w c
    return ⟨some root, false, formatFor json c, extractFiles w c session files⟩

/-- Do what the arguments say. -/
def perform (w : World) (a : Arguments) : Except CommandError Done :=
  match a.action with
  | .extract paths exportedOnly => extract w a.json exportedOnly paths
  | .scan path => scan w a.json path

namespace Done

/-- The output of finished work that took some nanoseconds. Failures are part of JSON output; a
    listing leaves them to the error output. -/
def output (d : Done) (elapsed : Nat) : Output where
  exitCode := if d.report.failures.isEmpty then 0 else 1
  out :=
    (match d.scanned with
      | some _ => []
      | none => d.report.results.flatMap (d.format.file d.exportedOnly)) ++
    d.report.failures.flatMap d.format.failure ++
    (match d.scanned with
      | some root => d.format.summary root { d.report.stats with elapsed }
      | none => [])
  err := match d.format with
    | .json => []
    | .lines => d.report.failures.map fun f => errorLine (f.path ++ ": " ++ f.error)

end Done

/-- The output of a command that fails. There are no hints beside JSON output. -/
def failed (json : Bool) (e : CommandError) : Output where
  exitCode := e.exitCode
  out := []
  err := errorLine e.message ::
    if json then [] else e.hint?.toList.map fun hint => "hint: " ++ hint ++ "\n"

/-- The output of a command whose work took some nanoseconds. -/
def run (w : World) (elapsed : Nat) (a : Arguments) : Output :=
  match perform w a with
  | .ok done => done.output elapsed
  | .error e => failed a.json e

end Outline.Command
