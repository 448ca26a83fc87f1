import Outline.Text.Blank

/-!
# Arguments

The arguments of a command line. They are read from left to right, and the first that makes no sense
ends the reading. Flags may stand before and after the name of the command, and among its paths;
after `--` everything is a path.
-/

namespace Outline.Command

/-- What to do. -/
inductive Action where
  /-- Extract the given files, and those in the given directories. -/
  | extract (paths : List String) (exportedOnly : Bool)
  /-- Extract a directory and sum up. -/
  | scan (path : String)
deriving DecidableEq, Inhabited

/-- The arguments of a command line. -/
structure Arguments where
  action : Action
  /-- Whether JSON output is asked for. -/
  json : Bool
deriving DecidableEq, Inhabited

/-- Why there is nothing to do. -/
inductive Stop where
  | help
  | version
  /-- There are no arguments at all. -/
  | noArguments
  /-- There are flags, but no command. -/
  | missingCommand
  | unknownCommand
  | unknownArgument
  /-- A command lacks its paths. -/
  | missingPath
  | emptyPath
  /-- A flag is given a value. -/
  | surplusValue
  | repeatedFlag
deriving DecidableEq, Inhabited

/-- The exit code of a program that stops. Help and version are no errors. -/
def Stop.exitCode : Stop → Nat
  | help | version => 0
  | _ => 2

/-- Something that may be switched on. -/
inductive Flag where
  | help
  | version
  | json
  | exported
deriving DecidableEq, Inhabited

/-- The part of a command line that is read. -/
inductive Level where
  /-- Before the name of the command. -/
  | top
  | extract
  | scan
deriving DecidableEq, Inhabited

namespace Level

/-- The flags, by their long names. -/
def longFlags : Level → List (String × Flag)
  | top => [("help", .help), ("version", .version), ("json", .json)]
  | extract => [("help", .help), ("json", .json), ("exported", .exported)]
  | scan => [("help", .help), ("json", .json)]

/-- The flags that have a short name. -/
def shortFlags : Level → List (Char × Flag)
  | top => [('h', .help), ('V', .version)]
  | extract | scan => [('h', .help)]

/-- Whether another path may follow the given ones. -/
def takesPath : Level → List String → Bool
  | top, _ => false
  | extract, _ => true
  | scan, paths => paths.isEmpty

end Level

/-- What has been read at a level. -/
structure Given where
  json : Bool
  exported : Bool
  paths : List String
deriving DecidableEq, Inhabited

namespace Given

/-- Nothing yet. -/
def none : Given :=
  ⟨false, false, []⟩

/-- Fail if one of the paths is empty. -/
def checkPaths (g : Given) : Except Stop Given :=
  if g.paths.contains "" then .error .emptyPath else .ok g

/-- Switch a flag on. The paths before it are checked first. -/
def switch (g : Given) (f : Flag) : Except Stop Given := do
  let g ← g.checkPaths
  match f with
  | .help => .error .help
  | .version => .error .version
  | .json => if g.json then .error .repeatedFlag else .ok { g with json := true }
  | .exported => if g.exported then .error .repeatedFlag else .ok { g with exported := true }

/-- Read an argument with a long name, after its dashes. -/
def long (level : Level) (g : Given) (argument : List Char) : Except Stop Given :=
  let name := argument.takeWhile (· != '=')
  match level.longFlags.lookup (String.ofList name) with
  | .none => .error .unknownArgument
  | .some f => if argument.contains '=' then .error .surplusValue else g.switch f

/-- Read short names that follow one dash, one after the other. -/
def short (level : Level) (g : Given) : List Char → Except Stop Given
  | [] => .ok g
  | c :: cs =>
    match level.shortFlags.lookup c with
    | .none => .error .unknownArgument
    | .some f => do
      let g ← g.switch f
      short level g cs

end Given

/-- The forms of an argument. -/
inductive Form where
  /-- Two dashes and nothing else. -/
  | separator
  | long (text : List Char)
  | short (text : List Char)
  /-- Anything else; a single dash too. -/
  | word

/-- The form of an argument. -/
def formOf (argument : String) : Form :=
  match argument.toList with
  | ['-', '-'] => .separator
  | '-' :: '-' :: text => .long text
  | ['-'] => .word
  | '-' :: text => .short text
  | _ => .word

/-- Take a path, if there may be another one. -/
def takePath (level : Level) (g : Given) (path : String) : Except Stop Given :=
  if level.takesPath g.paths then .ok { g with paths := g.paths ++ [path] }
  else .error .unknownArgument

/-- Read the arguments of a command. After `--` all of them are paths. -/
def readRest (level : Level) (onlyPaths : Bool) (g : Given) : List String → Except Stop Given
  | [] => g.checkPaths
  | argument :: rest =>
    if onlyPaths then do
      let g ← takePath level g argument
      readRest level true g rest
    else match formOf argument with
      | .separator => readRest level true g rest
      | .long text => do
        let g ← g.long level text
        readRest level false g rest
      | .short text => do
        let g ← g.short level text
        readRest level false g rest
      | .word => do
        let g ← takePath level g argument
        readRest level false g rest

/-- The arguments of `extract`, after it. -/
def readExtract (json : Bool) (rest : List String) : Except Stop Arguments := do
  let g ← readRest .extract false .none rest
  if g.paths.isEmpty then .error .missingPath
  else .ok ⟨.extract g.paths g.exported, json || g.json⟩

/-- The arguments of `scan`, after it. Without a path it means the working directory. -/
def readScan (json : Bool) (rest : List String) : Except Stop Arguments := do
  let g ← readRest .scan false .none rest
  .ok ⟨.scan (g.paths.head?.getD "."), json || g.json⟩

/-- The names of the commands. -/
def commands : List String :=
  ["extract", "scan", "help"]

/-- What `help` answers to the arguments after it: there is help for each command, and no command
    has commands of its own. -/
def readHelp : List String → Stop
  | [] => .help
  | [name] => if commands.contains name then .help else .unknownCommand
  | _ => .unknownCommand

/-- Read the arguments before the name of the command, and the rest after it. -/
def readTop (onlyWords : Bool) (g : Given) : List String → Except Stop Arguments
  | [] => .error (if g.json then .missingCommand else .noArguments)
  | argument :: rest =>
    if onlyWords then
      .error (if commands.contains argument then .unknownArgument else .unknownCommand)
    else match formOf argument with
      | .separator => readTop true g rest
      | .long text => do
        let g ← g.long .top text
        readTop false g rest
      | .short text => do
        let g ← g.short .top text
        readTop false g rest
      | .word =>
        if argument = "extract" then readExtract g.json rest
        else if argument = "scan" then readScan g.json rest
        else if argument = "help" then .error (readHelp rest)
        else .error .unknownCommand

/-- Read a command line, without the name of the program. -/
def Arguments.read (arguments : List String) : Except Stop Arguments :=
  readTop false .none arguments

end Outline.Command
