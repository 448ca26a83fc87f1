import Outline.FileSystem
import Outline.Toml.Document
import Outline.Typing

/-!
# Configuration

Settings come in layers: the usual ones, those of the user, and those of the directory that is
worked on. A layer replaces the settings that it names and leaves the others alone.
-/

namespace Outline

/-- The settings in force. -/
structure Config where
  /-- The size of parser pools; zero leaves it to the number of processors. -/
  poolSize : Nat
  /-- Files with more than so many units of 1024 bytes are skipped. -/
  maxFileSizeKb : Nat
  /-- The slots of types that count first. -/
  typePriority : List TypeSlot
  /-- The name of the form of output. -/
  defaultFormat : String
  /-- The patterns of files and directories that are left out. -/
  patterns : List String
deriving DecidableEq, Inhabited

/-- The settings that a configuration file names. -/
structure Layer where
  poolSize : Option Nat
  maxFileSizeKb : Option Nat
  typePriority : Option (List TypeSlot)
  defaultFormat : Option String
  patterns : Option (List String)
deriving DecidableEq, Inhabited

/-! ## Reading a layer -/

namespace Toml

/-- The values of the named settings of a section. A section is a table; it may also be an array
    that lists the values in order, and a date stands for a section without settings. -/
def section? (names : List String) : Toml → Option (List (Option Toml))
  | table _ members => some (names.map fun n => members.lookup n)
  | array items => some ((List.range names.length).map fun i => items[i]?)
  | tables items => some ((List.range names.length).map fun i => (items[i]?).map (table .header))
  | datetime => some (names.map fun _ => none)
  | _ => none

/-- A number that is not negative. -/
def natural? : Toml → Option Nat
  | integer n => if 0 ≤ n then some n.toNat else none
  | _ => none

/-- A text. -/
def text? : Toml → Option String
  | string s => some s
  | _ => none

/-- The items of an array. -/
def items? : Toml → Option (List Toml)
  | array items => some items
  | tables items => some (items.map (table .header))
  | _ => none

/-- Whether a value is an array or a table without anything in it. -/
def isVoid : Toml → Bool
  | array items => items.isEmpty
  | tables items => items.isEmpty
  | table _ members => members.isEmpty
  | _ => false

/-- A slot of types: its name, or a table with the name as its only key and nothing in it. -/
def slot? : Toml → Option TypeSlot
  | string s => TypeSlot.ofText? s
  | table _ [(key, v)] => if v.isVoid then TypeSlot.ofText? key else none
  | _ => none

/-- A setting that may be absent. -/
def setting? {α : Type} (read : Toml → Option α) : Option Toml → Option (Option α)
  | none => some none
  | some v => (read v).map some

end Toml

namespace Layer

/-- A layer that names nothing. -/
def empty : Layer :=
  ⟨none, none, none, none, none⟩

/-- The settings of a section, all absent if the section is. -/
def settings? (names : List String) : Option Toml → Option (List (Option Toml))
  | none => some (names.map fun _ => none)
  | some v => v.section? names

/-- The layer that the members of a document make. Unknown keys do not count. -/
def ofMembers? (ms : Toml.Members) : Option Layer := do
  let parser ← settings? ["pool_size"] (ms.lookup "parser")
  let extract ← settings? ["max_file_size_kb", "type_priority"] (ms.lookup "extract")
  let output ← settings? ["default_format"] (ms.lookup "output")
  let ignore ← settings? ["patterns"] (ms.lookup "ignore")
  return {
    poolSize := ← Toml.setting? Toml.natural? (parser[0]?.bind id)
    maxFileSizeKb := ← Toml.setting? Toml.natural? (extract[0]?.bind id)
    typePriority :=
      ← Toml.setting? (fun v => v.items?.bind (·.mapM Toml.slot?)) (extract[1]?.bind id)
    defaultFormat := ← Toml.setting? Toml.text? (output[0]?.bind id)
    patterns := ← Toml.setting? (fun v => v.items?.bind (·.mapM Toml.text?)) (ignore[0]?.bind id) }

/-- Read a layer from the text of a configuration file. -/
def read? (text : String) : Option Layer := do
  ofMembers? (← Toml.read? text)

end Layer

/-! ## Loading -/

/-- Why a configuration cannot be loaded. -/
inductive ConfigError where
  | unreadable (path : String) (cause : FileError)
  | malformed (path : String)
deriving DecidableEq, Inhabited

/-- The wording of the error. -/
def ConfigError.message : ConfigError → String
  | unreadable path cause => "failed to read config file " ++ path ++ ": " ++ cause.message
  | malformed path => "failed to parse config file: " ++ path

/-- Load a layer. A file that does not exist names nothing. -/
def Layer.load (fs : FileSystem) (path : String) : Except ConfigError Layer :=
  match fs.readText path with
  | .error .notFound => .ok .empty
  | .error e => .error (.unreadable path e)
  | .ok text =>
    match Layer.read? text with
    | some layer => .ok layer
    | none => .error (.malformed path)

namespace Config

/-- The usual settings. -/
def usual : Config :=
  ⟨0, 1024, TypeSlot.all, "grep", []⟩

/-- The settings with a layer on top of them. -/
def apply (c : Config) (l : Layer) : Config where
  poolSize := l.poolSize.getD c.poolSize
  maxFileSizeKb := l.maxFileSizeKb.getD c.maxFileSizeKb
  typePriority := l.typePriority.getD c.typePriority
  defaultFormat := l.defaultFormat.getD c.defaultFormat
  patterns := l.patterns.getD c.patterns

/-- The configuration file that belongs to a directory. -/
def pathIn (directory : String) : String :=
  joinPath (joinPath directory ".glean") "config.toml"

/-- Load the settings of the user and of a directory, if these are known. -/
def load (fs : FileSystem) (home root : Option String) : Except ConfigError Config :=
  (home.toList ++ root.toList).foldlM (fun c directory =>
    (Layer.load fs (pathIn directory)).map c.apply) usual

/-- The greatest number of bytes that a file may be said to have. -/
def sizeCeiling : Nat := Nat.pow 2 64 - 1

/-- Files with more bytes than this are skipped. -/
def maxFileSize (c : Config) : Nat :=
  min (c.maxFileSizeKb * 1024) sizeCeiling

/-- The order in which offered types count. -/
def priority (c : Config) : TypePriority :=
  .of c.typePriority

end Config

end Outline
