import Outline.Ignore.Rules
import Outline.Language

/-!
# Walks

A walk finds the source files below a directory. What it leaves out is decided at each entry, and a
directory that is left out is not entered. First come the exclusions, which leave out what they
match. Then the rules of ignore files, where a directory counts before those around it, and the
plain ignore files of all directories before those of repositories. Repository rules only hold
inside a repository, and reach no further out than its top directory. An entry that no rule mentions
is left out if it is hidden. The directory that the walk starts at is never left out. A directory
whose path is too long cannot be entered, so nothing in it is found.

Last come the rules of the user, which hold in all repositories. They are read from
`.config/git/ignore` in the home directory, where they are by default. Another place for them, as
`core.excludesFile` in a `.gitconfig` or the variable `XDG_CONFIG_HOME` may name it, is not looked
at.
-/

namespace Outline

open Outline.Text

namespace Walk

/-! ## The rules of a directory -/

/-- What a directory says about the paths below it. -/
structure DirectoryRules where
  /-- The rules for all tools. -/
  plain : RuleSet
  /-- The rules of the repository that are part of it. -/
  shared : RuleSet
  /-- The rules of the repository for this copy of it. -/
  own : RuleSet
  /-- Whether a repository starts here. -/
  isRepository : Bool
deriving Inhabited

/-- The first line of a file. -/
def firstLine? (fs : FileSystem) (path : String) : Option (List Char) :=
  match fs.read path with
  | .error _ => none
  | .ok [] => none
  | .ok bytes => (RuleSet.lines bytes).head?

/-- The directory that a repository keeps its data in. Where a file stands in for it, the file names
    another directory, which in turn names the one that several copies share. -/
def dataDirectory? (fs : FileSystem) (directory : String) : Option String :=
  let marker := joinPath directory ".git"
  if !fs.isFile marker then some marker
  else do
    let named ← after? "gitdir: ".toList (← firstLine? fs marker)
    let named := String.ofList named
    let common ← firstLine? fs (joinPath named "commondir")
    if common.head? = some '.' then return joinPath named (String.ofList common)
    else return String.ofList common

/-- The rules that the files of a directory give. -/
def rulesOf (fs : FileSystem) (directory : String) : DirectoryRules where
  plain := .load fs directory (joinPath directory ".ignore")
  shared := .load fs directory (joinPath directory ".gitignore")
  own := match dataDirectory? fs directory with
    | some data => .load fs directory (joinPath data "info/exclude")
    | none => ⟨directory, []⟩
  isRepository := (fs.find (joinPath directory ".git")).toBool

/-! ## Around a walk -/

/-- The places of the directories around a place, nearest first. -/
def placesAround (place : Place) : List Place :=
  ((List.range place.length).map place.take).reverse

/-- What a walk knows about its surroundings. -/
structure Surroundings where
  /-- The path that the walk starts at. -/
  root : String
  /-- The path of that place from the root directory. -/
  absoluteRoot : String
  /-- The exclusions. All of them leave out what they match. -/
  exclusions : RuleSet
  /-- The rules of the directories around the start, nearest first. -/
  around : List DirectoryRules
  /-- The rules of the user for all repositories. -/
  user : RuleSet
deriving Inhabited

/-- The path from the root directory for a path of the walk. -/
def absolutePath (s : Surroundings) (path : List Char) : String :=
  let below := if RuleSet.isHere s.root then path
    else
      let root := RuleSet.dropFront "./".toList s.root.toList
      RuleSet.dropFront "/".toList (RuleSet.dropFront root path)
  if below.head? = some '/' then String.ofList below
  else joinPath s.absoluteRoot (String.ofList below)

/-- The rules up to those of the first directory that starts a repository, these included. -/
def inRepository : List (DirectoryRules × String) → List (DirectoryRules × String)
  | [] => []
  | d :: ds => if d.1.isRepository then [d] else d :: inRepository ds

/-- What ignore files say about an entry. `inside` has the rules of the directories from the entry
    up to the start of the walk. -/
def verdict? (s : Surroundings) (inside : List DirectoryRules) (path : List Char)
    (isDirectory : Bool) : Option Verdict :=
  let near := String.ofList path
  let far := absolutePath s path
  let all := inside.map (·, near) ++ s.around.map (·, far)
  let said := fun (part : DirectoryRules → RuleSet) (ds : List (DirectoryRules × String)) =>
    ds.findSome? fun d => (part d.1).verdict? d.2 isDirectory
  let plain := said (·.plain) all
  if all.any (·.1.isRepository) then
    let reach := inRepository all
    plain.or ((said (·.shared) reach).or ((said (·.own) reach).or
      (s.user.verdict? near isDirectory)))
  else plain

/-- Whether a name is hidden: it starts with a dot, and does not end with one. -/
def isHidden (name : String) : Bool :=
  name.toList.head? == some '.' && name.toList.getLast? != some '.'

/-- Whether the walk leaves out an entry. -/
def leavesOut (s : Surroundings) (inside : List DirectoryRules) (path name : String)
    (isDirectory : Bool) : Bool :=
  let path := RuleSet.dropFront "./".toList path.toList
  if (s.exclusions.verdict? (String.ofList path) isDirectory).isSome then true
  else match verdict? s inside path isDirectory with
    | some .ignored => true
    | some .kept => false
    | none => isHidden name

/-! ## Walking -/

mutual

/-- The files at an entry below the start, by their paths. -/
def filesAt (fs : FileSystem) (s : Surroundings) (inside : List DirectoryRules) (around : String) :
    Entry → List String
  | .file name _ =>
    let path := joinPath around name
    if leavesOut s inside path name false then [] else [path]
  | .directory name entries =>
    let path := joinPath around name
    if leavesOut s inside path name true then []
    else if FileSystem.pathLimit < path.utf8ByteSize then []
    else filesIn fs s (rulesOf fs path :: inside) path entries

/-- The files at some entries of a directory. -/
def filesIn (fs : FileSystem) (s : Surroundings) (inside : List DirectoryRules) (around : String) :
    List Entry → List String
  | [] => []
  | e :: es => filesAt fs s inside around e ++ filesIn fs s inside around es

end

/-- The directories that no walk enters. -/
def unwanted : List String :=
  ["node_modules", "vendor", "dist", "build", "coverage", "out"]

/-- The exclusions as lines of an ignore file in which an exclamation mark excludes. -/
def exclusionLines (patterns : List String) : List String :=
  unwanted.map (fun d => "!" ++ d ++ "/") ++ patterns.map ("!" ++ ·)

/-- Read exclusions; none if one is malformed. -/
def exclusions? : List String → Option (List IgnoreRule)
  | [] => some []
  | line :: lines =>
    match IgnoreLine.read false line.toList with
    | .malformed => none
    | .silent => exclusions? lines
    | .rule r => (exclusions? lines).map (r :: ·)

/-- What a walk that starts at a place knows. The rules of the user are where they are by
    default. -/
def surroundings (fs : FileSystem) (home : Option String) (root : String) (place : Place)
    (exclusions : List IgnoreRule) : Surroundings where
  root := root
  absoluteRoot := placePath place
  exclusions := ⟨root, exclusions⟩
  around := (placesAround place).map fun p => rulesOf fs (placePath p)
  user := match home with
    | some directory => .load fs "" (joinPath directory ".config/git/ignore")
    | none => ⟨"", []⟩

/-- All files below a path, or at it. -/
def filesFrom (fs : FileSystem) (home : Option String) (root : String)
    (exclusions : List IgnoreRule) : List String :=
  match fs.find root with
  | .error _ => []
  | .ok (_, .file ..) => [root]
  | .ok (place, .directory _ entries) =>
    filesIn fs (surroundings fs home root place exclusions) [rulesOf fs root] root entries

/-- Whether a path is a single dash, which stands for the standard input. -/
def isDash (path : String) : Bool :=
  Route.ofText path == ⟨false, [.name "-"]⟩

/-- All files of a walk. The standard input is no file. -/
def files (fs : FileSystem) (home : Option String) (root : String)
    (exclusions : List IgnoreRule) : List String :=
  if isDash root then [] else filesFrom fs home root exclusions

/-- Whether a path names a source file. -/
def isSource (path : String) : Bool :=
  Language.ofPath path != .unknown

/-- The source files below a directory, or at a path, in the order of their paths. Some patterns
    exclude more; none is the answer if one of them is malformed. -/
def sources? (fs : FileSystem) (home : Option String) (root : String) (patterns : List String) :
    Option (List String) := do
  let exclusions ← exclusions? (exclusionLines patterns)
  return ((files fs home root exclusions).filter isSource).mergeSort pathLe

end Walk

end Outline
