import Outline.Path
import Outline.Text.Utf8

/-!
# File systems

A file system as a value: a tree of directories and regular files, and the working directory.
A path is followed piece by piece. Every piece but the first needs a directory to be looked up in,
an empty piece or a `.` stays there, and `..` goes to the directory around it; so `a.ts/` leads
nowhere if `a.ts` is a file.

The names in the tree are such as a file system allows, and no two entries of a directory have the
same one. Links, special files, and entries that may not be read or entered are left out: whatever
is in the tree can be read. All directories have the same size, that of an ordinary directory with
few entries.
-/

namespace Outline

/-- Whether a piece of a path is a name, and not a way to stay or to go up. -/
def isName (name : String) : Bool :=
  !(["", ".", ".."].contains name) && !(name.toList.contains '/')

/-- Whether the file system allows an entry of this name. -/
def isEntryName (name : String) : Bool :=
  isName name && !(name.toList.contains (Char.ofNat 0))

/-- A file or a directory, with its name. -/
inductive Entry where
  | file (name : String) (bytes : List UInt8)
  | directory (name : String) (entries : List Entry)
deriving Inhabited

namespace Entry

/-- The name of the entry in the directory around it. -/
def name : Entry → String
  | file n _ => n
  | directory n _ => n

/-- Whether the entry is a directory. -/
def isDirectory : Entry → Bool
  | directory .. => true
  | file .. => false

/-- The entry with a name in a directory. -/
def child? : Entry → String → Option Entry
  | file .., _ => none
  | directory _ es, n => es.find? (·.name == n)

/-- The entry at a place below a directory. -/
def descend? (e : Entry) : Place → Option Entry
  | [] => some e
  | n :: ns => (e.child? n).bind (·.descend? ns)

/-- Put an entry at a place below some entries, in directories that are made on the way. What is
    there already under its name stays. -/
def graft (e : Entry) : Place → List Entry → List Entry
  | [], es => if es.any (·.name == e.name) then es else es ++ [e]
  | d :: ds, es =>
    let inner := match es.find? (·.name == d) with
      | some (.directory _ inner) => inner
      | _ => []
    es.filter (·.name != d) ++ [.directory d (graft e ds inner)]

/-! ### Proper entries -/

mutual

/-- Whether in each directory the entries have names of their own, which are allowed. -/
def isProper : Entry → Bool
  | file .. => true
  | directory _ es => decide ((es.map name).Nodup) && areProper es

/-- Whether entries have names that are allowed, and are proper themselves. -/
def areProper : List Entry → Bool
  | [] => true
  | e :: es => isEntryName e.name && e.isProper && areProper es

end

mutual

/-- The proper entry in place of an entry. -/
def tidy : Entry → Entry
  | file n bytes => file n bytes
  | directory n es => directory n (tidyAll es)

/-- The proper entries in place of some entries: the first of each name that is allowed. -/
def tidyAll : List Entry → List Entry
  | [] => []
  | e :: es =>
    if isEntryName e.name then e.tidy :: (tidyAll es).filter (·.name != e.name) else tidyAll es

end

@[simp]
theorem name_tidy (e : Entry) : e.tidy.name = e.name := by
  cases e with
  | file => rfl
  | directory => rfl

theorem areProper_cons_iff {e : Entry} {es : List Entry} :
    areProper (e :: es) = true ↔
      (isEntryName e.name = true ∧ e.isProper = true) ∧ areProper es = true := by
  rw [areProper, Bool.and_eq_true, Bool.and_eq_true]

theorem areProper_filter {es : List Entry} (h : areProper es = true) (p : Entry → Bool) :
    areProper (es.filter p) = true := by
  induction es with
  | nil => rfl
  | cons e es ih =>
    obtain ⟨he, hes⟩ := areProper_cons_iff.1 h
    rw [List.filter_cons]
    split
    · exact areProper_cons_iff.2 ⟨he, ih hes⟩
    · exact ih hes

theorem nodup_tidyAll : ∀ es : List Entry, ((tidyAll es).map name).Nodup
  | [] => List.nodup_nil
  | e :: es => by
    rw [tidyAll]
    split
    · rw [List.map_cons, List.nodup_cons, name_tidy]
      refine ⟨fun hmem => ?_, ?_⟩
      · obtain ⟨e', he', hname⟩ := List.mem_map.1 hmem
        simp [hname] at he'
      · exact (nodup_tidyAll es).sublist (List.filter_sublist.map name)
    · exact nodup_tidyAll es

mutual

theorem isProper_tidy : ∀ e : Entry, e.tidy.isProper = true
  | file .. => by rw [tidy, isProper]
  | directory _ es => by
    rw [tidy, isProper, Bool.and_eq_true, decide_eq_true_iff]
    exact ⟨nodup_tidyAll es, areProper_tidyAll es⟩

theorem areProper_tidyAll : ∀ es : List Entry, areProper (tidyAll es) = true
  | [] => rfl
  | e :: es => by
    rw [tidyAll]
    split
    · rename_i hname
      refine areProper_cons_iff.2 ⟨⟨?_, isProper_tidy e⟩, areProper_filter (areProper_tidyAll es) _⟩
      rwa [name_tidy]
    · exact areProper_tidyAll es

end

/-- What is found under an allowed name is still found. -/
theorem child?_tidy {n : String} (hn : isEntryName n = true) (e : Entry) :
    e.tidy.child? n = (e.child? n).map tidy := by
  have hfind : ∀ es : List Entry,
      (tidyAll es).find? (·.name == n) = (es.find? (·.name == n)).map tidy := by
    intro es
    induction es with
    | nil => rfl
    | cons e es ih =>
      rw [tidyAll]
      by_cases hname : e.name = n
      · simp [hname, hn]
      · have hne : (e.name == n) = false := by simpa using hname
        split
        · rw [List.find?_cons, List.find?_cons, name_tidy, hne, ← ih, List.find?_filter]
          refine congrArg (fun p => List.find? p _) (funext fun x => ?_)
          by_cases hx : x.name = n
          · simp [hx, Ne.symm hname]
          · simp [hx]
        · rw [List.find?_cons, hne, ih]
  cases e with
  | file => rfl
  | directory m es =>
    rw [tidy]
    exact hfind es

end Entry

/-- A root directory. Everything in it is proper. -/
structure Root where
  entry : Entry
  isDirectory : entry.isDirectory = true
  isProper : entry.isProper = true

/-- The root directory with some entries, as far as they are proper. -/
def Root.directory (name : String) (entries : List Entry) : Root where
  entry := Entry.tidy (.directory name entries)
  isDirectory := rfl
  isProper := Entry.isProper_tidy _

instance : Inhabited Root :=
  ⟨.directory "" []⟩

/-- Why a file cannot be read. -/
inductive FileError where
  | notFound
  | notADirectory
  | isADirectory
  | nameTooLong
  /-- The path holds the character with code zero. -/
  | zeroInPath
  /-- The bytes of the file are no text. -/
  | notText
deriving DecidableEq, Inhabited

/-- The description of the error, as the operating system words it. -/
def FileError.message : FileError → String
  | notFound => "No such file or directory (os error 2)"
  | notADirectory => "Not a directory (os error 20)"
  | isADirectory => "Is a directory (os error 21)"
  | nameTooLong => "File name too long (os error 36)"
  | zeroInPath => "file name contained an unexpected NUL byte"
  | notText => "stream did not contain valid UTF-8"

/-- A file system. -/
structure FileSystem where
  root : Root
  /-- The place of the working directory. -/
  workingDirectory : Place
deriving Inhabited

namespace FileSystem

/-- The entry of the root directory. -/
def top (fs : FileSystem) : Entry :=
  fs.root.entry

/-- The file system in which nothing exists. -/
def empty : FileSystem :=
  ⟨.directory "" [], []⟩

/-- The most bytes that a name in a directory may have. -/
def nameLimit : Nat := 255

/-- The most bytes that a path may have. -/
def pathLimit : Nat := 4095

/-- The number of bytes that a directory takes up. -/
def directorySize : Nat := 4096

/-- Follow the pieces of a path from an entry at a place. -/
def follow (fs : FileSystem) (place : Place) (e : Entry) :
    List (List Char) → Except FileError (Place × Entry)
  | [] => .ok (place, e)
  | piece :: rest =>
    if !e.isDirectory then .error .notADirectory
    else if piece = [] ∨ piece = ['.'] then fs.follow place e rest
    else if piece = ['.', '.'] then
      match fs.top.descend? place.dropLast with
      | some up => fs.follow place.dropLast up rest
      | none => .error .notFound
    else
      let name := String.ofList piece
      if nameLimit < name.utf8ByteSize then .error .nameTooLong
      else match e.child? name with
        | some inner => fs.follow (place ++ [name]) inner rest
        | none => .error .notFound

/-- The place and the entry that a path leads to. -/
def find (fs : FileSystem) (path : String) : Except FileError (Place × Entry) :=
  if path.toList.contains (Char.ofNat 0) then .error .zeroInPath
  else if path = "" then .error .notFound
  else if pathLimit < path.utf8ByteSize then .error .nameTooLong
  else
    let start := if path.toList.head? = some '/' then [] else fs.workingDirectory
    match fs.top.descend? start with
    | some e => fs.follow start e (Text.splitAt '/' path.toList)
    | none => .error .notFound

/-- Whether a path leads to a regular file. -/
def isFile (fs : FileSystem) (path : String) : Bool :=
  match fs.find path with
  | .ok (_, .file ..) => true
  | _ => false

/-- Whether a path leads to a directory. -/
def isDirectory (fs : FileSystem) (path : String) : Bool :=
  match fs.find path with
  | .ok (_, .directory ..) => true
  | _ => false

/-- The number of bytes at a path. -/
def size (fs : FileSystem) (path : String) : Except FileError Nat :=
  (fs.find path).map fun
    | (_, .file _ bytes) => bytes.length
    | (_, .directory ..) => directorySize

/-- The bytes of the file at a path. -/
def read (fs : FileSystem) (path : String) : Except FileError (List UInt8) := do
  match ← fs.find path with
  | (_, .file _ bytes) => .ok bytes
  | (_, .directory ..) => .error .isADirectory

/-- The text of the file at a path. -/
def readText (fs : FileSystem) (path : String) : Except FileError String := do
  match Text.decode? (← fs.read path) with
  | some cs => .ok (String.ofList cs)
  | none => .error .notText

/-- The path of the working directory from the root directory, if it is still there. -/
def currentDirectory (fs : FileSystem) : Except FileError String :=
  match fs.top.descend? fs.workingDirectory with
  | some (.directory ..) => .ok (placePath fs.workingDirectory)
  | _ => .error .notFound

end FileSystem

/-- The path of an entry in the directory at a path. -/
def joinPath (base name : String) : String :=
  match base.toList.getLast? with
  | none => name
  | some '/' => base ++ name
  | some _ => base ++ "/" ++ name

end Outline
