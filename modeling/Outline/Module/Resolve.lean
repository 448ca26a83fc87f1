import Outline.FileSystem
import Outline.Language

/-!
# Module resolution

The file that the source of an import or export statement means. A source that starts with a dot or
a slash is a path from the directory of the importing file; any other source names a package, which
is no file here. The path may leave out an extension or the name of an index file, so the candidates
are tried in a fixed order; if none exists, the answer is a guess.
-/

namespace Outline.Module

/-- The extensions to try, in order. -/
def extensions : List String :=
  [".ts", ".tsx", ".js", ".jsx", ".mjs", ".cjs", ".mts", ".cts"]

/-- Whether a source names a package and not a file. -/
def isExternal (source : String) : Bool :=
  match source.toList with
  | '.' :: _ | '/' :: _ => false
  | _ => true

/-- The folded route from the directory of the importing file. -/
def base (importer source : String) : Route :=
  let directory := ((Route.ofText importer).parent?).getD ⟨false, []⟩
  (directory.join (Route.ofText source)).normalize

/-- The paths to try for a route: as it is, with each extension, and each index file inside it. -/
def candidates (base : Route) : List String :=
  base.text :: extensions.map (base.text ++ ·) ++
    extensions.map fun e => joinPath base.text ("index" ++ e)

/-- The path to assume if no candidate exists: the route itself if it has one of the extensions, and
    otherwise with the extension of the importing file. -/
def guess (importer : String) (base : Route) : String :=
  if base.extension?.any (fun e => extensions.contains ("." ++ e)) then base.text
  else base.text ++ ((Route.ofText importer).extension?.map ("." ++ ·)).getD ".js"

/-- The file that a source means to the importing file; none for a package. -/
def resolve? (fs : FileSystem) (importer source : String) : Option String :=
  if isExternal source then none
  else
    let base := base importer source
    some (((candidates base).find? fs.isFile).getD (guess importer base))

end Outline.Module
