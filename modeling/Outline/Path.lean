import Outline.Text.Blank

/-!
# Paths

A path is text; what it says is a `Route`: from the root directory or from the working directory,
a list of steps to take. Several texts give the same route (`a//b`, `a/./b` and `a/b/` do), because
empty pieces and inner `.` pieces say nothing. A leading `.` is kept as a step of its own, so that
`./a` and `a` stay apart when they are printed or sorted.

`Route.normalize` folds a route to its shortest form; `Route.walk` gives the place a route leads to.
-/

namespace Outline

/-- One step of a route. -/
inductive Step where
  /-- Stay: a leading `.`. -/
  | here
  /-- Go to the parent directory: `..`. -/
  | up
  /-- Go to the entry with this name. -/
  | name (text : String)
deriving DecidableEq, Inhabited

/-- Where a path leads: the start and the steps. -/
structure Route where
  /-- Whether the route starts at the root directory. -/
  absolute : Bool
  /-- The steps, first one first. -/
  steps : List Step
deriving DecidableEq, Inhabited

/-- The place of a directory: the names on the way down to it from the root directory. -/
abbrev Place := List String

namespace Step

/-- The text of a step. -/
def text : Step → String
  | here => "."
  | up => ".."
  | name s => s

/-- The step that a piece of a path says, if it says one. -/
def ofPiece? (piece : List Char) : Option Step :=
  if piece = [] ∨ piece = ['.'] then none
  else if piece = ['.', '.'] then some up
  else some (name (String.ofList piece))

/-- The order of steps: staying, going up, then names by their characters. -/
def compare : Step → Step → Ordering
  | here, here => .eq
  | here, _ => .lt
  | _, here => .gt
  | up, up => .eq
  | up, name _ => .lt
  | name _, up => .gt
  | name s, name t => Ord.compare s t

end Step

namespace Route

/-- The route that a path says. -/
def ofText (path : String) : Route :=
  match Text.splitAt '/' path.toList with
  | [] => ⟨false, []⟩
  | first :: rest =>
    let later := rest.filterMap Step.ofPiece?
    if first = [] ∧ rest ≠ [] then ⟨true, later⟩
    else if first = ['.'] then ⟨false, .here :: later⟩
    else ⟨false, (Step.ofPiece? first).toList ++ later⟩

/-- The shortest path that says the route. -/
def text (r : Route) : String :=
  (if r.absolute then "/" else "") ++ "/".intercalate (r.steps.map Step.text)

/-- The name of the entry that the route ends at; none if the last step is no name. -/
def fileName? (r : Route) : Option String :=
  match r.steps.getLast? with
  | some (.name s) => some s
  | _ => none

/-- The route to the directory around the last step; none if there is no last step. -/
def parent? (r : Route) : Option Route :=
  if r.steps = [] then none else some ⟨r.absolute, r.steps.dropLast⟩

/-- Continue a route by another one, which starts anew if it is absolute. -/
def join (r s : Route) : Route :=
  if s.absolute then s else ⟨r.absolute, r.steps ++ s.steps⟩

/-- One step of folding. `done` holds the folded steps, last one first. A step up cancels the name
    before it and vanishes at the root directory; staying says nothing. -/
def settle (absolute : Bool) (done : List Step) (s : Step) : List Step :=
  match s, done with
  | .here, done => done
  | .up, .name _ :: done => done
  | .up, [] => if absolute then [] else [.up]
  | .up, done => .up :: done
  | .name n, done => .name n :: done

/-- The folded route: no staying, and steps up only at the front of a relative route. -/
def normalize (r : Route) : Route :=
  ⟨r.absolute, (r.steps.foldl (settle r.absolute) []).reverse⟩

/-- The place that one step leads to. The root directory is its own parent. -/
def walkStep (place : Place) : Step → Place
  | .here => place
  | .up => place.dropLast
  | .name n => place ++ [n]

/-- The place that a route leads to from a starting directory. -/
def walk (start : Place) (r : Route) : Place :=
  r.steps.foldl walkStep (if r.absolute then [] else start)

/-- The order of lists of steps: the first difference decides, and a shorter list comes first. -/
def compareSteps : List Step → List Step → Ordering
  | [], [] => .eq
  | [], _ :: _ => .lt
  | _ :: _, [] => .gt
  | a :: as, b :: bs => (a.compare b).then (compareSteps as bs)

/-- The order of routes: step by step, where starting at the root directory comes before every
    step and the empty route before everything. -/
def compare (r s : Route) : Ordering :=
  match r.absolute, s.absolute with
  | true, true | false, false => compareSteps r.steps s.steps
  | true, false => if s.steps = [] then .gt else .lt
  | false, true => if r.steps = [] then .lt else .gt

end Route

/-- The part of a file name after its last dot. A name without a dot has none, nor has a name whose
    only dot is its first character. -/
def extensionOfName? (name : List Char) : Option (List Char) :=
  let reversed := name.reverse
  match reversed.dropWhile (· != '.') with
  | [] => none
  | [_] => none
  | _ :: _ :: _ => some (reversed.takeWhile (· != '.')).reverse

/-- The extension of the file that a route leads to. -/
def Route.extension? (r : Route) : Option String :=
  (r.fileName?.bind fun n => extensionOfName? n.toList).map String.ofList

/-- The path from the root directory to a place. -/
def placePath (place : Place) : String :=
  "/" ++ "/".intercalate place

/-- Whether one path comes before or is level with another in the order of their routes. -/
def pathLe (p q : String) : Bool :=
  (Route.ofText p).compare (Route.ofText q) != .gt

end Outline
