import Outline.Query.Pattern
import Outline.Text.Dict

/-!
# Types of bindings

The map from bound names to the types that their annotations name. An annotation may offer several
types: a plain name, or the base and the arguments of a generic type. A priority among these slots
picks one. All matches with the same bound identifier are pooled before that; of several identifiers
with one name the first in the source counts.
-/

namespace Outline

/-- The part that a type plays in an annotation. -/
inductive TypeSlot where
  /-- An argument of a generic type: `User` in `Promise<User>`. -/
  | arg
  /-- A plain type. -/
  | name
  /-- The base of a generic type: `Promise` in `Promise<User>`. -/
  | base
deriving DecidableEq, Inhabited

namespace TypeSlot

/-- The name in tags and configuration files. -/
def text : TypeSlot → String
  | arg => "arg"
  | name => "name"
  | base => "base"

/-- All slots, in the order in which they count if nothing else is said. -/
def all : List TypeSlot :=
  [arg, name, base]

/-- The slot with a name. -/
def ofText? (s : String) : Option TypeSlot :=
  all.find? (·.text == s)

end TypeSlot

/-- The order in which slots count. -/
structure TypePriority where
  slots : List TypeSlot
deriving DecidableEq, Inhabited

namespace TypePriority

/-- Add a slot that is not there yet. -/
def add (slots : List TypeSlot) (s : TypeSlot) : List TypeSlot :=
  if s ∈ slots then slots else slots ++ [s]

/-- The priority that lists some slots first; the others follow in their usual order. -/
def of (listed : List TypeSlot) : TypePriority :=
  ⟨(listed ++ TypeSlot.all).foldl add []⟩

/-- The usual priority. -/
def usual : TypePriority :=
  ⟨TypeSlot.all⟩

/-- The written form. -/
def text (p : TypePriority) : String :=
  " > ".intercalate (p.slots.map TypeSlot.text)

end TypePriority

namespace Typing

/-- A bound identifier with the types that are offered for it. -/
structure Binding where
  name : String
  start : Nat
  stop : Nat
  /-- The offered types, in the order of their discovery. -/
  offers : List (TypeSlot × String)

/-- The fields under which a match reports the bound identifier, in order. -/
def binderFields : List String :=
  ["variable", "parameter", "property"]

/-- The types that a match offers. -/
def offersOf (m : Match) : List (TypeSlot × String) :=
  m.captures.filterMap fun c => (TypeSlot.ofText? c.tag.field).map (·, c.text)

/-- Add the offers for an identifier to the bindings found before. -/
def pool (binder : Capture) (offers : List (TypeSlot × String)) : List Binding → List Binding
  | [] => [⟨binder.text, binder.site.label.start, binder.site.label.stop, offers⟩]
  | b :: bs =>
    if b.start = binder.site.label.start ∧ b.stop = binder.site.label.stop then
      { b with offers := b.offers ++ offers } :: bs
    else b :: pool binder offers bs

/-- The bindings of some matches. -/
def bindings (ms : List Match) : List Binding :=
  ms.foldl (fun bs m =>
    match m.firstOf? binderFields with
    | some binder => pool binder (offersOf m) bs
    | none => bs) []

/-- The type that counts for a binding: the first offer of the first slot that has one. -/
def pick? (priority : TypePriority) (b : Binding) : Option String :=
  priority.slots.findSome? fun s => b.offers.lookup s

/-- Note the type of a binding, unless its name is empty or has a type already. -/
def note (priority : TypePriority) (types : Dict) (b : Binding) : Dict :=
  if b.name = "" ∨ types.contains b.name then types
  else match pick? priority b with
    | some type => types.insert b.name type
    | none => types

/-- The types of the names that some matches bind. -/
def ofMatches (priority : TypePriority) (ms : List Match) : Dict :=
  ((bindings ms).mergeSort fun a b => a.start ≤ b.start).foldl (note priority) .empty

end Typing

end Outline
