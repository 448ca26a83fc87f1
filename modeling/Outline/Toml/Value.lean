/-!
# TOML values

The values of a TOML document, and the rules by which its lines build up tables. A table may be
opened by a header, implied by a longer header, made by a dotted key, or written in braces; what may
be added to it later depends on that.
-/

namespace Outline

/-- How a table came to be. -/
inductive TableOrigin where
  /-- It has a header of its own. -/
  | header
  /-- A header names a table inside it. -/
  | implied
  /-- A dotted key leads into it. -/
  | dotted
  /-- It is written in braces. -/
  | inline
deriving DecidableEq, Inhabited

/-- A TOML value. Of floats and dates only the kind is kept. -/
inductive Toml where
  | string (value : String)
  | integer (value : Int)
  | float
  | boolean (value : Bool)
  | datetime
  | array (items : List Toml)
  | table (origin : TableOrigin) (members : List (String × Toml))
  /-- An array of tables that headers add to. -/
  | tables (items : List (List (String × Toml)))
deriving Inhabited

namespace Toml

/-- The members of a table; no two have the same key. -/
abbrev Members := List (String × Toml)

/-- The members with one of them replaced, or added at the end. -/
def put (key : String) (value : Toml) : Members → Members
  | [] => [(key, value)]
  | m :: ms => if m.1 = key then (key, value) :: ms else m :: put key value ms

/-- Whether a dotted key may lead into a table, and whether a header may. Nothing is added to a
    table in braces, and dotted keys add nothing to a table that has a header. -/
def mayEnter (byDots : Bool) : TableOrigin → Bool
  | .inline => false
  | .header => !byDots
  | .implied | .dotted => true

/-- Change the table that a path leads to. Tables that are missing on the way are made, and an array
    of tables stands for its last one. The change is told how the table came to be. -/
def alter (byDots : Bool) (change : TableOrigin → Members → Option Members) (here : TableOrigin) :
    List String → Members → Option Members
  | [], ms => change here ms
  | key :: path, ms =>
    match ms.lookup key with
    | none =>
      let origin : TableOrigin := if byDots then .dotted else .implied
      (alter byDots change origin path []).map fun inner => put key (.table origin inner) ms
    | some (.table origin inner) =>
      if mayEnter byDots origin then
        (alter byDots change origin path inner).map fun inner => put key (.table origin inner) ms
      else none
    | some (.tables items) =>
      match items.getLast? with
      | none => none
      | some inner =>
        (alter byDots change .header path inner).map fun inner =>
          put key (.tables (items.dropLast ++ [inner])) ms
    | some _ => none

/-- A key with its value. -/
structure Pair where
  /-- The parts of the key before its last dot. -/
  path : List String
  /-- The last part of the key. -/
  key : String
  value : Toml

/-- Add a pair to a table. The key must be new, and a dotted key must end in a table that dotted
    keys have made. -/
def addPair (here : TableOrigin) (ms : Members) (p : Pair) : Option Members :=
  alter true (fun origin ms =>
    if (origin == .dotted) == p.path.isEmpty then none
    else if (ms.lookup p.key).isSome then none
    else some (put p.key p.value ms)) here p.path ms

/-- Add pairs to a table, one after the other. -/
def addPairs (here : TableOrigin) (ms : Members) (ps : List Pair) : Option Members :=
  ps.foldlM (addPair here) ms

/-- The table that some pairs in braces make. -/
def ofPairs? (ps : List Pair) : Option Toml :=
  (addPairs .inline [] ps).map (.table .inline)

/-- Where the pairs of a part of a document go. -/
inductive Heading where
  /-- The start of the document. -/
  | start
  /-- A header for a table: the path to the table around it, and its key. -/
  | table (path : List String) (key : String)
  /-- A header for a new table of an array. -/
  | element (path : List String) (key : String)

/-- A part of a document: a heading and the pairs below it. -/
structure Part where
  heading : Heading
  pairs : List Pair

/-- Add a table with a header. It must be new, or only implied so far. -/
def addTable (key : String) (ps : List Pair) (ms : Members) : Option Members :=
  match ms.lookup key with
  | none => (addPairs .header [] ps).map fun inner => put key (.table .header inner) ms
  | some (.table .implied inner) =>
    (addPairs .header inner ps).map fun inner => put key (.table .header inner) ms
  | some _ => none

/-- Add a table to an array of tables. -/
def addElement (key : String) (ps : List Pair) (ms : Members) : Option Members :=
  match ms.lookup key with
  | none => (addPairs .header [] ps).map fun inner => put key (.tables [inner]) ms
  | some (.tables items) =>
    (addPairs .header [] ps).map fun inner => put key (.tables (items ++ [inner])) ms
  | some _ => none

/-- Add a part of a document. -/
def addPart (ms : Members) (p : Part) : Option Members :=
  match p.heading with
  | .start => addPairs .header ms p.pairs
  | .table path key => alter false (fun _ => addTable key p.pairs) .header path ms
  | .element path key => alter false (fun _ => addElement key p.pairs) .header path ms

/-- The members of a document that has the given parts. -/
def ofParts? (parts : List Part) : Option Members :=
  parts.foldlM addPart []

end Toml

end Outline
