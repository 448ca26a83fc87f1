import Outline.Text.Regex
import Outline.Text.Utf8

/-!
# Globs

A glob describes paths with wildcards: `?` for one byte and `*` for any number of them, neither of
which is a slash; `**` between slashes for any directories; `[a-z]` for a byte of a class; `{a,b}`
for alternatives; and a backslash before a character that stands for itself. What a glob means is a
regular expression over the bytes of a path.
-/

namespace Outline

open Outline.Text

/-- A part of a glob. -/
inductive GlobPart where
  /-- A character that stands for itself. -/
  | literal (c : Char)
  /-- `?`: one byte that is no slash. -/
  | one
  /-- `*`: bytes that are no slashes. -/
  | some
  /-- `**` with a slash, at the front: any directories, or none. -/
  | anyParents
  /-- `**` after a slash, at the end: anything below. -/
  | anyBelow
  /-- `**` between slashes: any directories in between, or none. -/
  | anyBetween
  /-- A byte that is in one of the ranges, or in none of them. -/
  | range (negated : Bool) (ranges : List (Char × Char))
  /-- One of several globs. -/
  | alternatives (branches : List (List GlobPart))
deriving Inhabited

/-- A glob. -/
structure Glob where
  parts : List GlobPart
deriving Inhabited

namespace Glob

/-! ## Reading -/

/-- The state of reading a glob. -/
structure Reading where
  /-- The parts of the branch that is being read, last one first. -/
  parts : List GlobPart
  /-- The groups of alternatives around it, innermost first: the branches of the group that are
      complete, and the parts before the group, last one first. -/
  groups : List (List (List GlobPart) × List GlobPart)
  /-- The last character that was read. -/
  last : Option Char
  /-- Whether brackets stand for themselves, because one was never closed. -/
  plainBrackets : Bool

namespace Reading

/-- Add a part. -/
def add (r : Reading) (p : GlobPart) : Reading :=
  { r with parts := p :: r.parts }

/-- Open a group of alternatives. -/
def openGroup (r : Reading) : Reading :=
  { r with parts := [], groups := ([], r.parts) :: r.groups }

/-- Start the next branch of a group. Outside of groups a comma stands for itself. -/
def nextBranch (r : Reading) : Reading :=
  match r.groups with
  | [] => r.add (.literal ',')
  | (branches, before) :: groups =>
    { r with parts := [], groups := (branches ++ [r.parts.reverse], before) :: groups }

/-- Close a group. -/
def closeGroup? (r : Reading) : Option Reading :=
  match r.groups with
  | [] => none
  | (branches, before) :: groups =>
    some { r with
      parts := .alternatives (branches ++ [r.parts.reverse]) :: before
      groups := groups }

/-- Whether `**` may stand for directories after the last character: after a slash, and in a group
    also where a branch starts. -/
def atBoundary (r : Reading) : Bool :=
  r.last == some '/' || (!r.groups.isEmpty && (r.last == some ',' || r.last == some '\x7b'))

/-- Put a part for directories in the place of the slash before it. One that stands for any parents
    or anything below already is kept. -/
def addDirectories (r : Reading) (p : GlobPart) : Reading :=
  match r.parts with
  | .anyParents :: _ | .anyBelow :: _ => r
  | _ :: before => { r with parts := p :: before }
  | [] => r

/-- Read `**`, with what follows it. The answer has the characters that are left. -/
def doubleStar (r : Reading) (rest : List Char) : Reading × List Char :=
  let plain := ({ r with last := some '*' }.add .some).add .some
  if r.parts.isEmpty then
    match rest with
    | [] => ({ r with last := some '*' }.add .anyParents, [])
    | '/' :: rest => ({ r with last := some '/' }.add .anyParents, rest)
    | _ => (plain, rest)
  else if !r.atBoundary then (plain, rest)
  else match rest with
    | [] => ({ r with last := some '*' }.addDirectories .anyBelow, [])
    | '/' :: rest => ({ r with last := some '/' }.addDirectories .anyBetween, rest)
    | c :: _ =>
      if !r.groups.isEmpty && (c == ',' || c == '\x7d') then
        ({ r with last := some '*' }.addDirectories .anyBelow, rest)
      else (plain, rest)

end Reading

/-- What comes of reading the inside of brackets. -/
inductive Brackets where
  /-- The ranges, and what follows the brackets. -/
  | closed (ranges : List (Char × Char)) (rest : List Char)
  /-- The brackets are never closed. -/
  | unclosed
  /-- A range ends before it starts. -/
  | reversed

/-- Read the inside of brackets. A bracket or a dash that comes first stands for itself, and so does
    a dash that comes last. The ranges so far are kept last one first. -/
def readBrackets (first inRange : Bool) (ranges : List (Char × Char)) : List Char → Brackets
  | [] => .unclosed
  | c :: rest =>
    if c == ']' && !first then
      .closed (ranges.reverse ++ if inRange then [('-', '-')] else []) rest
    else if c == '-' && !first && !inRange then readBrackets false true ranges rest
    else match inRange, ranges with
      | true, (low, _) :: before =>
        if c < low then .reversed else readBrackets false false ((low, c) :: before) rest
      | _, _ => readBrackets false false ((c, c) :: ranges) rest

/-- Whether brackets are negated, and their inside. -/
def negation : List Char → Bool × List Char
  | '!' :: rest => (true, rest)
  | '^' :: rest => (true, rest)
  | rest => (false, rest)

/-- Read the characters of a glob. Brackets that are never closed are an error, unless `lenient`
    lets them stand for themselves. The fuel bounds the number of characters. -/
def readParts (lenient : Bool) : Nat → Reading → List Char → Option Reading
  | 0, r, _ => some r
  | _ + 1, r, [] => some r
  | fuel + 1, r, c :: rest =>
    let here := { r with last := some c }
    match c, rest with
    | '?', _ => readParts lenient fuel (here.add .one) rest
    | '*', '*' :: rest =>
      let (r, rest) := r.doubleStar rest
      readParts lenient fuel r rest
    | '*', _ => readParts lenient fuel (here.add .some) rest
    | '\x7b', _ => readParts lenient fuel here.openGroup rest
    | '\x7d', _ => here.closeGroup?.bind fun r => readParts lenient fuel r rest
    | ',', _ => readParts lenient fuel here.nextBranch rest
    | '\\', [] => none
    | '\\', e :: rest =>
      readParts lenient fuel ({ r with last := some e }.add (.literal e)) rest
    | '[', _ =>
      if r.plainBrackets then readParts lenient fuel (here.add (.literal '[')) rest
      else
        let (negated, inside) := negation rest
        match readBrackets true false [] inside with
        | .closed ranges rest =>
          readParts lenient fuel ({ r with last := some ']' }.add (.range negated ranges)) rest
        | .unclosed =>
          if lenient then
            readParts lenient fuel ({ here with plainBrackets := true }.add (.literal '[')) rest
          else none
        | .reversed => none
    | _, _ => readParts lenient fuel (here.add (.literal c)) rest

/-- Read a glob; none if it is malformed. -/
def read? (lenient : Bool) (text : List Char) : Option Glob := do
  let r ← readParts lenient text.length ⟨[], [], none, false⟩ text
  if r.groups.isEmpty then return ⟨r.parts.reverse⟩ else none

/-! ## Meaning -/

/-- The byte of a slash. -/
def slash : UInt8 := 47

/-- The byte of a dot. -/
def dot : UInt8 := 46

/-- The bytes of a character. -/
def bytesOf (c : Char) : List UInt8 :=
  encode (String.singleton c)

/-- A byte that is no slash. -/
def noSlash : Regex UInt8 :=
  .symbol (· != slash)

/-- Whether a byte is in the range of two characters. Of characters of several bytes the range
    goes from the last byte of the one to the first byte of the other; the bytes before and after
    count on their own. -/
def inRange (b : UInt8) (range : Char × Char) : Bool :=
  if range.1 = range.2 then (bytesOf range.1).contains b
  else
    let low := bytesOf range.1
    let high := bytesOf range.2
    low.dropLast.contains b || high.tail.contains b ||
      (low.getLast?.any (· ≤ b) && high.head?.any (b ≤ ·))

mutual

/-- The regular expression of a part. -/
def partRegex : GlobPart → Regex UInt8
  | .literal c => .word (bytesOf c)
  | .one => noSlash
  | .some => .star noSlash
  | .anyParents =>
    .alt (.optional (.exactly slash)) (.seq .anything (.exactly slash))
  | .anyBelow => .seq (.exactly slash) .anything
  | .anyBetween =>
    .alt (.exactly slash) (.seq (.exactly slash) (.seq .anything (.exactly slash)))
  | .range negated ranges => .symbol fun b => ranges.any (inRange b) != negated
  | .alternatives branches =>
    match branchRegexes branches with
    | [] => .empty
    | rs => .oneOf rs

/-- The regular expression of parts that follow one another. -/
def partsRegex : List GlobPart → Regex UInt8
  | [] => .empty
  | p :: ps => .seq (partRegex p) (partsRegex ps)

/-- The regular expressions of alternatives. Those that say nothing are left out. -/
def branchRegexes : List (List GlobPart) → List (Regex UInt8)
  | [] => []
  | b :: bs => if isSilent b then branchRegexes bs else partsRegex b :: branchRegexes bs

/-- Whether parts say nothing at all: there are none, or only groups that say nothing. -/
def isSilent : List GlobPart → Bool
  | [] => true
  | p :: ps => partIsSilent p && isSilent ps

/-- Whether a part is a group that says nothing. -/
def partIsSilent : GlobPart → Bool
  | .alternatives branches => allSilent branches
  | _ => false

/-- Whether all branches of a group say nothing. -/
def allSilent : List (List GlobPart) → Bool
  | [] => true
  | b :: bs => isSilent b && allSilent bs

end

/-- The regular expression of a glob. Any parents and nothing else are any path at all. -/
def regex (g : Glob) : Regex UInt8 :=
  match g.parts with
  | [.anyParents] => .anything
  | parts => partsRegex parts

/-- Whether a part is a literal. -/
def isLiteral : GlobPart → Bool
  | .literal _ => true
  | _ => false

/-- Whether a part is the given literal. -/
def isChar (c : Char) : GlobPart → Bool
  | .literal d => c == d
  | _ => false

/-- Whether a glob that ends in a dot can meet a path that ends in one. Such a path has no name of
    its own to compare, so the glob has to spell out all of the path, or a slash and what follows
    it. -/
def spellsOut (g : Glob) : Bool :=
  match g.parts with
  | .anyParents :: parts => parts.all isLiteral && parts.any (isChar '/')
  | parts => parts.all isLiteral

/-- Whether a glob describes a path. -/
def accepts (g : Glob) (path : List UInt8) : Bool :=
  if path.getLast? == some dot && g.parts.getLast?.any (isChar '.') && !g.spellsOut then false
  else g.regex.accepts path

end Glob

end Outline
