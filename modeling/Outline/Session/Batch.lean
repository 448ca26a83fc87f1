import Outline.Session.Basic

/-!
# Batches

The extraction of many files. A file that is too large is skipped, and one that cannot be read or
extracted is noted as a failure; the others go on.
-/

namespace Outline

/-- A file that could not be extracted, and why. -/
structure Failure where
  path : String
  error : String
deriving DecidableEq, Inhabited

/-- What became of a file. -/
inductive Outcome where
  | extracted (record : FileRecord)
  | skipped (path : String)
  | failed (failure : Failure)
deriving DecidableEq, Inhabited

/-- The counts of a batch. -/
structure Stats where
  /-- Files that were extracted. -/
  files : Nat
  symbols : Nat
  imports : Nat
  exports : Nat
  failures : Nat
  skipped : Nat
  /-- Parsers that the session has created so far. -/
  parsersCreated : Nat
  /-- Parses that the session was asked for so far. -/
  parsesCalled : Nat
  /-- The time that the batch took, in nanoseconds. -/
  elapsed : Nat
deriving DecidableEq, Inhabited

/-- Everything that comes of a batch, each list in the order of the paths. -/
structure Report where
  results : List FileRecord
  failures : List Failure
  skipped : List String
  stats : Stats
deriving DecidableEq, Inhabited

namespace Outcome

/-- The record of an extracted file. -/
def record? : Outcome → Option FileRecord
  | extracted r => some r
  | _ => none

/-- The path of a skipped file. -/
def skipped? : Outcome → Option String
  | skipped path => some path
  | _ => none

/-- The failure of a file. -/
def failure? : Outcome → Option Failure
  | failed f => some f
  | _ => none

end Outcome

namespace Report

/-- The report on some outcomes, with the parsers as the batch leaves them. -/
def of (outcomes : List Outcome) (parsers : Parsers) (elapsed : Nat) : Report :=
  let results := outcomes.filterMap Outcome.record?
  let failures := outcomes.filterMap Outcome.failure?
  let skipped := outcomes.filterMap Outcome.skipped?
  let total (size : FileRecord → Nat) := results.foldr (fun r n => size r + n) 0
  { results, failures, skipped
    stats :=
      { files := results.length
        symbols := total (·.symbols.length)
        imports := total (·.imports.length)
        exports := total (·.exports.length)
        failures := failures.length
        skipped := skipped.length
        parsersCreated := parsers.created
        parsesCalled := parsers.calls
        elapsed } }

end Report

namespace Session

/-- The failure of a file that cannot be read. -/
def unreadable (path : String) (e : FileError) : Outcome :=
  .failed ⟨path, "failed to read: " ++ e.message⟩

/-- Extract the file at a path, unless it has more bytes than the limit. -/
def extractPath (w : Workshop) (limit : Nat) (s : Session) (path : String) : Outcome × Session :=
  match w.files.size path, w.files.read path with
  | .error e, _ => (unreadable path e, s)
  | .ok size, contents =>
    if limit < size then (.skipped path, s)
    else match contents with
      | .error e => (unreadable path e, s)
      | .ok bytes =>
        let (result, s) := s.extract w path ⟨bytes⟩
        (match result with
          | .ok record => .extracted record
          | .error e => .failed ⟨path, e.message⟩, s)

/-- Extract the files at some paths, one after the other. -/
def extractEach (w : Workshop) (limit : Nat) (s : Session) : List String → List Outcome × Session
  | [] => ([], s)
  | path :: paths =>
    let (outcome, s) := s.extractPath w limit path
    let (outcomes, s) := extractEach w limit s paths
    (outcome :: outcomes, s)

/-- Extract the files at some paths and report on them. The clock is not part of the session, so the
    report shows no time. -/
def extractPaths (w : Workshop) (limit : Nat) (s : Session) (paths : List String) :
    Report × Session :=
  let (outcomes, s) := s.extractEach w limit paths
  (.of outcomes s.parsers 0, s)

end Session

end Outline
