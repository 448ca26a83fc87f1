import Outline.Module.Export
import Outline.Symbol.Extract
import Outline.Typing

/-!
# File records

Everything that is extracted from one source file.
-/

namespace Outline

/-- What a source file declares, imports, exports and annotates. -/
structure FileRecord where
  path : String
  language : Language
  /-- The symbols, in source order. -/
  symbols : List Symbol
  /-- The imports, in source order. -/
  imports : List Import
  /-- The exports, in source order. -/
  exports : List Export
  /-- The types of bound names. -/
  types : Dict
  /-- Whether the source has faults, so that the record may lack something. -/
  hasSyntaxErrors : Bool
deriving DecidableEq, Inhabited

namespace FileRecord

/-- The first symbol with a name. -/
def symbol? (r : FileRecord) (name : String) : Option Symbol :=
  r.symbols.find? (·.name == name)

/-- The record with its exported symbols only. -/
def exportedOnly (r : FileRecord) : FileRecord :=
  { r with symbols := r.symbols.filter (·.exported) }

end FileRecord

end Outline
