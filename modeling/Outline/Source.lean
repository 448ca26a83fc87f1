import Outline.Text.Utf8

/-!
# Source texts and locations

A source is a list of bytes. A place in it is a byte offset, or a line and a column: the line counts
the line feeds before the offset, the column the bytes since the last of them. Both count from one.
-/

namespace Outline

/-- The bytes of a source file. -/
structure Source where
  bytes : List UInt8
deriving DecidableEq, Inhabited

/-- The span of a node in its source, in both ways of counting. -/
structure Location where
  /-- Line of the first byte, from one. -/
  startLine : Nat
  /-- Column of the first byte, in bytes from one. -/
  startColumn : Nat
  /-- Line of the end, from one. -/
  endLine : Nat
  /-- Column of the end, in bytes from one. -/
  endColumn : Nat
  /-- Offset of the first byte. -/
  startByte : Nat
  /-- Offset past the last byte. -/
  endByte : Nat
deriving DecidableEq, Inhabited

namespace Source

/-- The source that holds a text. -/
def ofString (s : String) : Source :=
  ⟨Text.encode s⟩

/-- The number of bytes. -/
def size (src : Source) : Nat :=
  src.bytes.length

/-- The bytes from one offset to another. -/
def slice (src : Source) (start stop : Nat) : List UInt8 :=
  (src.bytes.drop start).take (stop - start)

/-- The text between two offsets; nothing if the bytes are no text. -/
def text (src : Source) (start stop : Nat) : String :=
  match Text.decode? (src.slice start stop) with
  | some cs => String.ofList cs
  | none => ""

/-- The characters between two offsets, readable even if the bytes are no text. -/
def readable (src : Source) (start stop : Nat) : List Char :=
  let bytes := src.slice start stop
  (Text.decode? bytes).getD (Text.asciiView bytes)

/-- The byte that ends a line. -/
def lineFeed : UInt8 := 10

/-- The line of an offset, from one. -/
def line (src : Source) (offset : Nat) : Nat :=
  (src.bytes.take offset).count lineFeed + 1

/-- The column of an offset, from one: the bytes since the last line feed before it. -/
def column (src : Source) (offset : Nat) : Nat :=
  ((src.bytes.take offset).reverse.takeWhile (· != lineFeed)).length + 1

/-- The location of the bytes from one offset to another. -/
def locate (src : Source) (start stop : Nat) : Location where
  startLine := src.line start
  startColumn := src.column start
  endLine := src.line stop
  endColumn := src.column stop
  startByte := start
  endByte := stop

end Source

end Outline
