import Mathlib.Data.Nat.Count
import Mathlib.Data.Nat.SuccPred
import Mathlib.Data.Prod.Lex
import Mathlib.Order.Interval.Set.Monotone
import Outline.Proofs.Layout

/-!
# Lines, columns and offsets

An offset in a source has a line and a column. One byte further, the line stays and the column
grows, or a new line begins (`line_succ`, `column_succ`). So lines count the line feeds before an
offset and columns the bytes of its line before it (`isPlace`), the offset can be computed from both
(`offsetAt_line_column`), and pairs of line and column are in the order of the offsets
(`strictMonoOn_position`). A location therefore says the same in both ways of counting.
-/

namespace Outline

open Cursor

namespace Source

variable {src : Source} {offset : Nat}

/-- There is a line feed at an offset. -/
def IsFeed (src : Source) (i : Nat) : Prop :=
  src.bytes[i]? = some lineFeed

instance : DecidablePred src.IsFeed := fun i =>
  inferInstanceAs (Decidable (src.bytes[i]? = some lineFeed))

/-- A line starts at an offset and goes on up to another: the byte in front of it, if there is one,
    is a line feed, and none of its own bytes is. -/
structure IsLineTo (src : Source) (start offset : Nat) : Prop where
  le : start ≤ offset
  begins : ∀ i, i + 1 = start → src.IsFeed i
  unbroken : ∀ i, start ≤ i → i < offset → ¬ src.IsFeed i

/-! ## One byte further -/

theorem line_succ :
    src.line (offset + 1) = src.line offset + if src.IsFeed offset then 1 else 0 := by
  have hnext : src.line (offset + 1) =
      src.line offset + (src.bytes[offset]?.toList).count lineFeed := by
    rw [line, line, List.take_add_one, List.count_append, Nat.add_right_comm]
  rw [hnext]
  by_cases hfeed : src.IsFeed offset
  · have hbyte : src.bytes[offset]? = some lineFeed := hfeed
    rw [if_pos hfeed, hbyte, Option.toList_some, List.count_singleton_self]
  · rw [if_neg hfeed, List.count_eq_zero_of_not_mem fun hmem => hfeed (Option.mem_toList.1 hmem)]

theorem column_succ (h : offset < src.size) :
    src.column (offset + 1) = if src.IsFeed offset then 1 else src.column offset + 1 := by
  have hbyte : src.bytes[offset]? = some src.bytes[offset] := List.getElem?_eq_getElem h
  have hfeed : src.IsFeed offset ↔ src.bytes[offset] = lineFeed := by
    rw [IsFeed, hbyte, Option.some_inj]
  rw [column, column, List.take_add_one, hbyte, Option.toList_some, List.reverse_concat,
    List.takeWhile_cons]
  by_cases hb : src.bytes[offset] = lineFeed
  · rw [if_pos (hfeed.2 hb), hb]
    simp
  · rw [if_neg fun h => hb (hfeed.1 h), if_pos (by simpa using hb), List.length_cons]

/-! ## What lines and columns count -/

theorem line_eq_count (src : Source) (offset : Nat) :
    src.line offset = Nat.count src.IsFeed offset + 1 := by
  induction offset with
  | zero => simp [line]
  | succ o ih => rw [line_succ, Nat.count_succ, ih, Nat.add_right_comm]

theorem exists_isLineTo (h : offset ≤ src.size) :
    ∃ start, src.IsLineTo start offset ∧ start + src.column offset = offset + 1 := by
  induction offset with
  | zero =>
    exact ⟨0, ⟨Nat.le_refl 0, fun i hi => by omega, fun i _ hi => by omega⟩, by simp [column]⟩
  | succ o ih =>
    obtain ⟨start, ⟨hle, hbegins, hunbroken⟩, hcolumn⟩ := ih (Nat.le_of_succ_le h)
    by_cases hfeed : src.IsFeed o
    · -- The line feed ends the line, and the next one is still empty.
      refine ⟨o + 1, ⟨Nat.le_refl _, fun i hi => ?_, fun i _ hi => by omega⟩, ?_⟩
      · rwa [Nat.succ.inj hi]
      · rw [column_succ h, if_pos hfeed]
    · refine ⟨start, ⟨Nat.le_succ_of_le hle, hbegins, fun i hi hio => ?_⟩, ?_⟩
      · rcases Nat.lt_succ_iff_lt_or_eq.1 hio with hio | rfl
        · exact hunbroken i hi hio
        · exact hfeed
      · rw [column_succ h, if_neg hfeed]
        omega

/-! ## From lines and columns to offsets -/

/-- The offset behind the given number of lines. -/
def skipLines : Nat → List UInt8 → Nat
  | 0, _ => 0
  | _ + 1, [] => 0
  | n + 1, b :: bs => (if b = lineFeed then skipLines n bs else skipLines (n + 1) bs) + 1

/-- The offset of a line and a column. -/
def offsetAt (src : Source) (line column : Nat) : Nat :=
  skipLines (line - 1) src.bytes + (column - 1)

/-- A line that ends with a line feed is skipped up to the byte behind it. -/
theorem skipLines_count_take {bs : List UInt8} {o : Nat} (h : bs[o]? = some lineFeed) :
    skipLines ((bs.take o).count lineFeed + 1) bs = o + 1 := by
  induction bs generalizing o with
  | nil => simp at h
  | cons b bs ih =>
    cases o with
    | zero =>
      have hb : b = lineFeed := by simpa using h
      simp [skipLines, hb]
    | succ o =>
      have hrest := ih (by simpa using h)
      by_cases hb : b = lineFeed
      · rw [List.take_succ_cons, hb, List.count_cons_self, skipLines, if_pos rfl, hrest]
      · rw [List.take_succ_cons, List.count_cons_of_ne hb, skipLines, if_neg hb, hrest]

theorem offsetAt_line_column (h : offset ≤ src.size) :
    src.offsetAt (src.line offset) (src.column offset) = offset := by
  induction offset with
  | zero => simp [offsetAt, line, column, skipLines]
  | succ o ih =>
    have hbefore := ih (Nat.le_of_succ_le h)
    by_cases hfeed : src.IsFeed o
    · rw [offsetAt, line_succ, column_succ h, if_pos hfeed, if_pos hfeed]
      exact skipLines_count_take hfeed
    · have hcolumn : 1 ≤ src.column o := Nat.le_add_left ..
      rw [offsetAt] at hbefore ⊢
      rw [line_succ, column_succ h, if_neg hfeed, if_neg hfeed, Nat.add_zero]
      omega

/-- A line and a column are those of an offset: the line counts the line feeds before it, the column
    the bytes that its line has before it, and the offset can be told from both. -/
structure IsPlace (src : Source) (offset line column : Nat) : Prop where
  counts_feeds : line = Nat.count src.IsFeed offset + 1
  counts_bytes : ∃ start, src.IsLineTo start offset ∧ start + column = offset + 1
  told : src.offsetAt line column = offset

theorem isPlace (h : offset ≤ src.size) :
    src.IsPlace offset (src.line offset) (src.column offset) :=
  ⟨src.line_eq_count offset, exists_isLineTo h, offsetAt_line_column h⟩

/-! ## The order of lines and columns -/

/-- The line and the column of an offset. They are in lexicographic order. -/
def position (src : Source) (offset : Nat) : ℕ ×ₗ ℕ :=
  toLex (src.line offset, src.column offset)

theorem position_lt_succ (h : offset < src.size) :
    src.position offset < src.position (offset + 1) := by
  rw [position, position, Prod.Lex.toLex_lt_toLex, line_succ, column_succ h]
  by_cases hfeed : src.IsFeed offset
  · rw [if_pos hfeed]
    exact .inl (Nat.lt_succ_self _)
  · rw [if_neg hfeed, if_neg hfeed]
    exact .inr ⟨rfl, Nat.lt_succ_self _⟩

theorem strictMonoOn_position (src : Source) : StrictMonoOn src.position (Set.Iic src.size) :=
  strictMonoOn_Iic_of_lt_succ fun _ hoffset => position_lt_succ hoffset

end Source

/-! ## Locations -/

namespace Location

/-- The line and the column of the first byte. -/
def first (l : Location) : ℕ ×ₗ ℕ :=
  toLex (l.startLine, l.startColumn)

/-- The line and the column of the end. -/
def last (l : Location) : ℕ ×ₗ ℕ :=
  toLex (l.endLine, l.endColumn)

/-- A location lies in another, by lines and columns. -/
def LiesIn (inner outer : Location) : Prop :=
  outer.first ≤ inner.first ∧ inner.last ≤ outer.last

/-- A location lies in another, by bytes. -/
def LiesInBytes (inner outer : Location) : Prop :=
  outer.startByte ≤ inner.startByte ∧ inner.endByte ≤ outer.endByte

/-- A location is the one of a span, in both ways of counting. -/
structure Tells (l : Location) (src : Source) (start stop : Nat) : Prop where
  startByte : l.startByte = start
  endByte : l.endByte = stop
  start : src.IsPlace start l.startLine l.startColumn
  stop : src.IsPlace stop l.endLine l.endColumn

end Location

namespace Cursor

variable {src : Source}

/-- The node has a span in the source. -/
def IsIn (c : Cursor) (src : Source) : Prop :=
  c.label.start ≤ c.label.stop ∧ c.label.stop ≤ src.size

theorem tells_location {c : Cursor} (h : c.IsIn src) :
    (c.location src).Tells src c.label.start c.label.stop :=
  ⟨rfl, rfl, Source.isPlace (h.1.trans h.2), Source.isPlace h.2⟩

/-- A node lies within another exactly if its lines and columns do. -/
theorem liesIn_location_iff {c d : Cursor} (hc : c.IsIn src) (hd : d.IsIn src) :
    (c.location src).LiesIn (d.location src) ↔ Within c d := by
  have hmono := src.strictMonoOn_position
  exact and_congr (hmono.le_iff_le (hd.1.trans hd.2) (hc.1.trans hc.2))
    (hmono.le_iff_le hc.2 hd.2)

theorem isIn_of_mem_preorder {t : Tree} (hnests : t.nests = true) (hstop : t.label.stop ≤ src.size)
    {c : Cursor} (hc : c ∈ preorder t) : c.IsIn src :=
  ⟨(Tree.nests_iff.1 (nests_of_mem_preorder hnests hc)).1,
    (within_of_mem_preorderFrom hnests hc).2.trans hstop⟩

end Cursor

/-- Locations are coordinates of a source. A node with a span in the source has the lines and
    columns of its ends, from which its offsets can be told; lines with columns are in the order of
    the offsets; and one node lies within another by lines and columns exactly if it does so by
    bytes, as every node of a tree does with the nodes above it. -/
theorem Source.locations_faithful (src : Source) :
    (∀ c : Cursor, c.IsIn src → (c.location src).Tells src c.label.start c.label.stop) ∧
    (∀ a b, a ≤ src.size → b ≤ src.size →
      (src.position a < src.position b ↔ a < b) ∧ (src.position a = src.position b ↔ a = b)) ∧
    (∀ c d : Cursor, c.IsIn src → d.IsIn src →
      ((c.location src).LiesInBytes (d.location src) ↔ Within c d) ∧
        ((c.location src).LiesIn (d.location src) ↔ Within c d)) ∧
    ∀ t : Tree, t.nests = true → t.label.stop ≤ src.size → ∀ c ∈ preorder t, c.IsIn src ∧
      ∀ a ∈ c.ancestors, (c.location src).LiesInBytes (a.location src) ∧
        (c.location src).LiesIn (a.location src) := by
  have hmono := src.strictMonoOn_position
  refine ⟨fun c hc => tells_location hc, fun a b ha hb => ?_, fun c d hc hd => ?_, ?_⟩
  · exact ⟨hmono.lt_iff_lt ha hb, hmono.eq_iff_eq ha hb⟩
  · exact ⟨Iff.rfl, liesIn_location_iff hc hd⟩
  · intro t hnests hstop c hc
    have hin := isIn_of_mem_preorder hnests hstop hc
    refine ⟨hin, fun a ha => ?_⟩
    have hwithin := within_of_mem_ancestors hnests hc ha
    have hain := isIn_of_mem_preorder hnests hstop (mem_preorder_of_mem_ancestors hc ha)
    exact ⟨hwithin, (liesIn_location_iff hin hain).2 hwithin⟩

/-- A source with an empty line, and a node right behind a blank on its third line. -/
def spacedSource : Source :=
  .ofString "a\n\n b\n"

def spacedNames : Tree :=
  .node ⟨.other "program", none, false, 0, 6⟩
    [.node ⟨.identifier, none, false, 0, 1⟩ [],
     .node ⟨.other "parenthesized_expression", none, false, 2, 6⟩
      [.node ⟨.identifier, none, false, 4, 5⟩ [],
       .node ⟨.token ")", none, true, 6, 6⟩ []]]

/-- The line feed of the empty line comes before the blank, and all nodes lie in the nodes above. -/
theorem Source.locations_faithful_spacedNames :
    spacedNames.nests = true ∧ spacedNames.label.stop ≤ spacedSource.size ∧
    (preorder spacedNames).map (·.location spacedSource) =
      [⟨1, 1, 4, 1, 0, 6⟩, ⟨1, 1, 1, 2, 0, 1⟩, ⟨2, 1, 4, 1, 2, 6⟩, ⟨3, 2, 3, 3, 4, 5⟩,
        ⟨4, 1, 4, 1, 6, 6⟩] ∧
    (∀ c ∈ preorder spacedNames, (c.location spacedSource).Tells spacedSource c.label.start
      c.label.stop) ∧
    spacedSource.position 2 < spacedSource.position 3 ∧
    ∀ c ∈ preorder spacedNames, ∀ a ∈ c.ancestors,
      (c.location spacedSource).LiesInBytes (a.location spacedSource) ∧
        (c.location spacedSource).LiesIn (a.location spacedSource) := by
  have hnests : spacedNames.nests = true := by decide +kernel
  have hstop : spacedNames.label.stop ≤ spacedSource.size := by decide +kernel
  obtain ⟨htells, horder, -, htree⟩ := locations_faithful spacedSource
  have hnodes := htree spacedNames hnests hstop
  refine ⟨hnests, hstop, by decide +kernel, fun c hc => htells c (hnodes c hc).1, ?_,
    fun c hc => (hnodes c hc).2⟩
  exact (horder 2 3 (by decide +kernel) (by decide +kernel)).1.2 (by decide)

end Outline
