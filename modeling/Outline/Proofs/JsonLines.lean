import Mathlib.Data.List.Basic
import Outline.Report.Listing

/-!
# JSON on lines

The written form of a JSON value has no line break, since strings escape theirs (`render_isFlat`).
So a value on a line of its own is one line (`count_line`), and output that consists of such lines
has as many lines as values.
-/

namespace Outline

/-- A text without line breaks. -/
def IsFlat (s : String) : Prop :=
  '\n' ∉ s.toList

instance (s : String) : Decidable (IsFlat s) :=
  inferInstanceAs (Decidable ('\n' ∉ s.toList))

theorem IsFlat.append {s t : String} (hs : IsFlat s) (ht : IsFlat t) : IsFlat (s ++ t) := by
  rw [IsFlat, String.toList_append, List.mem_append, not_or]
  exact ⟨hs, ht⟩

theorem IsFlat.intercalate {sep : String} (hsep : IsFlat sep) :
    ∀ {ss : List String}, (∀ s ∈ ss, IsFlat s) → IsFlat (sep.intercalate ss)
  | [], _ => by
    rw [String.intercalate_nil]
    decide
  | [s], h => by
    rw [String.intercalate_singleton]
    exact h s (List.mem_singleton.2 rfl)
  | s :: t :: ss, h => by
    rw [String.intercalate_cons_cons]
    have hrest : IsFlat (sep.intercalate (t :: ss)) :=
      hsep.intercalate fun u hu => h u (List.mem_cons_of_mem _ hu)
    exact ((h s (List.mem_cons_self ..)).append hsep).append hrest

namespace Json

theorem hexDigit_ne {n : Nat} (h : n < 16) : hexDigit n ≠ '\n' := by
  have hall : ∀ n < 16, hexDigit n ≠ '\n' := by decide
  exact hall n h

theorem newline_not_mem_escapeChar (c : Char) : '\n' ∉ escapeChar c := by
  unfold escapeChar
  -- Seven characters have escapes of their own, the line break among them.
  split
  · decide
  · decide
  · decide
  · decide
  · decide
  · decide
  · decide
  · rename_i hnewline _ _
    split_ifs with hsmall
    · have hhigh := hexDigit_ne (show c.toNat / 16 < 16 by omega)
      have hlow := hexDigit_ne (show c.toNat % 16 < 16 by omega)
      simp [hhigh.symm, hlow.symm]
    · simpa using Ne.symm hnewline

theorem quote_isFlat (s : String) : IsFlat (quote s) := by
  have htext : IsFlat (String.ofList (s.toList.flatMap escapeChar)) := by
    rw [IsFlat, String.toList_ofList, List.mem_flatMap]
    rintro ⟨c, -, hc⟩
    exact newline_not_mem_escapeChar c hc
  have hquote : IsFlat "\"" := by decide
  exact (hquote.append htext).append hquote

mutual

theorem render_isFlat : ∀ j : Json, IsFlat (render j)
  | .null => by decide
  | .bool b => by cases b <;> decide
  | .number n => by
    rw [IsFlat, render]
    intro h
    have hdigit := Nat.isDigit_of_mem_toDigits (by decide) (by decide) (Nat.toList_repr ▸ h)
    exact absurd hdigit (by decide)
  | .string s => quote_isFlat s
  | .array items => by
    have hitems := IsFlat.intercalate (show IsFlat "," by decide) (renderItems_isFlat items)
    rw [render]
    exact ((show IsFlat "[" by decide).append hitems).append (by decide)
  | .object members => by
    have hmembers := IsFlat.intercalate (show IsFlat "," by decide) (renderMembers_isFlat members)
    rw [render]
    exact ((show IsFlat "\x7b" by decide).append hmembers).append (by decide)

theorem renderItems_isFlat : ∀ js : List Json, ∀ s ∈ renderItems js, IsFlat s
  | [] => by
    intro s hs
    cases hs
  | j :: js => by
    intro s hs
    rcases List.mem_cons.1 hs with rfl | hs
    · exact render_isFlat j
    · exact renderItems_isFlat js s hs

theorem renderMembers_isFlat : ∀ ms : List (String × Json), ∀ s ∈ renderMembers ms, IsFlat s
  | [] => by
    intro s hs
    cases hs
  | (key, j) :: ms => by
    intro s hs
    rcases List.mem_cons.1 hs with rfl | hs
    · exact ((quote_isFlat key).append (by decide)).append (render_isFlat j)
    · exact renderMembers_isFlat ms s hs

end

/-- A value on a line of its own has one line break, at its end. -/
theorem count_line (j : Json) : j.line.toList.count '\n' = 1 := by
  rw [line, String.toList_append, List.count_append, List.count_eq_zero.2 (render_isFlat j)]
  rfl

/-- Output that consists of values on lines of their own has as many lines as values. -/
theorem count_lines (js : List Json) :
    (String.join (js.map line)).toList.count '\n' = js.length := by
  rw [String.toList_join]
  induction js with
  | nil => rfl
  | cons j js ih =>
    rw [List.map_cons, List.flatMap_cons, List.count_append, ih, count_line, List.length_cons,
      Nat.add_comm]

end Json

end Outline
