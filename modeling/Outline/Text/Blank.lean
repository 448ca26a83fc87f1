/-!
# Blank characters

The characters with the Unicode property `White_Space`, and the trimming functions built on a
class of characters. Trimming works on lists of characters; `onChars` lifts such a function to
strings.
-/

namespace Outline.Text

/-- The Unicode property `White_Space`: 25 characters. -/
def isBlank (c : Char) : Bool :=
  let n := c.toNat
  (9 ≤ n && n ≤ 13) || n == 0x20 || n == 0x85 || n == 0xA0 || n == 0x1680 ||
  (0x2000 ≤ n && n ≤ 0x200A) || n == 0x2028 || n == 0x2029 || n == 0x202F || n == 0x205F ||
  n == 0x3000

/-- Drop the characters of a class from the front of a text. -/
def trimStart (p : Char → Bool) (cs : List Char) : List Char :=
  cs.dropWhile p

/-- Drop the characters of a class from the back of a text. -/
def trimEnd (p : Char → Bool) (cs : List Char) : List Char :=
  (cs.reverse.dropWhile p).reverse

/-- Drop the characters of a class from both ends of a text. -/
def trim (p : Char → Bool) (cs : List Char) : List Char :=
  trimEnd p (trimStart p cs)

/-- A function on lists of characters as a function on strings. -/
def onChars (f : List Char → List Char) (s : String) : String :=
  String.ofList (f s.toList)

/-- The text without blank characters at its ends. -/
def trimBlank (s : String) : String :=
  onChars (trim isBlank) s

/-- The quote characters that may surround a string literal or a quoted name. -/
def isQuote (c : Char) : Bool :=
  c == '"' || c == '\x27' || c == '\x60'

/-- The text of a string literal without its quotes. All quote characters at the two ends go,
    whether or not they pair up. -/
def stripQuotes (s : String) : String :=
  onChars (trim isQuote) s

/-- Split a text at every occurrence of a character; the pieces exclude it, and there is one piece
    more than there are occurrences. -/
def splitAt (sep : Char) : List Char → List (List Char)
  | [] => [[]]
  | c :: cs =>
    if c == sep then [] :: splitAt sep cs
    else match splitAt sep cs with
      | [] => [[c]]
      | piece :: pieces => (c :: piece) :: pieces

/-- What follows `front` in a text that starts with it. -/
def after? : List Char → List Char → Option (List Char)
  | [], cs => some cs
  | _ :: _, [] => none
  | f :: fs, c :: cs => if f == c then after? fs cs else none

/-- Whether a text occurs in another one. -/
def occursIn (word : List Char) : List Char → Bool
  | [] => word.isEmpty
  | c :: cs => word.isPrefixOf (c :: cs) || occursIn word cs

theorem after?_eq_some_iff {front cs rest : List Char} :
    after? front cs = some rest ↔ cs = front ++ rest := by
  induction front generalizing cs with
  | nil => simp [after?, eq_comm]
  | cons f front ih =>
    cases cs with
    | nil => simp [after?]
    | cons c cs =>
      rw [after?]
      by_cases hc : (f == c) = true
      · rw [if_pos hc, ih, List.cons_append, List.cons.injEq]
        simp [(beq_iff_eq.1 hc).symm]
      · rw [if_neg hc]
        have hne : c ≠ f := fun heq => hc (beq_iff_eq.2 heq.symm)
        simp [hne]

end Outline.Text
