import Outline.Text.Blank

/-!
# Readers

A reader takes a value off the front of a text, or fails. Readers are put together with the usual
operations of a monad; a choice tries its second reader on the same text as its first.
-/

namespace Outline.Text

/-- Takes a value off the front of a text. -/
abbrev Reader := StateT (List Char) Option

namespace Reader

/-- Read one character of a class. -/
def one (p : Char → Bool) : Reader Char
  | c :: cs => if p c then some (c, cs) else none
  | [] => none

/-- Read the given character. -/
def char (c : Char) : Reader Char :=
  one (· == c)

/-- Read the given text. -/
def word (w : String) : Reader Unit := fun cs =>
  (after? w.toList cs).map ((), ·)

/-- Read all characters of a class that come next. -/
def run (p : Char → Bool) : Reader (List Char) := fun cs =>
  some (cs.takeWhile p, cs.dropWhile p)

/-- Read all characters of a class that come next, with one at least. -/
def run1 (p : Char → Bool) : Reader (List Char) := do
  let first ← one p
  return first :: (← run p)

/-- Read the given number of characters of a class. -/
def exactly (p : Char → Bool) : Nat → Reader (List Char)
  | 0 => pure []
  | n + 1 => do
    let c ← one p
    return c :: (← exactly p n)

/-- Read with a reader if it does not fail. -/
def maybe {α : Type} (r : Reader α) : Reader (Option α) :=
  (some <$> r) <|> pure none

/-- Read with a reader again and again until it fails, at most the given number of times. -/
def upTo {α : Type} (r : Reader α) : Nat → Reader (List α)
  | 0 => pure []
  | n + 1 => do
    match ← maybe r with
    | some a => return a :: (← upTo r n)
    | none => return []

/-- Read with a reader again and again until it fails. Each time should take a character at least.
    -/
def many {α : Type} (r : Reader α) : Reader (List α) := fun cs =>
  upTo r cs.length cs

/-- Succeed at the end of the text only. -/
def atEnd : Reader Unit
  | [] => some ((), [])
  | _ :: _ => none

/-- What a reader makes of a whole text. -/
def readAll? {α : Type} (r : Reader α) (cs : List Char) : Option α :=
  ((r <* atEnd) cs).map Prod.fst

end Reader

end Outline.Text
