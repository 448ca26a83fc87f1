import Outline.Text.Reader
import Outline.Toml.Value

/-!
# TOML scalars

The readers for strings, numbers, truth values and dates.
-/

namespace Outline.Toml.Read

open Outline.Text Outline.Text.Reader

/-! ## Characters -/

/-- A blank inside a line. -/
def isSpace (c : Char) : Bool :=
  c == ' ' || c == '\t'

/-- A character that may stand in a comment or a string: any but the control characters, of which a
    tab is allowed. -/
def isPlain (c : Char) : Bool :=
  c == '\t' || (32 ≤ c.toNat && c.toNat != 127)

/-- The end of a line. -/
def newline : Reader Unit :=
  word "\n" <|> word "\r\n"

/-- Blanks inside a line. -/
def spaces : Reader Unit := do
  let _ ← run isSpace

/-- A comment, up to the end of its line. -/
def comment : Reader Unit := do
  let _ ← char '#'
  let _ ← run isPlain

/-- A hexadecimal digit. -/
def isHex (c : Char) : Bool :=
  c.isDigit || ('a' ≤ c && c ≤ 'f') || ('A' ≤ c && c ≤ 'F')

/-- The value of a digit in any base up to sixteen. -/
def digitValue (c : Char) : Nat :=
  if c.isDigit then c.toNat - '0'.toNat
  else if c ≤ 'F' then c.toNat - 'A'.toNat + 10
  else c.toNat - 'a'.toNat + 10

/-- The number that some digits spell in a base. -/
def numberIn (base : Nat) (digits : List Char) : Nat :=
  digits.foldl (fun n c => base * n + digitValue c) 0

/-! ## Strings -/

/-- The character with a code, if there is one. -/
def charWithCode (digits : List Char) : Reader Char :=
  let n := numberIn 16 digits
  if n.isValidChar then pure (Char.ofNat n) else failure

/-- What an escape stands for, after its backslash. -/
def escape : Reader Char := do
  match ← one (fun _ => true) with
  | 'b' => return '\x08'
  | 'f' => return '\x0c'
  | 'n' => return '\n'
  | 'r' => return '\r'
  | 't' => return '\t'
  | '"' => return '"'
  | '\\' => return '\\'
  | 'u' => charWithCode (← exactly isHex 4)
  | 'U' => charWithCode (← exactly isHex 8)
  | _ => failure

/-- Characters of a string with escapes that stand for themselves. -/
def isUnescaped (c : Char) : Bool :=
  isPlain c && c != '"' && c != '\\'

/-- A string in double quotes. -/
def basicString : Reader String := do
  let _ ← char '"'
  let pieces ← many (run1 isUnescaped <|> (do
    let _ ← char '\\'
    return [← escape]))
  let _ ← char '"'
  return String.ofList pieces.flatten

/-- A string in single quotes, without escapes. -/
def literalString : Reader String := do
  let _ ← char '\x27'
  let cs ← run fun c => isPlain c && c != '\x27'
  let _ ← char '\x27'
  return String.ofList cs

/-- One or two quotes, which do not end a string of several lines. -/
def innerQuotes (q : Char) : Reader (List Char) := do
  let qs ← run1 (· == q)
  if qs.length ≤ 2 then return qs else failure

/-- The three quotes that end a string of several lines, after up to two that belong to it. -/
def closingQuotes (q : Char) : Reader (List Char) := do
  let qs ← run1 (· == q)
  if 3 ≤ qs.length ∧ qs.length ≤ 5 then return qs.drop 3 else failure

/-- The end of a line inside a string. -/
def innerNewline : Reader (List Char) := do
  newline
  return ['\n']

/-- A backslash at the end of a line, which hides the line end and all blanks after it. -/
def hiddenNewline : Reader (List Char) := do
  let _ ← char '\\'
  spaces
  newline
  let _ ← many (newline <|> (do let _ ← run1 isSpace))
  return []

/-- A string of several lines between the given quotes, with pieces of the given kind. A line end
    right after the opening quotes does not count. -/
def longString (q : Char) (piece : Reader (List Char)) : Reader String := do
  let _ ← exactly (· == q) 3
  let _ ← maybe newline
  let pieces ← many (piece <|> innerNewline <|> innerQuotes q)
  let last ← closingQuotes q
  return String.ofList (pieces.flatten ++ last)

/-- A string of several lines in double quotes. -/
def longBasicString : Reader String :=
  longString '"' <| run1 isUnescaped <|> hiddenNewline <|> (do
    let _ ← char '\\'
    return [← escape])

/-- A string of several lines in single quotes. -/
def longLiteralString : Reader String :=
  longString '\x27' (run1 fun c => isPlain c && c != '\x27')

/-- Any string. -/
def anyString : Reader String :=
  longBasicString <|> basicString <|> longLiteralString <|> literalString

/-! ## Numbers -/

/-- Digits of a class, with single underscores between them. -/
def digits (p : Char → Bool) : Reader (List Char) := do
  let first ← one p
  let rest ← many (one p <|> (do
    let _ ← char '_'
    one p))
  return first :: rest

/-- A sign; true for minus. -/
def sign : Reader Bool := do
  match ← maybe (one fun c => c == '+' || c == '-') with
  | some '-' => return true
  | _ => return false

/-- Decimal digits that start with no zero, or a zero. -/
def wholeDigits : Reader (List Char) := fun cs =>
  match cs with
  | '0' :: rest => some (['0'], rest)
  | _ => digits Char.isDigit cs

/-- The least and the greatest integer that a document may hold. -/
def integerRange : Int × Int := (-9223372036854775808, 9223372036854775807)

/-- An integer in the range. -/
def inRange (n : Int) : Reader Toml :=
  if integerRange.1 ≤ n ∧ n ≤ integerRange.2 then pure (.integer n) else failure

/-- An integer with a mark of its base. -/
def basedInteger (mark : String) (base : Nat) (p : Char → Bool) : Reader Toml := do
  word mark
  inRange (numberIn base (← digits p))

/-- An integer in decimal digits. -/
def decimalInteger : Reader Toml := do
  let negative ← sign
  let n : Int := numberIn 10 (← wholeDigits)
  inRange (if negative then -n else n)

/-- Any integer. -/
def integer : Reader Toml :=
  basedInteger "0x" 16 isHex <|>
  basedInteger "0o" 8 (fun c => '0' ≤ c && c ≤ '7') <|>
  basedInteger "0b" 2 (fun c => c == '0' || c == '1') <|>
  decimalInteger

/-- The exponent of a float. -/
def exponent : Reader Int := do
  let _ ← one fun c => c == 'e' || c == 'E'
  let negative ← sign
  let n : Int := numberIn 10 (← digits Char.isDigit)
  return if negative then -n else n

/-- The part of a float after its point. -/
def fraction : Reader (List Char) := do
  let _ ← char '.'
  digits Char.isDigit

/-- The least number that is too large for a binary float of 64 bits. -/
def floatLimit : Nat := Nat.pow 2 1024 - Nat.pow 2 970

/-- Whether the number with the given digits, times a power of ten, is too large for a float. -/
def overflows (digits : List Char) (power : Int) : Bool :=
  let n := numberIn 10 digits
  let places := (Nat.toDigits 10 n).length + power
  if n = 0 ∨ places < 300 then false
  else if 320 < places then true
  else if 0 ≤ power then floatLimit ≤ n * Nat.pow 10 power.toNat
  else floatLimit * Nat.pow 10 (-power).toNat ≤ n

/-- A float in digits. One that is too large has no value, unless it is negative. -/
def decimalFloat : Reader Toml := do
  let negative ← sign
  let whole ← wholeDigits
  let (frac, power) ← (do
      let e ← exponent
      return (([] : List Char), e)) <|> (do
      let frac ← fraction
      let e ← maybe exponent
      return (frac, e.getD 0))
  if !negative && overflows (whole ++ frac) (power - frac.length) then failure
  else return .float

/-- A float that is infinite or no number. -/
def specialFloat : Reader Toml := do
  let _ ← sign
  word "inf" <|> word "nan"
  return .float

/-! ## Dates and times -/

/-- A number of so many digits, in a range. -/
def field (places least greatest : Nat) : Reader Nat := do
  let n := numberIn 10 (← exactly Char.isDigit places)
  if least ≤ n ∧ n ≤ greatest then return n else failure

/-- Whether a year has a leap day. -/
def isLeap (year : Nat) : Bool :=
  year % 4 == 0 && (year % 100 != 0 || year % 400 == 0)

/-- The number of days in a month. -/
def daysIn (year month : Nat) : Nat :=
  if month = 2 then (if isLeap year then 29 else 28)
  else if month = 4 ∨ month = 6 ∨ month = 9 ∨ month = 11 then 30
  else 31

/-- A date. -/
def date : Reader Unit := do
  let year ← field 4 0 9999
  let _ ← char '-'
  let month ← field 2 1 12
  let _ ← char '-'
  let _ ← field 2 1 (daysIn year month)

/-- A time of day. A minute may have a leap second. -/
def time : Reader Unit := do
  let _ ← field 2 0 23
  let _ ← char ':'
  let _ ← field 2 0 59
  let _ ← char ':'
  let _ ← field 2 0 60
  let _ ← maybe (do
    let _ ← char '.'
    run1 Char.isDigit)

/-- The distance of a time from universal time. -/
def offset : Reader Unit :=
  (do let _ ← one fun c => c == 'Z' || c == 'z') <|> (do
    let _ ← one fun c => c == '+' || c == '-'
    let _ ← field 2 0 23
    let _ ← char ':'
    let _ ← field 2 0 59)

/-- The time that may follow a date. -/
def timeOfDate : Reader Unit := do
  let _ ← one fun c => c == 'T' || c == 't' || c == ' '
  time
  let _ ← maybe offset

/-- A date, a time, or both. -/
def dateTime : Reader Toml :=
  (do
    date
    let _ ← maybe timeOfDate
    return .datetime) <|> (do
    time
    return .datetime)

/-! ## All scalars -/

/-- A truth value. -/
def boolean : Reader Toml :=
  (do
    word "true"
    return .boolean true) <|> (do
    word "false"
    return .boolean false)

/-- Any value but arrays and tables. -/
def scalar : Reader Toml :=
  (.string <$> anyString) <|> dateTime <|> decimalFloat <|> specialFloat <|> integer <|> boolean

end Outline.Toml.Read
