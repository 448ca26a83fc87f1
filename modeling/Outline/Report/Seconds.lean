/-!
# Seconds with one decimal place

A time of some nanoseconds is first taken to a binary number of seconds with 53 significant bits:
the whole seconds and the rest of a second are rounded, and then their sum. That number is written
with one decimal place. All roundings go to the nearest value, and halfway to the even one; all
arithmetic is on natural numbers, with a value as a quotient.
-/

namespace Outline.Seconds

/-- A quotient of natural numbers. -/
structure Ratio where
  num : Nat
  den : Nat

/-- The natural number nearest to a quotient; the even one of two that are equally near. -/
def Ratio.nearest (r : Ratio) : Nat :=
  let whole := r.num / r.den
  let twice := 2 * (r.num % r.den)
  if twice < r.den then whole
  else if r.den < twice then whole + 1
  else whole + whole % 2

/-- The number of significant bits. -/
def precision : Nat := 53

/-- The number of doublings that take a positive quotient below one to one or above. -/
def doublings (r : Ratio) : Nat :=
  let k := (r.den / r.num).log2
  if r.den ≤ r.num * Nat.pow 2 k then k else k + 1

/-- A quotient rounded to the significant bits. -/
def Ratio.toBinary (r : Ratio) : Ratio :=
  if r.num = 0 then r
  else if r.den ≤ r.num then
    let bits := (r.num / r.den).log2 + 1
    let scale := Nat.pow 2 (precision - bits)
    let unit := Nat.pow 2 (bits - precision)
    ⟨Ratio.nearest ⟨r.num * scale, r.den * unit⟩ * unit, scale⟩
  else
    let scale := Nat.pow 2 (doublings r + precision - 1)
    ⟨Ratio.nearest ⟨r.num * scale, r.den⟩, scale⟩

/-- The sum of two quotients. -/
def Ratio.add (a b : Ratio) : Ratio :=
  ⟨a.num * b.den + b.num * a.den, a.den * b.den⟩

/-- The nanoseconds in a second. -/
def perSecond : Nat := 1000000000

/-- A time in nanoseconds as a binary number of seconds. -/
def ofNanos (nanos : Nat) : Ratio :=
  let whole : Ratio := ⟨nanos / perSecond, 1⟩
  let rest : Ratio := ⟨nanos % perSecond, perSecond⟩
  (whole.toBinary.add rest.toBinary).toBinary

/-- The written form of a time in nanoseconds. -/
def text (nanos : Nat) : String :=
  let seconds := ofNanos nanos
  let tenths := Ratio.nearest ⟨seconds.num * 10, seconds.den⟩
  toString (tenths / 10) ++ "." ++ toString (tenths % 10)

end Outline.Seconds
