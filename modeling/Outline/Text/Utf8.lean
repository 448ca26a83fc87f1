/-!
# UTF-8

Reading a list of bytes as text. A byte list either is the encoding of exactly one list of
characters, which `decode?` returns, or it is no text at all. The four lengths of an encoded
character are told apart by the first byte; overlong forms, surrogates and values past U+10FFFF
are refused.
-/

namespace Outline.Text

/-- A continuation byte, `10xxxxxx`. -/
def isContinuation (b : UInt8) : Bool :=
  0x80 ≤ b.toNat && b.toNat < 0xC0

/-- The six payload bits of a continuation byte. -/
def payload (b : UInt8) : Nat :=
  b.toNat % 0x40

/-- The characters that a byte list encodes, or nothing if it encodes none. -/
def decode? : List UInt8 → Option (List Char)
  | [] => some []
  | a :: r₁ =>
    if a.toNat < 0x80 then (decode? r₁).map (Char.ofNat a.toNat :: ·)
    else match r₁ with
      | [] => none
      | b :: r₂ =>
        if !isContinuation b || a.toNat < 0xC2 then none
        else if a.toNat < 0xE0 then
          (decode? r₂).map (Char.ofNat (a.toNat % 0x20 * 0x40 + payload b) :: ·)
        else match r₂ with
          | [] => none
          | c :: r₃ =>
            if !isContinuation c then none
            else if a.toNat < 0xF0 then
              let point := (a.toNat % 0x10 * 0x40 + payload b) * 0x40 + payload c
              if point < 0x800 || (0xD800 ≤ point && point < 0xE000) then none
              else (decode? r₃).map (Char.ofNat point :: ·)
            else match r₃ with
              | [] => none
              | d :: r₄ =>
                let point :=
                  ((a.toNat % 0x08 * 0x40 + payload b) * 0x40 + payload c) * 0x40 + payload d
                if !isContinuation d || 0xF5 ≤ a.toNat || point < 0x10000 || 0x110000 ≤ point then
                  none
                else (decode? r₄).map (Char.ofNat point :: ·)

/-- The characters of a byte list that may not be text: every byte below 128 stands for itself and
    every other byte for the replacement character. -/
def asciiView (bytes : List UInt8) : List Char :=
  bytes.map fun b => if b.toNat < 0x80 then Char.ofNat b.toNat else '�'

/-- The bytes of a text. -/
def encode (s : String) : List UInt8 :=
  s.toUTF8.toList

end Outline.Text
