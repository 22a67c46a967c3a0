import Seanet.Text.Basic

set_option autoImplicit false

namespace Seanet

namespace Utf8

/-- What the first byte of a longer character says: how many bytes follow, the bounds of the first
of them, and the bits of the code point that are known. -/
structure Lead where
  more : Nat
  low : UInt8
  high : UInt8
  bits : Nat

def lead? (b : UInt8) : Option Lead :=
  if 0xC2 ≤ b && b ≤ 0xDF then some ⟨1, 0x80, 0xBF, b.toNat - 0xC0⟩
  else if b == 0xE0 then some ⟨2, 0xA0, 0xBF, 0⟩
  else if b == 0xED then some ⟨2, 0x80, 0x9F, 0xD⟩
  else if 0xE1 ≤ b && b ≤ 0xEF then some ⟨2, 0x80, 0xBF, b.toNat - 0xE0⟩
  else if b == 0xF0 then some ⟨3, 0x90, 0xBF, 0⟩
  else if 0xF1 ≤ b && b ≤ 0xF3 then some ⟨3, 0x80, 0xBF, b.toNat - 0xF0⟩
  else if b == 0xF4 then some ⟨3, 0x80, 0x8F, 4⟩
  else none

/-- The bytes that follow a first byte: the code point if they are complete, and how many of them
belong to it in any case. -/
def trail : Nat → UInt8 → UInt8 → Nat → List UInt8 → Option Nat × Nat
  | 0, _, _, bits, _ => (some bits, 0)
  | _ + 1, _, _, _, [] => (none, 0)
  | n + 1, low, high, bits, b :: rest =>
    if low ≤ b && b ≤ high then
      let (code, used) := trail n 0x80 0xBF (bits * 64 + (b.toNat - 0x80)) rest
      (code, used + 1)
    else (none, 0)

def unitsOf (code : Nat) : Text :=
  if code < 0x10000 then [code.toUInt16]
  else
    [(0xD800 + (code - 0x10000) / 0x400).toUInt16, (0xDC00 + (code - 0x10000) % 0x400).toUInt16]

def replacement : UInt16 := 0xFFFD

def decode : List UInt8 → Text
  | [] => []
  | b :: rest =>
    if b < 0x80 then b.toUInt16 :: decode rest
    else
      match lead? b with
      | none => replacement :: decode rest
      | some l =>
        let (code, used) := trail l.more l.low l.high l.bits rest
        (code.map unitsOf).getD [replacement] ++ decode (rest.drop used)
termination_by bytes => bytes.length
decreasing_by all_goals simp only [List.length_drop, List.length_cons]; omega

def bytesOf (code : Nat) : List UInt8 :=
  if code < 0x80 then [code.toUInt8]
  else if code < 0x800 then [(0xC0 + code / 64).toUInt8, (0x80 + code % 64).toUInt8]
  else if code < 0x10000 then
    [(0xE0 + code / 4096).toUInt8, (0x80 + code / 64 % 64).toUInt8, (0x80 + code % 64).toUInt8]
  else
    [(0xF0 + code / 262144).toUInt8, (0x80 + code / 4096 % 64).toUInt8,
      (0x80 + code / 64 % 64).toUInt8, (0x80 + code % 64).toUInt8]

def encode (t : Text) : List UInt8 :=
  t.codePoints.flatMap fun code =>
    bytesOf (if 0xD800 ≤ code && code ≤ 0xDFFF then 0xFFFD else code)

end Utf8

end Seanet
