import CborSchema.Wire.Head

/-!
# Hexadecimal text

Two lower-case digits a byte, and a number without leading zeros.
-/

namespace CborSchema.Hex

/-- A hexadecimal digit, lower case. -/
def digit (n : Nat) : Char := if n < 10 then Char.ofNat (48 + n) else Char.ofNat (87 + n)

/-- The two digits of a byte. -/
def ofByte (b : UInt8) : List Char := [digit (b.toNat / 16), digit (b.toNat % 16)]

/-- Two digits a byte, in order. -/
def ofBytes (bytes : Bytes) : String := String.ofList (bytes.flatMap ofByte)

/-- The digits of a number, most significant first and without leading zeros. -/
def ofNat (n : Nat) : List Char := Nat.toDigits 16 n

end CborSchema.Hex
