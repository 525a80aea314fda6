import TensorToolchain.Number.Scalar

/-!
# Bytes

Integers as bytes, the lowest first, and bytes as hexadecimal digits.
-/

namespace TensorToolchain

def littleEndian : Nat → Nat → List UInt8
  | 0, _ => []
  | width + 1, n => .ofNat n :: littleEndian width (n / 256)

def ofLittleEndian : List UInt8 → Nat
  | [] => 0
  | b :: rest => b.toNat + 256 * ofLittleEndian rest

/-- An integer in two's complement, the lowest byte first. -/
def signedBytes (width : Nat) (n : Int) : List UInt8 := littleEndian width (n % (.pow 256 width : Nat)).toNat

def ofSignedBytes (bytes : List UInt8) : Int :=
  let n := ofLittleEndian bytes
  if 2 * n < .pow 256 bytes.length then n else n - (.pow 256 bytes.length : Nat)

def hexByte (b : UInt8) : String := .ofList [Nat.digitChar (b.toNat / 16), Nat.digitChar (b.toNat % 16)]

def hexText (bytes : List UInt8) : String := .join (bytes.map hexByte)

def ofHex : List Char → Option (List UInt8)
  | [] => some []
  | a :: b :: rest => do
    let high ← Number.hexDigit? a
    let low ← Number.hexDigit? b
    return .ofNat (16 * high + low) :: (← ofHex rest)
  | _ => none

end TensorToolchain
