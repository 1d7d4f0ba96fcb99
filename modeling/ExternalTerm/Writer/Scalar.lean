import ExternalTerm.Digits
import ExternalTerm.Tag
import ExternalTerm.Utf8
import ExternalTerm.Width
import ExternalTerm.Writer.Basic

/-!
# Writing scalars

Atoms, binaries and integers, each in the shortest form of its family.
-/

namespace ExternalTerm.Writer

/-- Write a name as an atom, with the short length if it is enough. -/
def atom (name : String) : WriteM Unit := do
  let data := Utf8.encode name
  let length := data.length
  if length ≤ smallLengthMax then
    bytes [Tag.smallAtomUtf8.byte, UInt8.ofNat length]
  else if length ≤ mediumLengthMax then
    bytes [Tag.atomUtf8.byte]
    bytes (Digits.bigEndian 2 length)
  else
    throw (.atomTooLong length)
  bytes data

def binary (data : List UInt8) : WriteM Unit := do
  let length := data.length
  if largeLengthMax < length then
    throw (.lengthOverflow .binary length)
  bytes [Tag.binary.byte]
  bytes (Digits.bigEndian 4 length)
  bytes data

/-- The four bytes of a 32-bit integer in two's complement, most significant first. -/
def int32Bytes (n : Int32) : List UInt8 := Digits.bigEndian 4 (n.toInt % Int32.size).toNat

/-- Write an integer of the 32-bit range, in one byte if it is enough. -/
def int32 (n : Int32) : WriteM Unit :=
  if 0 ≤ n.toInt ∧ n.toInt ≤ smallIntegerMax then
    bytes [Tag.smallInteger.byte, UInt8.ofNat n.toInt.toNat]
  else
    bytes (Tag.integer.byte :: int32Bytes n)

/-- Write any integer, as one of the 32-bit range if it is, else with the digits of its magnitude,
least significant first and without leading zeros. -/
def integer (n : Int) : WriteM Unit :=
  if Width.w32.Fits n then
    int32 (Int32.ofInt n)
  else do
    let length := Digits.byteLength n.natAbs
    if smallLengthMax < length then
      throw (.bigIntegerTooLarge length)
    bytes [Tag.smallBig.byte, UInt8.ofNat length, if n < 0 then 1 else 0]
    bytes (Digits.littleEndian length n.natAbs)

end ExternalTerm.Writer
