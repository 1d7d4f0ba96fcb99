import ExternalTerm.Digits
import ExternalTerm.Tag
import ExternalTerm.Term
import ExternalTerm.Utf8
import ExternalTerm.Writer.Error

/-!
# Sizes

The number of bytes of a term on the wire, found without writing it. A term that cannot be written
has no size, for the reason for which it cannot be written.
-/

namespace ExternalTerm.Term

def int32Size (n : Int) : Nat := if 0 ≤ n ∧ n ≤ smallIntegerMax then 2 else 5

mutual

/-- The number of bytes `Writer.term` writes, or the error it ends with. -/
def encodedSize : Term → Except EncodeError Nat
  | .atom name =>
    let length := Utf8.size name
    if length ≤ smallLengthMax then
      .ok (2 + length)
    else if length ≤ mediumLengthMax then
      .ok (3 + length)
    else
      .error (.atomTooLong length)
  | .text value =>
    let length := Utf8.size value
    if largeLengthMax < length then .error (.lengthOverflow .binary length) else .ok (5 + length)
  | .int n => .ok (int32Size n.toInt)
  | .bigInt n =>
    let length := Digits.byteLength n.natAbs
    if Width.w32.Fits n then
      .ok (int32Size n)
    else if smallLengthMax < length then
      .error (.bigIntegerTooLarge length)
    else
      .ok (3 + length)
  | .tuple elements => do
    let arity := elements.length
    if largeLengthMax < arity then
      throw (.lengthOverflow .tuple arity)
    encodedSizes (if arity ≤ smallLengthMax then 2 else 5) elements
  | .list elements => do
    let count := elements.length
    if largeLengthMax < count then
      throw (.lengthOverflow .list count)
    encodedSizes (5 + 1) elements

/-- Add the number of bytes of terms one after the other to `before`. -/
def encodedSizes (before : Nat) : List Term → Except EncodeError Nat
  | [] => .ok before
  | t :: ts => do
    let size ← encodedSize t
    encodedSizes (before + size) ts

end

def messageSize (t : Term) : Except EncodeError Nat := do
  let size ← t.encodedSize
  return 1 + size

end ExternalTerm.Term
