import ExternalTerm.Term
import ExternalTerm.Writer.Scalar

/-!
# Writing terms

The headers of tuples and lists, and whole terms.
-/

namespace ExternalTerm.Writer

/-- Write what stands before the elements of a tuple, with the short arity if it is enough. -/
def tupleHeader (arity : Nat) : WriteM Unit :=
  if arity ≤ smallLengthMax then
    bytes [Tag.smallTuple.byte, UInt8.ofNat arity]
  else if arity ≤ largeLengthMax then do
    bytes [Tag.largeTuple.byte]
    bytes (Digits.bigEndian 4 arity)
  else
    throw (.lengthOverflow .tuple arity)

def listHeader (count : Nat) : WriteM Unit := do
  if largeLengthMax < count then
    throw (.lengthOverflow .list count)
  bytes [Tag.list.byte]
  bytes (Digits.bigEndian 4 count)

def nil : WriteM Unit := bytes [Tag.nil.byte]

mutual

def term : Term → WriteM Unit
  | .atom name => atom name
  | .text value => binary (Utf8.encode value)
  | .int n => int32 n
  | .bigInt n => integer n
  | .tuple elements => do
    tupleHeader elements.length
    terms elements
  | .list elements => do
    listHeader elements.length
    terms elements
    nil

def terms : List Term → WriteM Unit
  | [] => pure ()
  | t :: ts => do
    term t
    terms ts

end

end ExternalTerm.Writer
