import ExternalTerm.Reader.Basic

/-!
# Reading headers

What stands around the elements of tuples and lists.
-/

namespace ExternalTerm.Reader

def tupleArity (tag : UInt8) : ReadM Nat := do
  let arity ←
    match Tag.ofByte? tag with
    | some .smallTuple => unsigned 1
    | some .largeTuple => unsigned 4
    | _ => throw (.unexpectedTag tag .tuple)
  checkElements .tuple arity
  return arity

def listCount : ReadM Nat := do
  let count ← unsigned 4
  checkElements .list count
  return count

/-- Read the end of a list. The end of the data is no such end. -/
def nil : ReadM Unit := do
  let b ← EStateM.adaptExcept (fun | .truncated .. => .missingNil none | e => e) byte
  if b ≠ Tag.nil.byte then
    throw (.missingNil (some b))

end ExternalTerm.Reader
