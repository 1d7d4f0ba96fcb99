import ExternalTerm.Reader.Text
import ExternalTerm.Term

/-!
# Reading any term

Without a shape to go by, every tag decides what its term becomes: all atoms an `atom`, a binary a
`text`, a string the `list` of its bytes.

Tuples and lists nest. `termWithin` is the reader for a given number of levels and `term` starts it
with the levels that the limit leaves; where none is left, `nested` refuses before an element is
read.
-/

namespace ExternalTerm.Reader

/-- The list that a string stands for. -/
def byteList (bytes : List UInt8) : Term := .list (bytes.map fun b => .int (Int32.ofNat b.toNat))

/-- Read a term whose tag is this byte, its elements with `element`. -/
def termBody (element : ReadM Term) (tag : UInt8) : ReadM Term :=
  match Tag.ofByte? tag with
  | some .smallInteger | some .integer | some .smallBig => do
    let n ← bigIntegerTagged tag
    return .ofInteger n
  | some .smallAtomUtf8 | some .smallAtom | some .atomUtf8 | some .atom => do
    let name ← textTagged tag
    return .atom name
  | some .binary => do
    let value ← textTagged tag
    return .text value
  | some .string => do
    let length ← unsigned 2
    let bytes ← run length
    return byteList bytes
  | some .nil => pure (.list [])
  | some .smallTuple | some .largeTuple => do
    let arity ← tupleArity tag
    let elements ← nested (repeated arity element)
    return .tuple elements
  | some .list => do
    let count ← listCount
    let elements ← nested (repeated count element)
    nil
    return .list elements
  | none => throw (.unexpectedTag tag .term)

/-- Read a term whose tag is this byte, with at most `levels` levels of tuples and lists. -/
def termWithin : (levels : Nat) → (tag : UInt8) → ReadM Term
  | 0 => termBody do
    let r ← get
    throw (.depthExceeded r.limits.maxDepth)
  | levels + 1 => termBody do
    let tag ← byte
    termWithin levels tag

def termTagged (tag : UInt8) : ReadM Term := do
  let r ← get
  termWithin (r.limits.maxDepth - r.depth) tag

def term : ReadM Term := do
  let tag ← byte
  termTagged tag

end ExternalTerm.Reader
