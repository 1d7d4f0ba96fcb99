import ExternalTerm.Decoded
import ExternalTerm.Reader.Term

/-!
# Reading against a shape

The shape decides what is accepted. `Shape.check` finds the parts of a shape that nothing can ever
match, so that a message is not begun in vain; `shaped` refuses them when it comes to them.
-/

namespace ExternalTerm

mutual

/-- Refuse a shape that asks somewhere for an 8-bit or an unsigned integer; the first such part
counts. -/
def Shape.check : Shape → Except DecodeError Unit
  | .integer .w8 => throw (.range .w8)
  | .unsigned _ => throw (.unhandledTarget .unsignedInteger)
  | .record fields => Shape.checkFields fields
  | .list element => element.check
  | _ => pure ()

def Shape.checkFields : List (Field Shape) → Except DecodeError Unit
  | [] => pure ()
  | ⟨_, shape⟩ :: fields => do
    shape.check
    checkFields fields

end

namespace Reader

/-- What a byte of a string becomes as an element of this shape, if it can be one. -/
def byteElement? : Shape → Option (UInt8 → Decoded)
  | .integer _ => some fun b => .integer (Int64.ofNat b.toNat)
  | .bigInteger => some fun b => .bigInteger b.toNat
  | .any => some fun b => .term (.int (Int32.ofNat b.toNat))
  | _ => none

def byteElements (element : Shape) : ReadM Decoded :=
  match byteElement? element with
  | some ofByte => do
    let length ← unsigned 2
    let bytes ← run length
    return .list (bytes.map ofByte)
  | none => throw (.unexpectedTag Tag.string.byte element.kind)

mutual

def shaped : Shape → ReadM Decoded
  | .integer .w8 => throw (.range .w8)
  | .integer width => do
    let n ← integer width
    return .integer n
  | .unsigned _ => throw (.unhandledTarget .unsignedInteger)
  | .bigInteger => do
    let n ← bigInteger
    return .bigInteger n
  | .text => do
    let s ← text
    return .text s
  | .taggedText => do
    let tag ← byte
    let t ← taggedTextTagged tag
    return .tagged t
  | .record fields => do
    let tag ← byte
    let arity ← tupleArity tag
    if arity ≠ fields.length then
      throw (.arityMismatch fields.length arity)
    let values ← nested (shapedFields fields)
    return .record values
  | .list element => do
    let tag ← byte
    match Tag.ofByte? tag with
    | some .nil => return .list []
    | some .string => byteElements element
    | some .list =>
      let count ← listCount
      let elements ← nested (repeated count (shaped element))
      nil
      return .list elements
    | _ => throw (.unexpectedTag tag .list)
  | .any => do
    let t ← term
    return .term t

def shapedFields : List (Field Shape) → ReadM (List (Field Decoded))
  | [] => pure []
  | ⟨name, shape⟩ :: fields => do
    let value ← shaped shape
    let values ← shapedFields fields
    return ⟨name, value⟩ :: values

end

end Reader

end ExternalTerm
