import ExternalTerm.Decoded
import ExternalTerm.Reader.Error
import ExternalTerm.Value

/-!
# Typed targets

The types a message can be decoded into. A target determines the shape to decode against, `shape`,
and how to build its value from what such a decoding gives, `ofDecoded`.
-/

namespace ExternalTerm

/-- A type to decode into. -/
inductive Target where
  /-- The signed machine integers of a width. -/
  | machine (width : Width)
  | integer
  | string
  | tagged
  | term
  | unit
  | list (element : Target)
  | record (fields : List (Field Target))

/-- The fields of a record that must have this many. -/
def Decoded.recordFields (d : Decoded) (arity : Nat) :
    Except DecodeError (List (Field Decoded)) :=
  match d with
  | .record fields =>
    if fields.length = arity then .ok fields else .error (.arityMismatch arity fields.length)
  | d => .error (.shapeMismatch .record d.kind)

/-- Convert the next field, and give the fields after it. -/
def Decoded.nextField {α : Type} (convert : Decoded → Except DecodeError α) :
    List (Field Decoded) → Except DecodeError α × List (Field Decoded)
  | [] => (.error (.shapeMismatch .recordField .endOfRecord), [])
  | field :: fields => (convert field.value, fields)

namespace Target

mutual

/-- The shape to decode a value of this type against. -/
def shape : Target → Shape
  | machine width => .integer width
  | integer => .bigInteger
  | string => .text
  | tagged => .taggedText
  | term => .any
  | unit => .record []
  | list element => .list element.shape
  | record fields => .record (fieldShapes fields)

def fieldShapes : List (Field Target) → List (Field Shape)
  | [] => []
  | ⟨name, target⟩ :: fields => ⟨name, target.shape⟩ :: fieldShapes fields

end

mutual

/-- The value of this type that a decoded value stands for. -/
def ofDecoded : Target → Decoded → Except DecodeError Value
  | machine width, d =>
    match d with
    | .integer n =>
      if h : width.Fits n.toInt then
        .ok (.machine ⟨.signed width, n.toInt, h⟩)
      else
        .error (.overflow n.toInt width)
    | d => .error (.shapeMismatch .integer d.kind)
  | integer, d =>
    match d with
    | .bigInteger n => .ok (.integer n)
    | .integer n => .ok (.integer n.toInt)
    | d => .error (.shapeMismatch .bigInteger d.kind)
  | string, d =>
    match d with
    | .text s => .ok (.string s)
    | .tagged t => .ok (.string t.value)
    | d => .error (.shapeMismatch .text d.kind)
  | tagged, d =>
    match d with
    | .tagged t => .ok (.tagged t)
    | d => .error (.shapeMismatch .taggedText d.kind)
  | term, d =>
    match d with
    | .term t => .ok (.term t)
    | d => .error (.shapeMismatch .term d.kind)
  | unit, d => do
    let _ ← d.recordFields 0
    return .unit
  | list element, d =>
    match d with
    | .list ds => do
      let vs ← ds.mapM element.ofDecoded
      return .list vs
    | d => .error (.shapeMismatch .list d.kind)
  | record targets, d => do
    let fields ← d.recordFields targets.length
    let values ← ofFields targets fields
    return .record values

def ofFields : List (Field Target) → List (Field Decoded) →
    Except DecodeError (List (Field Value))
  | [], _ => .ok []
  | ⟨name, target⟩ :: targets, fields => do
    let (value, fields) := Decoded.nextField target.ofDecoded fields
    let value ← value
    let values ← ofFields targets fields
    return ⟨name, value⟩ :: values

end

end Target

end ExternalTerm
