import ExternalTerm.Reader.Basic

/-!
# Reading integers

An integer is accepted in any of its three forms, whatever its value; whether it fits the width a
receiver asks for is decided when its value is known. A machine integer passes through 64 bits on
the way to its width.
-/

namespace ExternalTerm.Reader

/-- Read what follows the tag of a `smallBig`: a length, a sign and the digits. -/
def bigIntegerBody : ReadM Int := do
  let length ← unsigned 1
  let sign ← byte
  if 1 < sign then
    throw (.bigIntegerSign sign)
  let digits ← EStateM.adaptExcept
    (fun | .truncated expected actual => .bigIntegerLength expected actual | e => e) (run length)
  let magnitude : Int := Digits.ofLittleEndian digits
  return if sign = 1 then -magnitude else magnitude

def bigIntegerTagged (tag : UInt8) : ReadM Int :=
  match Tag.ofByte? tag with
  | some .smallInteger => do
    let n ← unsigned 1
    return n
  | some .integer => do
    let n ← int32
    return n.toInt
  | some .smallBig => bigIntegerBody
  | _ => throw (.unexpectedTag tag .integer)

def bigInteger : ReadM Int := do
  let tag ← byte
  bigIntegerTagged tag

def int64Tagged (tag : UInt8) : ReadM Int64 :=
  match Tag.ofByte? tag with
  | some .smallInteger => do
    let b ← byte
    return Int64.ofNat b.toNat
  | some .integer => do
    let n ← int32
    return n.toInt64
  | some .smallBig => do
    let n ← bigIntegerBody
    if ¬ Width.w64.Fits n then
      throw (.overflow n .w64)
    return Int64.ofInt n
  | _ => throw (.unexpectedTag tag .integer)

/-- Read a machine integer whose tag is this byte. A value outside the 64-bit range is refused as
such, whatever the width. -/
def integerTagged (tag : UInt8) (width : Width) : ReadM Int64 := do
  let n ← int64Tagged tag
  if ¬ width.Fits n.toInt then
    throw (.overflow n.toInt width)
  return n

def integer (width : Width) : ReadM Int64 := do
  let tag ← byte
  integerTagged tag width

end ExternalTerm.Reader
