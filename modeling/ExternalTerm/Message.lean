import ExternalTerm.Reader.Shape
import ExternalTerm.Target
import ExternalTerm.Writer.Size
import ExternalTerm.Writer.Term

/-!
# Messages

A message is a term after the byte `versionMagic`. Encoding finds the term of a value before it
writes anything; decoding checks the shape before it reads anything.
-/

namespace ExternalTerm

/-! ## Encoding -/

def writeMessage (t : Term) : WriteM Unit := do
  Writer.bytes [versionMagic]
  Writer.term t

def encode (v : Value) : WriteM Unit := do
  let t ← MonadExcept.ofExcept v.toTerm
  writeMessage t

/-- The message of a value. Its size is known before it is written. -/
def toBytes (v : Value) : Except EncodeError (List UInt8) := do
  let t ← v.toTerm
  let _ ← t.messageSize
  match (writeMessage t).run {} with
  | .ok _ s => return s.content.toList
  | .error e _ => throw e

/-! ## Decoding -/

def readMessage (shape : Shape) : ReadM Decoded := do
  Reader.version
  Reader.shaped shape

/-- Decode the message at the start of a source; gives the rest of the source too. -/
def decode (source : Source) (shape : Shape) (limits : Limits) :
    Except DecodeError Decoded × Source :=
  match shape.check with
  | .error e => (.error e, source)
  | .ok _ =>
    match (readMessage shape).run { source, limits } with
    | .ok d r => (.ok d, r.source)
    | .error e r => (.error e, r.source)

def decodeAs (source : Source) (target : Target) (limits : Limits) :
    Except DecodeError Value × Source :=
  let (result, source) := decode source target.shape limits
  (result.bind target.ofDecoded, source)

/-- Decode the message at the start of these bytes into a type. What follows it does not matter. -/
def ofBytes (bytes : List UInt8) (target : Target) (limits : Limits) : Except DecodeError Value :=
  (decodeAs (.ofBytes bytes) target limits).1

/-! ## Both -/

/-- Which side of the codec failed, and why. -/
inductive CodecError where
  | encoding (error : EncodeError)
  | decoding (error : DecodeError)
  deriving DecidableEq, Repr, Inhabited

def CodecError.message : CodecError → String
  | encoding error => s!"encoding failed: {error.message}"
  | decoding error => s!"decoding failed: {error.message}"

def transcode (v : Value) (target : Target) : Except CodecError Value := do
  let bytes ← (toBytes v).mapError .encoding
  (ofBytes bytes target {}).mapError .decoding

end ExternalTerm
