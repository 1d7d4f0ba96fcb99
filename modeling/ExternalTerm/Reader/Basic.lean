import ExternalTerm.Digits
import ExternalTerm.Limits
import ExternalTerm.Reader.Error
import ExternalTerm.Source

/-!
# Readers

A reader draws bytes from a source within limits. An action that reads leaves the reader as far
advanced as it came, also when it fails, so a reader can be used on after an error.

Fixed-size parts are read with `exactly`, runs whose length comes from the sender with `run`, and
whatever is inside a tuple or a list with `nested`.
-/

namespace ExternalTerm

structure Reader where
  source : Source
  limits : Limits := {}
  /-- The number of tuples and lists being read. -/
  depth : Nat := 0
  /-- The number of bytes known to be read. -/
  consumed : Nat := 0
  deriving DecidableEq

abbrev ReadM := EStateM DecodeError Reader

namespace Reader

/-- Read a part of a fixed size. Its bytes count as consumed as they arrive. -/
def exactly (size : Nat) : ReadM (List UInt8) := fun r =>
  let (got, source) := r.source.pull size
  let r := { r with source, consumed := r.consumed + got.bytes.length }
  if got.failed then
    .error .sourceFailed r
  else if got.bytes.length < size then
    .error (.truncated size got.bytes.length) r
  else
    .ok got.bytes r

/-- Read a run of bytes, unless it is longer than the limit. Its bytes count as consumed when the
source has not failed before the end of the run. -/
def run (length : Nat) : ReadM (List UInt8) := fun r =>
  if r.limits.maxPayload < length then
    .error (.limitExceeded .byteRun length r.limits.maxPayload) r
  else
    let (got, source) := r.source.pull length
    if got.failed then
      .error .sourceFailed { r with source }
    else
      let r := { r with source, consumed := r.consumed + got.bytes.length }
      if got.bytes.length < length then
        .error (.truncated length got.bytes.length) r
      else
        .ok got.bytes r

def byte : ReadM UInt8 := do
  let bytes ← exactly 1
  return bytes.headD 0

/-- Read an unsigned number of `size` bytes, most significant first. -/
def unsigned (size : Nat) : ReadM Nat := do
  let bytes ← exactly size
  return Digits.ofBigEndian bytes

/-- Read a 32-bit integer in two's complement, most significant byte first. -/
def int32 : ReadM Int32 := do
  let n ← unsigned 4
  return Int32.ofInt n

/-- Refuse an arity or a count above the limit. -/
def checkElements (what : Kind) (count : Nat) : ReadM Unit := do
  let r ← get
  if r.limits.maxElements < count then
    throw (.limitExceeded what count r.limits.maxElements)

/-- Read inside one more tuple or list, unless this exceeds the limit. -/
def nested {α : Type} (body : ReadM α) : ReadM α := fun r =>
  if r.limits.maxDepth ≤ r.depth then
    .error (.depthExceeded r.limits.maxDepth) r
  else
    match body { r with depth := r.depth + 1 } with
    | .ok a r => .ok a { r with depth := r.depth - 1 }
    | .error e r => .error e { r with depth := r.depth - 1 }

/-- Read `count` things, the ones read before being `got`, last first. -/
def repeatOnto {α : Type} (one : ReadM α) : (count : Nat) → (got : List α) → ReadM (List α)
  | 0, got => pure got.reverse
  | count + 1, got => do
    let a ← one
    repeatOnto one count (a :: got)

def repeated {α : Type} (count : Nat) (one : ReadM α) : ReadM (List α) := repeatOnto one count []

def version : ReadM Unit := do
  let b ← byte
  if b ≠ versionMagic then
    throw (.version b)

end Reader

end ExternalTerm
