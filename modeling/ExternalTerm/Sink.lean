/-!
# Byte sinks

A sink takes bytes a few at a time, at its own pace, and may have room for only some of them.
`write` offers the rest again until all bytes are taken or the sink takes no more.
-/

namespace ExternalTerm

structure Sink where
  content : Array UInt8 := #[]
  /-- The most bytes the content may have, if that is bounded. -/
  capacity : Option Nat := none
  /-- The most bytes taken at once, if that is bounded. -/
  chunk : Option Nat := none
  /-- A full sink takes nothing, instead of refusing. -/
  stalls : Bool := false
  deriving DecidableEq, Repr, Inhabited

namespace Sink

inductive Failure where
  | closed
  | stalled
  deriving DecidableEq, Repr, Inhabited

def Failure.message : Failure → String
  | closed => "closed"
  | stalled => "failed to write whole buffer"

/-- The number of bytes taken when `offered` bytes are. -/
def allowance (s : Sink) (offered : Nat) : Nat :=
  min (min offered (s.chunk.getD offered))
    ((s.capacity.getD (s.content.size + offered)) - s.content.size)

/-- Offer the bytes at most `offers` times. -/
def writeWithin : (offers : Nat) → (s : Sink) → List UInt8 → Option Failure × Sink
  | _, s, [] => (none, s)
  | 0, s, _ => (none, s)
  | offers + 1, s, bytes =>
    match s.allowance bytes.length with
    | 0 => (some (if s.stalls then .stalled else .closed), s)
    | n => writeWithin offers { s with content := s.content ++ bytes.take n } (bytes.drop n)

/-- Write all bytes, as far as the sink takes them. One offer a byte is enough. -/
def write (s : Sink) (bytes : List UInt8) : Option Failure × Sink :=
  s.writeWithin bytes.length bytes

end Sink

end ExternalTerm
