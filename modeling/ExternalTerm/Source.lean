/-!
# Byte sources

A source hands out bytes a few at a time, at its own pace: a read may deliver less than it was asked
for, be interrupted, or fail. `pull` reads on until it has what it wants, the data ends or a read
fails; an interrupted read is made again.
-/

namespace ExternalTerm

structure Source where
  /-- The bytes still to come. -/
  pending : List UInt8
  delivered : Nat := 0
  /-- The most bytes one read delivers, if that is bounded. -/
  chunk : Option Nat := none
  /-- The number of bytes after which every read fails, if there is one. -/
  failAt : Option Nat := none
  /-- Every other read is interrupted. -/
  interrupts : Bool := false
  /-- The next read is interrupted. -/
  interruptNext : Bool := interrupts
  deriving DecidableEq, Repr, Inhabited

namespace Source

inductive Outcome where
  /-- Some of the bytes asked for; none at the end of the data. -/
  | data (bytes : List UInt8)
  | interrupted
  | failed
  deriving DecidableEq, Repr, Inhabited

def ofBytes (bytes : List UInt8) : Source := { pending := bytes }

/-- The number of bytes a read for `want` bytes may deliver. -/
def allowance (s : Source) (want : Nat) : Nat :=
  min (min want (s.chunk.getD want)) ((s.failAt.getD (s.delivered + want)) - s.delivered)

def exhausted (s : Source) : Bool := s.failAt.any (· ≤ s.delivered)

def read (s : Source) (want : Nat) : Outcome × Source :=
  if s.interruptNext then
    (.interrupted, { s with interruptNext := false })
  else if s.exhausted then
    (.failed, { s with interruptNext := s.interrupts })
  else
    let bytes := s.pending.take (s.allowance want)
    (.data bytes,
      { s with
        pending := s.pending.drop (s.allowance want)
        delivered := s.delivered + bytes.length
        interruptNext := s.interrupts })

/-- The bytes that several reads delivered, and whether the last one failed. -/
structure Pulled where
  bytes : List UInt8
  failed : Bool
  deriving DecidableEq, Repr, Inhabited

/-- At most `reads` reads for `want` more bytes; `got` holds the bytes read before, last first. -/
def pullWithin : (reads : Nat) → (s : Source) → (want : Nat) → (got : List UInt8) →
    Pulled × Source
  | 0, s, _, got => (⟨got.reverse, false⟩, s)
  | reads + 1, s, want, got =>
    if want = 0 then
      (⟨got.reverse, false⟩, s)
    else
      match s.read want with
      | (.interrupted, s) => pullWithin reads s want got
      | (.failed, s) => (⟨got.reverse, true⟩, s)
      | (.data [], s) => (⟨got.reverse, false⟩, s)
      | (.data bytes, s) => pullWithin reads s (want - bytes.length) (bytes.reverseAux got)

/-- Read until there are `want` bytes, the data ends or a read fails. Two reads a byte are enough,
since no two reads in a row are interrupted. -/
def pull (s : Source) (want : Nat) : Pulled × Source := s.pullWithin (2 * want) want []

end Source

end ExternalTerm
