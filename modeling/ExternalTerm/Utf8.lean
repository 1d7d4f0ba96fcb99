/-!
# UTF-8

`encode` writes a text as UTF-8 and `decode` reads it back. Reading is one pass over the bytes: the
first byte of a character says how many follow and restricts the next one (`lead`), so neither an
overlong form nor a surrogate nor a number above `0x10FFFF` is ever completed. Bytes that are no
UTF-8 are reported with the length of the longest valid text before them and the number of bytes
that could still have begun a character.
-/

namespace ExternalTerm.Utf8

def encodeChar (c : Char) : List UInt8 :=
  let n := c.toNat
  if n < 0x80 then
    [UInt8.ofNat n]
  else if n < 0x800 then
    [UInt8.ofNat (0xC0 + n / 64), UInt8.ofNat (0x80 + n % 64)]
  else if n < 0x10000 then
    [UInt8.ofNat (0xE0 + n / 4096), UInt8.ofNat (0x80 + n / 64 % 64), UInt8.ofNat (0x80 + n % 64)]
  else
    [UInt8.ofNat (0xF0 + n / 262144), UInt8.ofNat (0x80 + n / 4096 % 64),
      UInt8.ofNat (0x80 + n / 64 % 64), UInt8.ofNat (0x80 + n % 64)]

def encode (s : String) : List UInt8 := s.toList.flatMap encodeChar

def size (s : String) : Nat := (encode s).length

/-- Where and why bytes are not UTF-8. -/
inductive Defect where
  /-- The `length` bytes at `index` begin no character. -/
  | invalid (index length : Nat)
  /-- The bytes end within the character that begins at `index`. -/
  | incomplete (index : Nat)
  deriving DecidableEq, Repr, Inhabited

def Defect.message : Defect → String
  | invalid index length => s!"invalid utf-8 sequence of {length} bytes from index {index}"
  | incomplete index => s!"incomplete utf-8 byte sequence from index {index}"

/-- A character of which some bytes are read. -/
structure Partial where
  /-- The number of bytes read. -/
  seen : Nat
  bits : Nat
  /-- The number of bytes that must follow the next one. -/
  more : Nat
  /-- The least possible next byte. -/
  low : UInt8
  /-- The greatest possible next byte. -/
  high : UInt8
  deriving Repr, Inhabited

/-- What the first byte of a character says about the bytes after it; none for a byte that never
comes first. A byte below `0x80` is not asked about: it is a character of its own. -/
def lead (b : UInt8) : Option Partial :=
  if b < 0xC2 then none
  else if b < 0xE0 then some ⟨1, b.toNat - 0xC0, 0, 0x80, 0xBF⟩
  else if b = 0xE0 then some ⟨1, 0, 1, 0xA0, 0xBF⟩
  else if b = 0xED then some ⟨1, 0xD, 1, 0x80, 0x9F⟩
  else if b < 0xF0 then some ⟨1, b.toNat - 0xE0, 1, 0x80, 0xBF⟩
  else if b = 0xF0 then some ⟨1, 0, 2, 0x90, 0xBF⟩
  else if b < 0xF4 then some ⟨1, b.toNat - 0xF0, 2, 0x80, 0xBF⟩
  else if b = 0xF4 then some ⟨1, 4, 2, 0x80, 0x8F⟩
  else none

/-- Read on: `begun` is the character being read, `start` the index where it began or would begin,
`chars` the characters before it, last first. -/
def scan : (begun : Option Partial) → (start : Nat) → (chars : List Char) → List UInt8 →
    Except Defect (List Char)
  | none, _, chars, [] => .ok chars.reverse
  | some _, start, _, [] => .error (.incomplete start)
  | none, start, chars, b :: bytes =>
    if b < 0x80 then
      scan none (start + 1) (Char.ofNat b.toNat :: chars) bytes
    else
      match lead b with
      | none => .error (.invalid start 1)
      | some p => scan (some p) start chars bytes
  | some p, start, chars, b :: bytes =>
    if p.low ≤ b ∧ b ≤ p.high then
      let bits := p.bits * 64 + (b.toNat - 0x80)
      match p.more with
      | 0 => scan none (start + (p.seen + 1)) (Char.ofNat bits :: chars) bytes
      | more + 1 => scan (some ⟨p.seen + 1, bits, more, 0x80, 0xBF⟩) start chars bytes
    else
      .error (.invalid start p.seen)

def decode (bytes : List UInt8) : Except Defect String :=
  (scan none 0 [] bytes).map String.ofList

end ExternalTerm.Utf8
