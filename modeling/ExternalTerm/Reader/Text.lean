import ExternalTerm.Reader.Header
import ExternalTerm.Reader.Integer
import ExternalTerm.TaggedText

/-!
# Reading texts

Text comes as an atom, a binary, a string, a list of the numbers of its characters, or, when it is
empty, as the empty list.
-/

namespace ExternalTerm.Reader

def utf8 (length : Nat) : ReadM String := do
  let bytes ← run length
  match Utf8.decode bytes with
  | .ok s => return s
  | .error defect => throw (.invalidUtf8 defect)

def char? (n : Int) : Option Char :=
  if 0 ≤ n ∧ n.toNat.isValidChar then some (Char.ofNat n.toNat) else none

def character : ReadM Char := do
  let code ← integer .w64
  match char? code.toInt with
  | some c => return c
  | none => throw (.invalidCodePoint code.toInt)

/-- Read what follows the tag of a list of characters. -/
def characters : ReadM String := do
  let count ← listCount
  let chars ← repeated count character
  nil
  return String.ofList chars

def textTagged (tag : UInt8) : ReadM String :=
  match Tag.ofByte? tag with
  | some .smallAtomUtf8 | some .smallAtom => do
    let length ← unsigned 1
    utf8 length
  | some .atomUtf8 | some .atom | some .string => do
    let length ← unsigned 2
    utf8 length
  | some .binary => do
    let length ← unsigned 4
    utf8 length
  | some .list => characters
  | some .nil => pure ""
  | _ => throw (.unexpectedTag tag .text)

def text : ReadM String := do
  let tag ← byte
  textTagged tag

/-- Read a text whose tag is this byte, and keep the family of the tag. -/
def taggedTextTagged (tag : UInt8) : ReadM TaggedText :=
  match (Tag.ofByte? tag).bind Tag.textFamily? with
  | some family => do
    let value ← textTagged tag
    return ⟨value, family⟩
  | none => throw (.unexpectedTag tag .taggedText)

end ExternalTerm.Reader
