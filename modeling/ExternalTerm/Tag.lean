import ExternalTerm.TaggedText

/-!
# Tags

A term on the wire starts with a tag byte that says how to read the rest:

* `smallInteger`: one unsigned byte; `integer`: four bytes, signed, most significant first;
* `smallBig`: a length byte, a sign byte and that many base-256 digits, least significant first;
* `smallTuple`, `largeTuple`: an arity of one or four bytes, then the elements;
* `list`: a count of four bytes, the elements, then `nil`; `nil` alone is the empty list;
* `binary`, `string`: a length of four or two bytes, then the bytes;
* `atom`, `atomUtf8`: a length of two bytes, then the name; `smallAtom`, `smallAtomUtf8`: of one.

A whole message is one term after the byte `versionMagic`.
-/

namespace ExternalTerm

/-- The byte that opens every message. -/
def versionMagic : UInt8 := 131

/-- The largest value a `smallInteger` can carry. -/
def smallIntegerMax : Nat := 255

/-- The largest length of one byte. -/
def smallLengthMax : Nat := 255

def mediumLengthMax : Nat := 65535

def largeLengthMax : Nat := 4294967295

/-- The tags of the format, in the order of their bytes. -/
inductive Tag where
  | smallInteger
  | integer
  | atom
  | smallTuple
  | largeTuple
  | nil
  | string
  | list
  | binary
  | smallBig
  | smallAtom
  | atomUtf8
  | smallAtomUtf8
  deriving DecidableEq, Repr, Inhabited

namespace Tag

def byte : Tag → UInt8
  | smallInteger => 97
  | integer => 98
  | atom => 100
  | smallTuple => 104
  | largeTuple => 105
  | nil => 106
  | string => 107
  | list => 108
  | binary => 109
  | smallBig => 110
  | smallAtom => 115
  | atomUtf8 => 118
  | smallAtomUtf8 => 119

def all : List Tag :=
  [smallInteger, integer, atom, smallTuple, largeTuple, nil, string, list, binary, smallBig,
    smallAtom, atomUtf8, smallAtomUtf8]

def ofByte? (b : UInt8) : Option Tag := all.find? fun t => t.byte == b

def name : Tag → String
  | smallInteger => "SMALL_INTEGER_EXT"
  | integer => "INTEGER_EXT"
  | atom => "ATOM_EXT"
  | smallTuple => "SMALL_TUPLE_EXT"
  | largeTuple => "LARGE_TUPLE_EXT"
  | nil => "NIL_EXT"
  | string => "STRING_EXT"
  | list => "LIST_EXT"
  | binary => "BINARY_EXT"
  | smallBig => "SMALL_BIG_EXT"
  | smallAtom => "SMALL_ATOM_EXT"
  | atomUtf8 => "ATOM_UTF8_EXT"
  | smallAtomUtf8 => "SMALL_ATOM_UTF8_EXT"

/-- The family of the text the tag carries, if it can carry text. A list can, as the list of its
characters, and so can the empty list, as the empty text. -/
def textFamily? : Tag → Option TextFamily
  | atom | smallAtom | atomUtf8 | smallAtomUtf8 => some .atom
  | string | binary | list | nil => some .string
  | smallInteger | integer | smallTuple | largeTuple | smallBig => none

/-- The number of bytes of the length, arity or count after the tag, if there is one. -/
def lengthWidth? : Tag → Option Nat
  | smallTuple | smallAtom | smallAtomUtf8 | smallBig => some 1
  | atom | atomUtf8 | string => some 2
  | largeTuple | list | binary => some 4
  | smallInteger | integer | nil => none

/-- A byte as messages show it: with its name if it is a tag or opens a message. -/
def describe (b : UInt8) : String :=
  match ofByte? b with
  | some t => s!"{t.name} ({b})"
  | none => if b = versionMagic then s!"VERSION_MAGIC ({b})" else s!"unknown tag ({b})"

def unknownMessage (b : UInt8) : String := s!"unknown term tag: {b}"

@[simp] theorem ofByte?_byte (t : Tag) : ofByte? t.byte = some t := by cases t <;> rfl

theorem byte_of_ofByte? {b : UInt8} {t : Tag} (h : ofByte? b = some t) : t.byte = b := by
  have := List.find?_some h
  simpa using this

/-- A byte stands for the tag that is written as this byte. -/
theorem ofByte?_eq_some_iff {b : UInt8} {t : Tag} : ofByte? b = some t ↔ b = t.byte :=
  ⟨fun h => (byte_of_ofByte? h).symm, fun h => h ▸ ofByte?_byte t⟩

end Tag

end ExternalTerm
