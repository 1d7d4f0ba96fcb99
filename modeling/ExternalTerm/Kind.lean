/-!
# Kinds

The things a diagnostic can name: terms, shapes, decoded values and the counted parts of the wire
format. An error carries a `Kind`; its wording is `Kind.name`.
-/

namespace ExternalTerm

/-- What a diagnostic is about. -/
inductive Kind where
  | atom
  | text
  | taggedText
  | integer
  | unsignedInteger
  | bigInteger
  | tuple
  | list
  | record
  | any
  | term
  | binary
  | byteRun
  | recordField
  | endOfRecord
  deriving DecidableEq, Repr, Inhabited

def Kind.name : Kind → String
  | atom => "atom"
  | text => "text"
  | taggedText => "tagged text"
  | integer => "integer"
  | unsignedInteger => "unsigned integer"
  | bigInteger => "big integer"
  | tuple => "tuple"
  | list => "list"
  | record => "record"
  | any => "any"
  | term => "term"
  | binary => "binary"
  | byteRun => "byte run"
  | recordField => "record field"
  | endOfRecord => "end of record"

end ExternalTerm
