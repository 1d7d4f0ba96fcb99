import ExternalTerm.Kind
import ExternalTerm.Width

/-!
# Shapes

A shape is what a receiver expects to find on the wire. The fields of a record are bound to the
elements of a tuple by position; a name, where there is one, only labels the value.
-/

namespace ExternalTerm

/-- Something that may have a name. -/
structure Field (α : Type) where
  name : Option String
  value : α
  deriving DecidableEq, Repr, Inhabited

/-- What a receiver expects. -/
inductive Shape where
  /-- A signed integer. A width of 8 bits is never accepted, since the smallest form of an integer
  already reaches 255. -/
  | integer (width : Width)
  /-- An unsigned integer, which no decoder supports. -/
  | unsigned (width : Width)
  | bigInteger
  /-- A text, in any form that carries text. -/
  | text
  /-- A text and the family of the form it came in. -/
  | taggedText
  /-- A tuple with as many elements as there are fields. -/
  | record (fields : List (Field Shape))
  | list (element : Shape)
  | any
  deriving Inhabited

namespace Shape

def kind : Shape → Kind
  | integer _ => .integer
  | unsigned _ => .unsignedInteger
  | bigInteger => .bigInteger
  | text => .text
  | taggedText => .taggedText
  | record _ => .record
  | list _ => .list
  | any => .any

def arity? : Shape → Option Nat
  | record fields => some fields.length
  | _ => none

end Shape

end ExternalTerm
