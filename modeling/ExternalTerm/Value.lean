import ExternalTerm.Atom
import ExternalTerm.Shape
import ExternalTerm.TaggedText
import ExternalTerm.Term
import ExternalTerm.Writer.Error

/-!
# Typed values

The values a program works with, each with its own type, and the term that stands for each. A
machine integer outside the 32-bit range and a floating-point number have none; the first such value
inside a larger one is reported, in the order of elements and fields.
-/

namespace ExternalTerm

inductive MachineType where
  | signed (width : Width)
  | unsigned (width : Width)
  deriving DecidableEq, Repr, Inhabited

def MachineType.Holds : MachineType → Int → Prop
  | signed width, n => width.Fits n
  | unsigned width, n => 0 ≤ n ∧ n < 1 <<< width.bits

instance : (type : MachineType) → (n : Int) → Decidable (type.Holds n)
  | .signed width, n => inferInstanceAs (Decidable (width.Fits n))
  | .unsigned _, _ => inferInstanceAs (Decidable (_ ∧ _))

structure MachineInt where
  type : MachineType
  value : Int
  holds : type.Holds value
  deriving DecidableEq

def MachineInt.ofInt? (type : MachineType) (value : Int) : Option MachineInt :=
  if h : type.Holds value then some ⟨type, value, h⟩ else none

inductive Value where
  | machine (n : MachineInt)
  /-- A floating-point number, of which only the precision matters. -/
  | float (precision : Precision)
  | bool (b : Bool)
  | char (c : Char)
  | unit
  | string (s : String)
  | atom (a : Atom)
  | tagged (t : TaggedText)
  | integer (n : Int)
  | term (t : Term)
  | list (elements : List Value)
  /-- A record, or a tuple, whose fields have no names. -/
  | record (fields : List (Field Value))
  /-- A value behind a reference or in a box. -/
  | boxed (v : Value)

/-- The term of a tagged text, of the same family. -/
def TaggedText.toTerm (t : TaggedText) : Term :=
  match t.family with
  | .atom => .atom t.value
  | .string => .text t.value

namespace Value

mutual

/-- The term that stands for a value. -/
def toTerm : Value → Except EncodeError Term
  | .machine n =>
    if Width.w32.Fits n.value then
      .ok (.int (Int32.ofInt n.value))
    else
      .error (.integerOutOfRange n.value)
  | .float precision => .error (.unclassifiable precision)
  | .bool b => .ok (.atom (if b then "true" else "false"))
  | .char c => .ok (.int (Int32.ofNat c.toNat))
  | .unit => .ok (.tuple [])
  | .string s => .ok (.text s)
  | .atom a => .ok (.atom a.name)
  | .tagged t => .ok t.toTerm
  | .integer n => .ok (.ofInteger n)
  | .term t => .ok t
  | .list elements => do
    let ts ← toTerms elements
    return .list ts
  | .record fields => do
    let ts ← fieldTerms fields
    return .tuple ts
  | .boxed v => v.toTerm

def toTerms : List Value → Except EncodeError (List Term)
  | [] => .ok []
  | v :: vs => do
    let t ← v.toTerm
    let ts ← toTerms vs
    return t :: ts

def fieldTerms : List (Field Value) → Except EncodeError (List Term)
  | [] => .ok []
  | ⟨_, v⟩ :: fields => do
    let t ← v.toTerm
    let ts ← fieldTerms fields
    return t :: ts

end

end Value

end ExternalTerm
