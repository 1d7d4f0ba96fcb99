import ExternalTerm.Shape
import ExternalTerm.TaggedText
import ExternalTerm.Term

/-!
# Decoded values

What decoding against a shape produces: one form of value for each form of shape.
-/

namespace ExternalTerm

inductive Decoded where
  | integer (value : Int64)
  | bigInteger (value : Int)
  | text (value : String)
  | tagged (value : TaggedText)
  /-- The fields in the order of the shape. -/
  | record (fields : List (Field Decoded))
  | list (elements : List Decoded)
  | term (value : Term)
  deriving Inhabited

namespace Decoded

def kind : Decoded → Kind
  | integer _ => .integer
  | bigInteger _ => .bigInteger
  | text _ => .text
  | tagged _ => .taggedText
  | record _ => .record
  | list _ => .list
  | term _ => .term

def integer? : Decoded → Option Int64
  | integer n => some n
  | _ => none

def text? : Decoded → Option String
  | text s => some s
  | tagged t => some t.value
  | _ => none

def fields? : Decoded → Option (List (Field Decoded))
  | record fields => some fields
  | _ => none

/-- The value of the first field of this name. -/
def field? (d : Decoded) (name : String) : Option Decoded := do
  let fields ← d.fields?
  let field ← fields.find? fun f => f.name == some name
  return field.value

/-! ## Equality -/

mutual

def beq : Decoded → Decoded → Bool
  | integer a, integer b => a == b
  | bigInteger a, bigInteger b => a == b
  | text a, text b => a == b
  | tagged a, tagged b => a == b
  | record as, record bs => beqFields as bs
  | list as, list bs => beqAll as bs
  | term a, term b => a == b
  | _, _ => false

def beqFields : List (Field Decoded) → List (Field Decoded) → Bool
  | [], [] => true
  | ⟨name, a⟩ :: as, ⟨name', b⟩ :: bs => name == name' && beq a b && beqFields as bs
  | _, _ => false

def beqAll : List Decoded → List Decoded → Bool
  | [], [] => true
  | a :: as, b :: bs => beq a b && beqAll as bs
  | _, _ => false

end

mutual

theorem beq_iff_eq : (a b : Decoded) → (beq a b = true ↔ a = b)
  | integer a, b => by cases b <;> simp [beq]
  | bigInteger a, b => by cases b <;> simp [beq]
  | text a, b => by cases b <;> simp [beq]
  | tagged a, b => by cases b <;> simp [beq]
  | record as, b => by cases b <;> simp [beq, beqFields_iff_eq as]
  | list as, b => by cases b <;> simp [beq, beqAll_iff_eq as]
  | term a, b => by cases b <;> simp [beq]

theorem beqFields_iff_eq : (as bs : List (Field Decoded)) → (beqFields as bs = true ↔ as = bs)
  | [], bs => by cases bs <;> simp [beqFields]
  | ⟨name, a⟩ :: as, [] => by simp [beqFields]
  | ⟨name, a⟩ :: as, ⟨name', b⟩ :: bs => by
    simp [beqFields, beq_iff_eq a b, beqFields_iff_eq as bs]

theorem beqAll_iff_eq : (as bs : List Decoded) → (beqAll as bs = true ↔ as = bs)
  | [], bs => by cases bs <;> simp [beqAll]
  | a :: as, bs => by cases bs <;> simp [beqAll, beq_iff_eq a, beqAll_iff_eq as]

end

instance : DecidableEq Decoded := fun a b => decidable_of_iff _ (beq_iff_eq a b)

end Decoded

end ExternalTerm
