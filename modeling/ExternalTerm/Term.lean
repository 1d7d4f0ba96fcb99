import ExternalTerm.Kind
import ExternalTerm.Width

/-!
# Terms

The generic value model: what a message can hold. An integer has two forms, `int` within the 32-bit
range and `bigInt` for the others; `ofInteger` chooses, and a `bigInt` within the range is written
as if it were an `int`.
-/

namespace ExternalTerm

inductive Term where
  /-- A name, written as an atom. -/
  | atom (name : String)
  /-- A text, written as a binary. -/
  | text (value : String)
  /-- An integer in the 32-bit range. -/
  | int (value : Int32)
  /-- Any integer, meant for those outside the 32-bit range. -/
  | bigInt (value : Int)
  | tuple (elements : List Term)
  | list (elements : List Term)
  deriving Inhabited

namespace Term

/-- The term of an integer: `int` whenever it is in the 32-bit range. -/
def ofInteger (n : Int) : Term :=
  if Width.w32.Fits n then int (Int32.ofInt n) else bigInt n

def kind : Term → Kind
  | atom _ => .atom
  | text _ => .text
  | int _ => .integer
  | bigInt _ => .bigInteger
  | tuple _ => .tuple
  | list _ => .list

def text? : Term → Option String
  | atom s | text s => some s
  | _ => none

def integer? : Term → Option Int
  | int n => some n.toInt
  | bigInt n => some n
  | _ => none

/-- The value of an integer in the 64-bit range. -/
def int64? (t : Term) : Option Int64 :=
  match t.integer? with
  | some n => if Width.w64.Fits n then some (Int64.ofInt n) else none
  | none => none

def elements? : Term → Option (List Term)
  | tuple ts | list ts => some ts
  | _ => none

/-! ## Equality -/

mutual

/-- The two terms are the same, form of integers included. -/
def beq : Term → Term → Bool
  | atom a, atom b => a == b
  | text a, text b => a == b
  | int a, int b => a == b
  | bigInt a, bigInt b => a == b
  | tuple as, tuple bs => beqAll as bs
  | list as, list bs => beqAll as bs
  | _, _ => false

def beqAll : List Term → List Term → Bool
  | [], [] => true
  | a :: as, b :: bs => beq a b && beqAll as bs
  | _, _ => false

end

mutual

theorem beq_iff_eq : (a b : Term) → (beq a b = true ↔ a = b)
  | atom a, b => by cases b <;> simp [beq]
  | text a, b => by cases b <;> simp [beq]
  | int a, b => by cases b <;> simp [beq]
  | bigInt a, b => by cases b <;> simp [beq]
  | tuple as, b => by cases b <;> simp [beq, beqAll_iff_eq as]
  | list as, b => by cases b <;> simp [beq, beqAll_iff_eq as]

theorem beqAll_iff_eq : (as bs : List Term) → (beqAll as bs = true ↔ as = bs)
  | [], bs => by cases bs <;> simp [beqAll]
  | a :: as, bs => by cases bs <;> simp [beqAll, beq_iff_eq a, beqAll_iff_eq as]

end

instance : DecidableEq Term := fun a b => decidable_of_iff _ (beq_iff_eq a b)

end Term

end ExternalTerm
