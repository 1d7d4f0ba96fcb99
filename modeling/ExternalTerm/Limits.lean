/-!
# Limits

Bounds on what a reader accepts. Lengths come from the sender; the limits keep a hostile length
from forcing a large allocation, and hostile nesting from forcing a deep recursion.
-/

namespace ExternalTerm

structure Limits where
  /-- The longest run of bytes, be it a name, a text or the digits of an integer. -/
  maxPayload : Nat := 64 * 1024 * 1024
  /-- The largest arity of a tuple and count of a list. -/
  maxElements : Nat := 16 * 1024 * 1024
  /-- The deepest nesting of tuples and lists. -/
  maxDepth : Nat := 512
  deriving DecidableEq, Repr

namespace Limits

instance : Inhabited Limits := ⟨{}⟩

/-- The largest length a 64-bit machine can name. -/
def lengthBound : Nat := UInt64.size - 1

def unbounded : Limits := ⟨lengthBound, lengthBound, lengthBound⟩

end Limits

end ExternalTerm
