/-!
# Atoms

A name that is to be written as an atom rather than as a binary.
-/

namespace ExternalTerm

structure Atom where
  name : String
  deriving DecidableEq, Repr, Inhabited

namespace Atom

instance : ToString Atom := ⟨name⟩

/-- Atoms are ordered as their names are, by the code points, which is also the order of the names'
UTF-8 bytes. -/
instance : Ord Atom := ⟨fun a b => compare a.name b.name⟩

def sort (atoms : List Atom) : List Atom := atoms.mergeSort fun a b => (compare a b).isLE

end Atom

end ExternalTerm
