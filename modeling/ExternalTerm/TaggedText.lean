/-!
# Tagged text

The wire carries text in two families, atoms and strings. `TaggedText` is a text that remembers
which of the two it is; plain text forgets it.
-/

namespace ExternalTerm

inductive TextFamily where
  | atom
  | string
  deriving DecidableEq, Repr, Inhabited

structure TaggedText where
  value : String
  family : TextFamily
  deriving DecidableEq, Repr, Inhabited

namespace TaggedText

def isAtom (t : TaggedText) : Bool := t.family == .atom

instance : ToString TaggedText := ⟨value⟩

end TaggedText

end ExternalTerm
