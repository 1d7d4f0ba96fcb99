import ExternalTerm.Kind
import ExternalTerm.Tag
import ExternalTerm.Utf8
import ExternalTerm.Width

/-!
# Decoding errors

Why a message, or the source it comes from, cannot be decoded, and the wording of each reason.
-/

namespace ExternalTerm

inductive DecodeError where
  /-- The message does not open with `versionMagic`. -/
  | version (found : UInt8)
  /-- The tag does not begin what was expected. -/
  | unexpectedTag (tag : UInt8) (expected : Kind)
  /-- A record has another number of fields than the tuple has elements. -/
  | arityMismatch (expected actual : Nat)
  /-- The data ended early. -/
  | truncated (expected actual : Nat)
  /-- An integer of this width is never accepted. -/
  | range (width : Width)
  | overflow (value : Int) (width : Width)
  /-- The data ended within the digits of an integer. -/
  | bigIntegerLength (expected actual : Nat)
  /-- The sign byte is neither 0 nor 1. -/
  | bigIntegerSign (sign : UInt8)
  /-- Another byte than `nil`, or none, stands at the end of a list. -/
  | missingNil (found : Option UInt8)
  | invalidUtf8 (defect : Utf8.Defect)
  /-- The element of a list of characters is no character. -/
  | invalidCodePoint (code : Int)
  /-- No decoder supports such a target. -/
  | unhandledTarget (target : Kind)
  /-- A typed target got a value of another kind than its own. -/
  | shapeMismatch (expected found : Kind)
  | limitExceeded (what : Kind) (length limit : Nat)
  | depthExceeded (limit : Nat)
  | sourceFailed
  deriving DecidableEq, Repr, Inhabited

namespace DecodeError

def message : DecodeError → String
  | version found => s!"incorrect Erlang term version tag: {found}"
  | unexpectedTag tag expected => s!"unexpected {Tag.describe tag} while decoding {expected.name}"
  | arityMismatch expected actual =>
    s!"tuple has {actual} elements but the target declares {expected} fields"
  | truncated expected actual => s!"truncated data: needed {expected} bytes, got {actual}"
  | range width => s!"value out of range: {width.name} integer targets cannot hold BERT integers"
  | overflow value width => s!"integer {value} does not fit in a {width.name} target"
  | bigIntegerLength expected actual =>
    s!"parse big integer error: expected {expected} magnitude bytes, got {actual}"
  | bigIntegerSign sign => s!"invalid big integer sign byte: {sign}"
  | missingNil (some found) => s!"could not find nil: {Tag.describe found}"
  | missingNil none => "could not find nil: end of data"
  | invalidUtf8 defect => s!"text is not valid UTF-8: {defect.message}"
  | invalidCodePoint code => s!"charlist element {code} is not a Unicode scalar value"
  | unhandledTarget target => s!"unhandled decoding target: {target.name}"
  | shapeMismatch expected found =>
    s!"target expected {expected.name} but the decoder produced {found.name}"
  | limitExceeded what length limit =>
    s!"{what.name} length {length} exceeds the configured limit of {limit}"
  | depthExceeded limit => s!"term nesting exceeds the configured depth limit of {limit}"
  | sourceFailed => "read failed: reset"

/-- The error reports that a run of bytes ended early. -/
def isTruncation : DecodeError → Bool
  | truncated .. | bigIntegerLength .. => true
  | _ => false

end DecodeError

end ExternalTerm
