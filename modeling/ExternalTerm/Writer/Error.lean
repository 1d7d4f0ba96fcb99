import ExternalTerm.Kind
import ExternalTerm.Sink

/-!
# Encoding errors

Why a value cannot be encoded, or the sink does not take it, and the wording of each reason.
-/

namespace ExternalTerm

inductive Precision where
  | single
  | double
  deriving DecidableEq, Repr, Inhabited

/-- The usual name of the type of such numbers. -/
def Precision.name : Precision → String
  | single => "f32"
  | double => "f64"

inductive EncodeError where
  /-- No term stands for a floating-point number. -/
  | unclassifiable (precision : Precision)
  /-- A machine integer outside the 32-bit range. -/
  | integerOutOfRange (value : Int)
  | atomTooLong (length : Nat)
  /-- A length that four bytes cannot express. -/
  | lengthOverflow (what : Kind) (length : Nat)
  /-- An integer with more digits than one byte can count. -/
  | bigIntegerTooLarge (digits : Nat)
  | sinkFailed (failure : Sink.Failure)
  deriving DecidableEq, Repr, Inhabited

def EncodeError.message : EncodeError → String
  | unclassifiable precision => s!"unhandled type: {precision.name}"
  | integerOutOfRange value => s!"integer {value} is outside the 32-bit signed range"
  | atomTooLong length => s!"atom is {length} bytes long, the limit is 65535"
  | lengthOverflow what length => s!"{what.name} length {length} does not fit in a 4-byte prefix"
  | bigIntegerTooLarge digits => s!"big integer magnitude needs {digits} bytes, the limit is 255"
  | sinkFailed failure => s!"write failed: {failure.message}"

end ExternalTerm
