import ExternalTerm.Writer.Error

/-!
# Writing bytes

An action that writes runs on a sink and leaves it as far written as it came, also when it fails.
-/

namespace ExternalTerm

abbrev WriteM := EStateM EncodeError Sink

namespace Writer

def bytes (data : List UInt8) : WriteM Unit := fun s =>
  match s.write data with
  | (none, s) => .ok () s
  | (some failure, s) => .error (.sinkFailed failure) s

end Writer

end ExternalTerm
