import ExternalTerm.Message
import ExternalTerm.Session
import ExternalTerm.Proofs.Utf8
import ExternalTerm.Proofs.Digits
import ExternalTerm.Proofs.Encoding
import ExternalTerm.Proofs.Agreement
import ExternalTerm.Proofs.Memory
import ExternalTerm.Proofs.Composed
import ExternalTerm.Proofs.Compositional
import ExternalTerm.Proofs.Position
import ExternalTerm.Proofs.Reading
import ExternalTerm.Proofs.Forms
import ExternalTerm.Proofs.Shaped
import ExternalTerm.Proofs.Leveled
import ExternalTerm.Proofs.Refusal
import ExternalTerm.Proofs.Conformity
import ExternalTerm.Proofs.RoundTrip
import ExternalTerm.Proofs.Projection
import ExternalTerm.Proofs.Grammar
import ExternalTerm.Proofs.Size
import ExternalTerm.Proofs.Canonical
import ExternalTerm.Proofs.Filling
import ExternalTerm.Proofs.Elements
import ExternalTerm.Proofs.Acceptance
import ExternalTerm.Proofs.Relay
import ExternalTerm.Proofs.Spelling
import ExternalTerm.Proofs.Typed
import ExternalTerm.Proofs.Conversion
import ExternalTerm.Proofs.Views
import ExternalTerm.Proofs.Ending
import ExternalTerm.Proofs.Delivery
import ExternalTerm.Proofs.Alongside
import ExternalTerm.Proofs.Steps
import ExternalTerm.Proofs.Tally
import ExternalTerm.Proofs.Blocks
import ExternalTerm.Proofs.Capped
import ExternalTerm.Proofs.Numeral
import ExternalTerm.Proofs.Overflow
import ExternalTerm.Proofs.Characters
import ExternalTerm.Proofs.Families
import ExternalTerm.Proofs.Magnitude
import ExternalTerm.Proofs.Headers
import ExternalTerm.Proofs.Bounds
import ExternalTerm.Proofs.Classification
