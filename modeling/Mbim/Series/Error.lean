import Mbim.Message.Error
import Mbim.Wire.Position

/-!
# Why a fragment does not continue a series

* `SeriesError`: the causes; `SeriesError.message`: the text of one; `SeriesError.reply`: the
  protocol error to answer with.
-/

namespace Mbim

/-- Why a fragment neither starts nor continues a series. -/
inductive SeriesError where
  /-- Another fragment is due. -/
  | outOfSequence (expected found : Position)
  /-- The series is of another kind. -/
  | wrongKind (expected found : Kind)
  /-- No fragment is missing. -/
  | complete
  /-- The fragment cannot be read. -/
  | malformed (cause : DecodeError)
  deriving DecidableEq

namespace SeriesError

/-- The cause in words. -/
def message : SeriesError → String
  | outOfSequence expected found =>
    s!"expecting fragment '{expected.text}', got '{found.text}'"
  | wrongKind expected found => s!"expecting a {expected.name} fragment, got {found.name}"
  | complete => "fragment series already complete"
  | malformed cause => s!"malformed fragment: {cause.message}"

/-- The protocol error to answer with. -/
def reply : SeriesError → ProtocolError
  | outOfSequence .. | wrongKind .. | complete => .fragmentOutOfSequence
  | malformed _ => .lengthMismatch

/-- The texts of the causes behind this one, the nearest first. -/
def sources : SeriesError → List String
  | malformed cause => [cause.message]
  | _ => []

end SeriesError

end Mbim
