import Mbim.Limits
import Mbim.Series.Error

/-!
# Why a push fails

* `PushError`: the causes; `PushError.message`: the text of one. A cause that lies in the fragment
  reads as its own text.
-/

namespace Mbim

/-- Why a message does not pass the reassembler. -/
inductive PushError where
  /-- The fragment neither starts nor continues a series. -/
  | fragment (cause : SeriesError)
  /-- The series exceeds the size cap. -/
  | tooLarge (transaction : UInt32) (attempted : Nat) (limit : Limit)
  deriving DecidableEq

namespace PushError

/-- The cause in words. -/
def message : PushError → String
  | fragment cause => cause.message
  | tooLarge transaction attempted limit =>
    s!"reassembled message for transaction {transaction.toNat} too large: {attempted} bytes " ++
      s!"(limit {limit.bytes})"

/-- The texts of the causes behind this one, the nearest first. -/
def sources : PushError → List String
  | fragment cause => cause.sources
  | tooLarge .. => []

end PushError

end Mbim
