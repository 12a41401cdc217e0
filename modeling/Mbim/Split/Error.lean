import Mbim.Message.Error

/-!
# Why a message cannot be split

* `SplitError`: the causes; `SplitError.message`: the text of one. A cause that lies in the message
  reads as its own text.
-/

namespace Mbim

/-- Why a message cannot be split into fragments. -/
inductive SplitError where
  /-- The limit leaves no room for a payload behind the headers. -/
  | limitTooSmall (limit overhead : Nat)
  /-- The message exceeds the limit and is of a kind that is never split. -/
  | notFragmentable (kind : Kind)
  /-- There would be more fragments than a position can count. -/
  | indexOverflow (count : Nat)
  /-- The message cannot be read. -/
  | unreadable (cause : DecodeError)
  deriving DecidableEq

/-- The cause in words. -/
def SplitError.message : SplitError → String
  | limitTooSmall limit overhead =>
    s!"maximum fragment size {limit} cannot carry the {overhead}-byte fragment headers"
  | notFragmentable kind =>
    s!"{kind.name} message exceeds the maximum fragment size and cannot be fragmented"
  | indexOverflow count => s!"fragment count {count} overflows the 32-bit fragment header"
  | unreadable cause => cause.message

end Mbim
