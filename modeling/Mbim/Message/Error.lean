import Mbim.Code.Kind
import Mbim.Code.ProtocolError
import Mbim.Code.Status
import Mbim.Text.Numeral

/-!
# Why a message cannot be read

* `DecodeError`: the causes, of malformed bytes, of asking the wrong kind, and those that a peer
  reports in a well-formed message (`status`, `protocol`).
* `DecodeError.message`: the text of a cause.
* `DecodeError.reply?`: the protocol error to answer the peer with; a failure that the peer itself
  reports has none.
-/

namespace Mbim

/-- Why a message cannot be read, or is not what the reader asks for. -/
inductive DecodeError where
  /-- There are no bytes. -/
  | empty
  /-- There are bytes, but fewer than needed. -/
  | truncated (needed actual : Nat)
  /-- The header declares another length than that of the bytes. -/
  | lengthMismatch (declared : UInt32) (actual : Nat)
  /-- The declared length does not cover the headers of a fragment. -/
  | payloadUnderflow (declared : UInt32) (minimum : Nat)
  /-- The length does not fit the length field. -/
  | tooLarge (length : Nat)
  /-- The code of the kind is not in the table. -/
  | unknownKind (code : UInt32)
  /-- The question belongs to another kind. -/
  | wrongKind (expected found : Kind)
  /-- The kind carries no fragment position. -/
  | notFragment (kind : Kind)
  /-- The index of the fragment is not below the number of fragments. -/
  | badPosition (current total : UInt32)
  /-- The peer answers with a status other than success. -/
  | status (status : Status)
  /-- The peer reports a protocol error. -/
  | protocol (error : ProtocolError)
  deriving DecidableEq

namespace DecodeError

/-- The cause in words. -/
def message : DecodeError → String
  | empty => "message is empty"
  | truncated needed actual => s!"message truncated: need {needed} bytes, have {actual}"
  | lengthMismatch declared actual =>
    s!"message length mismatch: header declares {declared.toNat} bytes, buffer holds {actual}"
  | payloadUnderflow declared minimum =>
    s!"fragment payload underflow: declared length {declared.toNat} is below {minimum}"
  | tooLarge length => s!"message too large: {length} bytes exceed the 32-bit length field"
  | unknownKind code => s!"unknown message type 0x{hex8 code}"
  | wrongKind expected found =>
    s!"unexpected message type: expected {expected.name}, found {found.name}"
  | notFragment kind => s!"{kind.name} messages do not carry a fragment header"
  | badPosition current total =>
    s!"invalid fragment header: current {current.toNat}, total {total.toNat}"
  | status s => s.name
  | protocol e => s!"MBIM protocol error: {e.name}"

/-- The protocol error to answer with, unless the peer itself reports the failure. -/
def reply? : DecodeError → Option ProtocolError
  | empty | truncated .. | lengthMismatch .. | payloadUnderflow .. | tooLarge _ =>
    some .lengthMismatch
  | unknownKind _ | wrongKind .. | notFragment _ | badPosition .. => some .unknown
  | status _ | protocol _ => none

end DecodeError

end Mbim
