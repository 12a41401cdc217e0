import Mbim.Split.Error

/-!
# What goes wrong on a stream

* `FrameError`: a declared length that no message can have here. The start of the next message is
  lost with it.
* `EndError`: the stream ends inside a message.
* `StreamError`: all causes. `StreamError.shouldDisconnect` tells those that end the use of the
  stream from those that concern one message.
* `StreamError.toTransport`: the cause as a failure of the transport.
-/

namespace Mbim

/-- Why a frame cannot be delimited. -/
inductive FrameError where
  /-- The declared length does not cover the header. -/
  | undersized (declared : UInt32) (minimum : Nat)
  /-- The declared length exceeds the transfer size. -/
  | oversized (declared : UInt32) (limit : Nat)
  deriving DecidableEq

/-- The cause in words. -/
def FrameError.message : FrameError → String
  | undersized declared minimum =>
    s!"declared length {declared.toNat} is shorter than the {minimum}-byte header"
  | oversized declared limit =>
    s!"declared length {declared.toNat} exceeds the maximum transfer size {limit}"

/-- Where the stream ends inside a message. -/
inductive EndError where
  /-- In the common header. -/
  | midHeader (received headerSize : Nat)
  /-- Behind the common header. -/
  | midFrame (received expected : Nat)
  deriving DecidableEq

/-- The cause in words. -/
def EndError.message : EndError → String
  | midHeader received size =>
    s!"premature EOF during header: {received} of {size} header bytes"
  | midFrame received expected =>
    s!"premature EOF: {received} bytes of {expected} byte message received"

/-- What goes wrong between messages and a stream of bytes. -/
inductive StreamError where
  /-- The next frame cannot be delimited. -/
  | frame (cause : FrameError)
  /-- A whole frame is not a message. -/
  | malformed (cause : DecodeError)
  /-- A message cannot be written. -/
  | unsplit (cause : SplitError)
  /-- The transport fails. -/
  | transport (text : String)
  /-- The stream ends inside a message. -/
  | ended (cause : EndError)
  deriving DecidableEq

/-- The classes of failures of a transport. -/
inductive TransportKind where
  | invalidData
  | invalidInput
  | unexpectedEof
  | other
  deriving DecidableEq

/-- A failure as the transport reports it. -/
structure TransportError where
  kind : TransportKind
  text : String
  deriving DecidableEq

namespace StreamError

/-- The cause in words. -/
def message : StreamError → String
  | frame cause => s!"framing error: {cause.message}"
  | malformed cause => s!"invalid message: {cause.message}"
  | unsplit cause => s!"cannot fragment message: {cause.message}"
  | transport text => s!"I/O error: {text}"
  | ended cause => s!"EOF: {cause.message}"

/-- The category of the cause. -/
def category : StreamError → String
  | frame _ => "framing"
  | malformed _ => "message"
  | unsplit _ => "fragmentation"
  | transport _ => "io"
  | ended _ => "eof"

/-- Whether the stream is of no use any more. A message that is malformed, or cannot be written,
leaves the next one where it is. -/
def shouldDisconnect : StreamError → Bool
  | malformed _ | unsplit _ => false
  | frame _ | transport _ | ended _ => true

/-- The texts of the causes behind this one, the nearest first. -/
def sources : StreamError → List String
  | frame cause => [cause.message]
  | malformed cause => [cause.message]
  | unsplit cause => [cause.message]
  | transport text => [text]
  | ended cause => [cause.message]

/-- The class of the failure for the transport. -/
def transportKind : StreamError → TransportKind
  | frame _ | malformed _ => .invalidData
  | unsplit _ => .invalidInput
  | transport _ => .other
  | ended _ => .unexpectedEof

/-- The cause as a failure of the transport; one of the transport itself stays as it is. -/
def toTransport (e : StreamError) : TransportError :=
  match e with
  | transport text => ⟨.other, text⟩
  | e => ⟨e.transportKind, e.message⟩

end StreamError

end Mbim
