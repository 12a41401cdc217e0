import Mbim.Journal.Report
import Mbim.Limits
import Mbim.Message.Basic
import Mbim.Split.Basic

/-!
# Messages on a stream of bytes

Messages follow each other on a stream without anything between them: the header says where the
next one starts.

* `Codec.decode` takes one message off the front of the bytes received. It waits (`none`) until the
  message is whole, but refuses a declared length as soon as it can be read.
* `Codec.decodeEnd` does the same at the end of the stream, where nothing can be waited for.
* `Codec.encode` appends a message to the bytes to send, in fragments if it exceeds the limit of
  one transfer, or appends nothing. `Codec.encodeAll` does so for many messages.

The state of a step is the bytes: those received and not yet taken, or those to send.
-/

namespace Mbim

/-- Reads and writes messages under the limit of one transfer. -/
structure Codec where
  limit : Limit
  deriving DecidableEq

namespace Codec

/-- The codec for the limits of a link. -/
def ofConfig (c : Config) : Codec := ⟨c.maxTransfer⟩

/-! ## Decoding -/

/-- The length that the header in front of the bytes declares, once the header is whole. -/
def declaredLength (c : Codec) (b : Bytes) : Except FrameError (Option Nat) :=
  if b.length < headerSize then .ok none
  else
    match b.word? lengthOffset with
    | none => .ok none
    | some declared =>
      if declared.toNat < headerSize then .error (.undersized declared headerSize)
      else if c.limit.bytes < declared.toNat then .error (.oversized declared c.limit.bytes)
      else .ok (some declared.toNat)

/-- Take a frame of `length` bytes off the front and read it. -/
def takeFrame (length : Nat) (b : Bytes) :
    Step Bytes (Outcome StreamError (Option Message)) :=
  if length ≤ b.length then
    match Message.parse (b.take length) with
    | .ok m => ⟨.ok (some m), b.drop length, ∅⟩
    | .error e => ⟨.error (.malformed e), b.drop length, .told (.messageRejected e)⟩
  else ⟨.fault (.beyondEnd length b.length), b, ∅⟩

/-- Take the next message off the bytes received, or wait for more of them. -/
def decode (c : Codec) (b : Bytes) : Step Bytes (Outcome StreamError (Option Message)) :=
  match c.declaredLength b with
  | .error e => ⟨.error (.frame e), b, .told (.frameRejected e)⟩
  | .ok none => ⟨.ok none, b, ∅⟩
  | .ok (some length) => if b.length < length then ⟨.ok none, b, ∅⟩ else takeFrame length b

/-- Where the stream breaks off. -/
def endError (b : Bytes) : EndError :=
  match b.word? lengthOffset with
  | some declared =>
    if headerSize ≤ b.length then .midFrame b.length declared.toNat
    else .midHeader b.length headerSize
  | none => .midHeader b.length headerSize

/-- Take the next message off the bytes received when no more of them come. -/
def decodeEnd (c : Codec) (b : Bytes) : Step Bytes (Outcome StreamError (Option Message)) :=
  if b.isEmpty then ⟨.ok none, b, ∅⟩
  else
    let step := c.decode b
    match step.result with
    | .ok none => { step with result := .error (.ended (endError step.next)) }
    | _ => step

/-! ## Encoding -/

/-- What writing a message in fragments reports. -/
def written (m : Message) (batch : Batch) (limit : Limit) : Report :=
  let transaction :=
    match m.transaction with
    | .ok t => t
    | .error _ => 0
  ⟨[.fragmentsWritten transaction batch.length limit.bytes],
    Counts.single .outbound batch.length⟩

/-- Append a message to the bytes to send. -/
def encode (c : Codec) (m : Message) (b : Bytes) : Step Bytes (Outcome StreamError Unit) :=
  match m.validate with
  | .error e => ⟨.error (.unsplit (.unreadable e)), b, .told (.writeRefused e)⟩
  | .ok () =>
    match m.splitWithin c.limit with
    | .error e => ⟨.error (.unsplit e), b, ∅⟩
    | .fault f => ⟨.fault f, b, ∅⟩
    | .ok none =>
      match m.raw with
      | .error e => ⟨.error (.malformed e), b, ∅⟩
      | .ok raw => ⟨.ok (), b ++ raw, ∅⟩
    | .ok (some batch) => ⟨.ok (), b ++ batch.encode, written m batch c.limit⟩

/-- Append messages in order: how each of them went, and what was written of all. -/
def encodeAll (c : Codec) : List Message → Bytes → Step Bytes (List (Outcome StreamError Unit))
  | [], b => ⟨[], b, ∅⟩
  | m :: ms, b =>
    let first := c.encode m b
    let later := c.encodeAll ms first.next
    ⟨first.result :: later.result, later.next, first.report ++ later.report⟩

end Codec

end Mbim
