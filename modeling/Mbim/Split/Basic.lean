import Mbim.Limits
import Mbim.Message.Basic
import Mbim.Split.Error

/-!
# Splitting a message into fragments

A message of a fragment kind that exceeds the limit of one transfer is cut into fragments. Each
carries the headers and the next slice of the payload, as many bytes as the limit leaves.

* `Message.splitWithin` splits by a limit, `Message.split` by any number: zero is a limit too
  small. The answer `none` says that the message fits and goes out whole.
* `slices`: the payload in slices of one size. `Fragment.series`: the slices with their headers.
* `Batch.encode` and `Batch.toMessages`: the fragments on the wire, and as messages.
-/

namespace Mbim

/-- One outbound piece of a message. -/
structure Fragment where
  header : Header
  position : Position
  payload : Bytes
  deriving DecidableEq

namespace Fragment

/-- Bytes of the fragment on the wire. -/
def encodedLength (f : Fragment) : Nat := overhead + f.payload.length

/-- The fragment on the wire. -/
def encode (f : Fragment) : Bytes := f.header.encode ++ f.position.encode ++ f.payload

/-- The fragment as a message of its own. -/
def toMessage (f : Fragment) : Except DecodeError Message :=
  Message.ofParts? f.header f.position f.payload

/-- The slices as fragments of `total`, the first of them numbered `first`, with the kind and
transaction of `h`. -/
def series (h : Header) (total : UInt32) : Nat → List Bytes → Except DecodeError (List Fragment)
  | _, [] => .ok []
  | first, slice :: rest =>
    let size := overhead + slice.length
    if size < wordBound then
      (series h total (first + 1) rest).map fun fragments =>
        ⟨{ h with length := UInt32.ofNat size }, ⟨total, UInt32.ofNat first⟩, slice⟩ :: fragments
    else .error (.tooLarge size)

end Fragment

/-- The first `count` slices of `size` bytes, and the bytes behind them. -/
def slices (size : Nat) : Nat → Bytes → List Bytes × Bytes
  | 0, payload => ([], payload)
  | count + 1, payload =>
    let (rest, left) := slices size count (payload.drop size)
    (payload.take size :: rest, left)

/-- All fragments of one message, in order. -/
abbrev Batch := List Fragment

namespace Batch

/-- The fragments on the wire, one after the other. -/
def encode (batch : Batch) : Bytes := batch.flatMap Fragment.encode

/-- The fragments as messages. -/
def toMessages (batch : Batch) : Except DecodeError (List Message) :=
  batch.mapM Fragment.toMessage

/-- The batch of these fragments: no payload is left, and there is at least one. -/
def ofSeries (fragments : List Fragment) (left : Bytes) : Outcome SplitError Batch :=
  if left ≠ [] then .fault (.payloadLeft left.length)
  else if fragments = [] then .fault .emptyBatch
  else .ok fragments

end Batch

namespace Message

/-- Cut the payload into slices of `capacity` bytes. -/
def cut (h : Header) (payload : Bytes) (capacity : Nat) : Outcome SplitError Batch :=
  let count := (payload.length + (capacity - 1)) / capacity
  if count < wordBound then
    let (parts, left) := slices capacity count payload
    match Fragment.series h (UInt32.ofNat count) 0 parts with
    | .error e => .error (.unreadable e)
    | .ok fragments => Batch.ofSeries fragments left
  else .error (.indexOverflow count)

/-- Split the message into fragments of at most `limit` bytes, or leave it whole. -/
def splitWithin (m : Message) (limit : Limit) : Outcome SplitError (Option Batch) :=
  match m.header with
  | .error e => .error (.unreadable e)
  | .ok h =>
    if h.length.toNat ≤ limit.bytes then .ok none
    else if limit.bytes ≤ overhead then .error (.limitTooSmall limit.bytes overhead)
    else if h.kind.isFragment then do
      let payload ← m.payload.mapError .unreadable
      return some (← cut h payload (limit.bytes - overhead))
    else .error (.notFragmentable h.kind)

/-- Split the message by any number of bytes. -/
def split (m : Message) (limit : Nat) : Outcome SplitError (Option Batch) :=
  match Limit.ofNat? limit with
  | none => .error (.limitTooSmall limit overhead)
  | some limit => m.splitWithin limit

end Message

end Mbim
