import Mbim.Outcome
import Mbim.Wire.Position

/-!
# Messages

A message is its bytes. Reading is checked at every step, so any bytes can be wrapped.

* `Message.validate`: the header is there, its kind is known, it declares the length of the bytes,
  the body is long enough for the kind, and a fragment's index is below its total. `Message.parse`
  wraps only such bytes.
* `Message.position` and `Message.payload`: the parts of a fragment. They fault on the kinds that
  have none (`Message.fragmentKind`).
* `Message.openRequest` and the following: messages built from their parts. `Message.ofParts?` is
  the one that all fragments come from; it works the declared length out.
-/

namespace Mbim

/-- A message as it stands on the wire, well-formed or not. -/
structure Message where
  bytes : Bytes
  deriving DecidableEq

namespace Message

/-! ## Reading -/

/-- The common header. -/
def header (m : Message) : Except DecodeError Header := Header.decode m.bytes

/-- What the message is for. -/
def kind (m : Message) : Except DecodeError Kind := m.header.map Header.kind

/-- The length that the header declares. -/
def length (m : Message) : Except DecodeError UInt32 := m.header.map Header.length

/-- The exchange that the message belongs to. -/
def transaction (m : Message) : Except DecodeError UInt32 := m.header.map Header.transaction

/-- Whether the message is of a kind that carries a fragment position. -/
def isFragment (m : Message) : Bool :=
  match m.kind with
  | .ok k => k.isFragment
  | .error _ => false

/-- The cause that names the unknown code of the kind. -/
def unknownKind (m : Message) : DecodeError := .unknownKind ((rawKind? m.bytes).getD 0)

/-- The cause that names the declared and the actual length. -/
def lengthMismatch (m : Message) (h : Header) : DecodeError :=
  .lengthMismatch h.length m.bytes.length

/-- All bytes, if the header declares their number. -/
def raw (m : Message) : Except DecodeError Bytes :=
  match m.header with
  | .error e => .error e
  | .ok h => if h.length.toNat = m.bytes.length then .ok m.bytes else .error (m.lengthMismatch h)

/-- Check the structure of the message. -/
def validate (m : Message) : Except DecodeError Unit :=
  match m.header with
  | .error e => .error e
  | .ok h =>
    match h.kind.minBody? with
    | none => .error m.unknownKind
    | some body =>
      if h.length.toNat ≠ m.bytes.length then .error (m.lengthMismatch h)
      else if m.bytes.length < headerSize + body then
        .error (.truncated (headerSize + body) m.bytes.length)
      else if h.kind.isFragment then (Position.decode m.bytes).map fun _ => ()
      else .ok ()

/-- Wrap bytes that pass `validate`. -/
def parse (b : Bytes) : Except DecodeError Message := (validate ⟨b⟩).map fun _ => ⟨b⟩

/-! ## Fragments -/

/-- The kind of a fragment; a fault for the kinds that have no position. -/
def fragmentKind (m : Message) : Outcome DecodeError Kind :=
  match m.kind with
  | .error e => .error e
  | .ok k => if k.isFragment then .ok k else .fault (.notFragment k)

/-- The place of the fragment in its series. -/
def position (m : Message) : Outcome DecodeError Position := do
  let _ ← m.fragmentKind
  Outcome.ofExcept (Position.decode m.bytes)

/-- The bytes behind the position, up to the declared length. -/
def payload (m : Message) : Outcome DecodeError Bytes := do
  let _ ← m.fragmentKind
  let declared ← Outcome.ofExcept m.length
  let stop := declared.toNat
  if stop < overhead then .error (.payloadUnderflow declared overhead)
  else if m.bytes.length < stop then .error (.truncated stop m.bytes.length)
  else .ok ((m.bytes.take stop).drop overhead)

/-! ## Building -/

/-- A message whose body is one word. -/
def ofWord (kind : Kind) (transaction body : UInt32) : Message :=
  ⟨Header.encode ⟨kind, 16, transaction⟩ ++ wordBytes body⟩

/-- Announce the largest transfer that the host takes. -/
def openRequest (transaction maxControlTransfer : UInt32) : Message :=
  ofWord .openRequest transaction maxControlTransfer

/-- Ask to close the function. -/
def closeRequest (transaction : UInt32) : Message :=
  ⟨Header.encode ⟨.closeRequest, 12, transaction⟩⟩

/-- Answer an open request. -/
def openDone (transaction : UInt32) (status : Status) : Message :=
  ofWord .openDone transaction status.code

/-- Answer a close request. -/
def closeDone (transaction : UInt32) (status : Status) : Message :=
  ofWord .closeDone transaction status.code

/-- Report a protocol error to the function. -/
def hostError (transaction : UInt32) (error : ProtocolError) : Message :=
  ofWord .hostError transaction error.code

/-- Report a protocol error to the host. -/
def functionError (transaction : UInt32) (error : ProtocolError) : Message :=
  ofWord .functionError transaction error.code

/-- A fragment with the kind and transaction of `h`. The length is that of the parts, whatever `h`
declares. -/
def ofParts? (h : Header) (p : Position) (payload : Bytes) : Except DecodeError Message :=
  let size := overhead + payload.length
  if size < wordBound then
    .ok ⟨Header.encode { h with length := UInt32.ofNat size } ++ p.encode ++ payload⟩
  else .error (.tooLarge size)

/-- A message of a fragment kind in one piece. -/
def ofPayload? (kind : Kind) (transaction : UInt32) (payload : Bytes) :
    Except DecodeError Message :=
  if kind.isFragment then ofParts? ⟨kind, 0, transaction⟩ .single payload
  else .error (.notFragment kind)

end Message

end Mbim
