import Mbim.Message.Error
import Mbim.Wire.Word

/-!
# The common header

Every message starts with three words: the code of its kind, the length of the whole message, and
the transaction that it belongs to.

* `Header.encode` and `Header.decode`: writing and reading.
* `rawKind?`: the code of the kind as it stands, also when no kind has it.
-/

namespace Mbim

/-- Bytes in the common header. -/
def headerSize : Nat := 12

/-- Where the code of the kind stands. -/
def kindOffset : Nat := 0

/-- Where the length of the message stands. -/
def lengthOffset : Nat := 4

/-- Where the transaction id stands. -/
def transactionOffset : Nat := 8

/-- What stands in front of every message. -/
structure Header where
  /-- What the message is for. -/
  kind : Kind
  /-- Bytes in the whole message, this header included. -/
  length : UInt32
  /-- The exchange that the message belongs to. -/
  transaction : UInt32
  deriving DecidableEq

/-- The code of the kind as it stands in the bytes. -/
def rawKind? (b : Bytes) : Option UInt32 := b.word? kindOffset

namespace Header

/-- The twelve bytes of a header. -/
def encode (h : Header) : Bytes :=
  wordBytes h.kind.code ++ wordBytes h.length ++ wordBytes h.transaction

/-- The header in front of the bytes. -/
def decode (b : Bytes) : Except DecodeError Header :=
  if b.isEmpty then .error .empty
  else
    match rawKind? b, b.word? lengthOffset, b.word? transactionOffset with
    | some code, some length, some transaction => .ok ⟨Kind.ofCode code, length, transaction⟩
    | _, _, _ => .error (.truncated headerSize b.length)

@[simp] theorem length_encode (h : Header) : h.encode.length = headerSize := rfl

end Header

end Mbim
