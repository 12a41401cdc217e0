import Mbim.Wire.Header

/-!
# Fragment positions

The body of a fragment kind starts with two words: into how many fragments the message was split,
and which of them this one is.

* `Position.encode` and `Position.decode`: writing and reading; reading refuses an index that is
  not below the number of fragments.
* `Position.isLast`: no fragment follows.
-/

namespace Mbim

/-- Bytes in a position. -/
def positionSize : Nat := 8

/-- Bytes in front of a fragment's payload. -/
def overhead : Nat := headerSize + positionSize

/-- Where the number of fragments stands. -/
def totalOffset : Nat := 12

/-- Where the index of the fragment stands. -/
def currentOffset : Nat := 16

/-- The place of a fragment in its series. -/
structure Position where
  /-- Fragments in the series. -/
  total : UInt32
  /-- Fragments before this one. -/
  current : UInt32
  deriving DecidableEq

namespace Position

/-- The position in a series of one. -/
def single : Position := ⟨1, 0⟩

/-- Whether no fragment follows. -/
def isLast (p : Position) : Bool := p.total != 0 && p.current == p.total - 1

/-- The eight bytes of a position. -/
def encode (p : Position) : Bytes := wordBytes p.total ++ wordBytes p.current

/-- The position behind the common header of a message with these bytes. -/
def decode (b : Bytes) : Except DecodeError Position :=
  match b.word? totalOffset, b.word? currentOffset with
  | some total, some current =>
    if current < total then .ok ⟨total, current⟩ else .error (.badPosition current total)
  | _, _ => .error (.truncated overhead b.length)

/-- The position as `current/total`. -/
def text (p : Position) : String := s!"{p.current.toNat}/{p.total.toNat}"

@[simp] theorem length_encode (p : Position) : p.encode.length = positionSize := rfl

end Position

end Mbim
