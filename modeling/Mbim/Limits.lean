import Mbim.Wire.Position

/-!
# Limits

* `Limit`: a size in bytes that is not zero.
* `Config`: the limits of one link. `Config.forTransfer?` derives them from the largest transfer
  that the two ends agreed on, if messages up to the size cap can pass through it.
* `Config.payloadCapacity`: the payload bytes that one fragment can carry.
-/

namespace Mbim

/-- A size in bytes, never zero. -/
structure Limit where
  bytes : Nat
  pos : 0 < bytes
  deriving DecidableEq

/-- A limit of `n` bytes, unless `n` is zero. -/
def Limit.ofNat? (n : Nat) : Option Limit := if h : 0 < n then some ⟨n, h⟩ else none

/-- The limits of one link. -/
structure Config where
  /-- The largest message or fragment sent or received in one piece. -/
  maxTransfer : Limit
  /-- The largest message put together from fragments. -/
  maxMessage : Limit
  /-- Milliseconds that an incomplete message is kept. -/
  timeout : Nat
  deriving DecidableEq

namespace Config

/-- 4 KiB transfers, messages up to 64 KiB, five seconds. -/
def standard : Config := ⟨⟨4096, by decide⟩, ⟨65536, by decide⟩, 5000⟩

/-- The limits for the agreed transfer size: it has to carry a payload, and a whole transfer has to
be within the size cap. -/
def forTransfer? (transfer : Nat) (maxMessage : Limit) (timeout : Nat) : Option Config :=
  if transfer ≤ overhead ∨ maxMessage.bytes < transfer then none
  else (Limit.ofNat? transfer).map fun maxTransfer => ⟨maxTransfer, maxMessage, timeout⟩

/-- The payload bytes that one fragment can carry. -/
def payloadCapacity (c : Config) : Nat := c.maxTransfer.bytes - overhead

end Config

end Mbim
