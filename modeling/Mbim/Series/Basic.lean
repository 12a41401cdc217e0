import Mbim.Message.Basic
import Mbim.Series.Error

/-!
# Series of fragments

A series gathers the fragments of one message. Its bytes are those of one fragment that carries all
payloads so far and the position of the fragment taken last.

* `Series.ofFirst`: the series that a fragment with index zero starts.
* `Series.add`: take the next fragment, the one whose index follows. A fragment that is refused
  changes nothing.
* `Series.isComplete`: as many fragments as the first one announced are there.
* `Series.finish`: the message of a complete series, which reads as one fragment of one.
-/

namespace Mbim

/-- The fragments of one message taken so far. -/
structure Series where
  /-- The headers and all payloads taken. -/
  bytes : Bytes
  /-- The kind of the first fragment. -/
  kind : Kind
  /-- The number of fragments that the first one announced. -/
  total : UInt32
  /-- The index of the fragment taken last. -/
  current : UInt32
  deriving DecidableEq

/-- A series after a step: fragments are missing, or the message is there. -/
inductive Progress where
  | pending (series : Series)
  | complete (message : Message)
  deriving DecidableEq

/-- The index that follows, if there is one. -/
def next? (index : UInt32) : Option UInt32 :=
  if index.toNat + 1 < wordBound then some (index + 1) else none

namespace Series

variable {ε : Type}

/-- The first `n` bytes of a fragment. -/
def first (n : Nat) (b : Bytes) : Outcome ε Bytes :=
  if n ≤ b.length then .ok (b.take n) else .fault (.beyondEnd n b.length)

/-- Overwrite a field of the headers. -/
def setField (o : Nat) (w : UInt32) (b : Bytes) : Outcome ε Bytes :=
  match b.setWord? o w with
  | some b => .ok b
  | none => .fault .shortSeries

/-- The series that starts with this fragment, without what lies beyond its declared length. -/
def ofFirst (m : Message) : Outcome SeriesError Series := do
  let found ← m.position.mapError .malformed
  if found.current ≠ 0 then .error (.outOfSequence ⟨found.total, 0⟩ found)
  else
    let kind ← (Outcome.ofExcept m.kind).mapError .malformed
    let payload ← m.payload.mapError .malformed
    let bytes ← first (overhead + payload.length) m.bytes
    return ⟨bytes, kind, found.total, 0⟩

/-- Whether the number of fragments that the first one announced is reached. -/
def isComplete (s : Series) : Bool := next? s.current == some s.total

/-- Append a payload and renew the length and the index in the headers. -/
def append (s : Series) (payload : Bytes) (current : UInt32) : Outcome SeriesError Series :=
  let size := s.bytes.length + payload.length
  if size < wordBound then do
    let bytes ← setField lengthOffset (UInt32.ofNat size) (s.bytes ++ payload)
    let bytes ← setField currentOffset current bytes
    return { s with bytes := bytes, current := current }
  else .error (.malformed (.tooLarge size))

/-- Take the next fragment. -/
def add (s : Series) (m : Message) : Outcome SeriesError Series := do
  let found ← m.position.mapError .malformed
  let kind ← (Outcome.ofExcept m.kind).mapError .malformed
  if kind ≠ s.kind then .error (.wrongKind s.kind kind)
  else if s.isComplete then .error .complete
  else
    match next? s.current with
    | none => .fault .indexOverflow
    | some expected =>
      if found.current ≠ expected then .error (.outOfSequence ⟨s.total, expected⟩ found)
      else
        let payload ← m.payload.mapError .malformed
        s.append payload found.current

/-- The message, if the series is complete. -/
def finish (s : Series) : Outcome ε Progress :=
  if s.isComplete then do
    let bytes ← setField currentOffset 0 s.bytes
    let bytes ← setField totalOffset 1 bytes
    return .complete ⟨bytes⟩
  else .ok (.pending s)

/-- The series, or the message, that this fragment starts. -/
def start (m : Message) : Outcome SeriesError Progress := do
  (← ofFirst m).finish

/-- Take the next fragment, and finish if it was the last. -/
def push (s : Series) (m : Message) : Outcome SeriesError Progress := do
  (← s.add m).finish

end Series

end Mbim
