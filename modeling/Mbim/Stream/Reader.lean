import Mbim.Stream.Codec

/-!
# Reading a whole stream

The bytes of a stream arrive in chunks that follow no rule. After each chunk the reader takes off
all messages that are whole, and at the end of the stream it also looks at what is left.

* `Codec.drain`: take messages until none is whole or the stream is of no use. Every result but
  the last takes bytes off (`Codec.length_next_lt`), so this ends.
* `Reader.feed` and `Reader.finish`: what one more chunk, and the end of the stream, bring.
* `Reader.readAll`: the same for all chunks of a stream.
-/

namespace Mbim

/-- What reading brings: a message, or why there is none. -/
structure Arrival where
  result : Outcome StreamError Message
  report : Report
  deriving DecidableEq

/-- What reading brings until it has to wait or to stop. -/
structure Drained where
  arrivals : List Arrival
  /-- The bytes not taken. -/
  rest : Bytes
  /-- Whether the stream is of no use any more. -/
  stopped : Bool
  deriving DecidableEq

/-- One arrival more in front. -/
def Drained.cons (a : Arrival) (d : Drained) : Drained := { d with arrivals := a :: d.arrivals }

namespace Codec

/-- Take the next message off, knowing whether the stream has ended. -/
def read (c : Codec) (ended : Bool) (b : Bytes) :
    Step Bytes (Outcome StreamError (Option Message)) :=
  if ended then c.decodeEnd b else c.decode b

/-- Whether reading goes on after this result. -/
def goesOn : Outcome StreamError (Option Message) → Bool
  | .ok (some _) => true
  | .ok none => false
  | .error e => !e.shouldDisconnect
  | .fault _ => false

/-- A length that passes the codec covers the header. -/
theorem headerSize_le_of_declaredLength {c : Codec} {b : Bytes} {n : Nat}
    (h : c.declaredLength b = .ok (some n)) : headerSize ≤ n := by
  unfold declaredLength at h
  split at h
  · cases h
  · split at h
    · cases h
    · split at h
      · cases h
      · split at h
        · cases h
        · cases h
          omega

private theorem length_takeFrame_lt {n : Nat} {b : Bytes} (hn : headerSize ≤ n)
    (h : goesOn (takeFrame n b).result) : (takeFrame n b).next.length < b.length := by
  unfold takeFrame at h ⊢
  unfold headerSize at hn
  split
  case isTrue hle => split <;> simp only [List.length_drop] <;> omega
  case isFalse hgt => simp [hgt, goesOn] at h

private theorem length_decode_lt {c : Codec} {b : Bytes} (h : goesOn (c.decode b).result) :
    (c.decode b).next.length < b.length := by
  unfold decode at h ⊢
  split at h
  · simp [goesOn, StreamError.shouldDisconnect] at h
  · simp [goesOn] at h
  · rename_i n hn
    split at h
    · simp [goesOn] at h
    · rename_i hlt
      simp only [hlt, ↓reduceIte]
      exact length_takeFrame_lt (headerSize_le_of_declaredLength hn) h

/-- Every result after which reading goes on takes bytes off. -/
theorem length_next_lt {c : Codec} {ended : Bool} {b : Bytes}
    (h : goesOn (c.read ended b).result) : (c.read ended b).next.length < b.length := by
  unfold read at h ⊢
  split at h
  case isFalse he => simpa [he] using length_decode_lt h
  case isTrue he =>
    simp only [he, ↓reduceIte]
    unfold decodeEnd at h ⊢
    split at h
    · simp [goesOn] at h
    · rename_i hb
      simp only [hb, Bool.false_eq_true, ↓reduceIte] at h ⊢
      split at h
      · simp [goesOn, StreamError.shouldDisconnect] at h
      · exact length_decode_lt h

/-- Take messages off until none is whole, or the stream is of no use. -/
def drain (c : Codec) (ended : Bool) (b : Bytes) : Drained :=
  let step := c.read ended b
  match h : step.result with
  | .ok none => ⟨[], step.next, false⟩
  | .ok (some m) =>
    have : step.next.length < b.length := length_next_lt (congrArg goesOn h)
    (c.drain ended step.next).cons ⟨.ok m, step.report⟩
  | .error e =>
    if hd : e.shouldDisconnect then ⟨[⟨.error e, step.report⟩], step.next, true⟩
    else
      have : step.next.length < b.length :=
        length_next_lt ((congrArg goesOn h).trans (by simpa [goesOn] using hd))
      (c.drain ended step.next).cons ⟨.error e, step.report⟩
  | .fault f => ⟨[⟨.fault f, step.report⟩], step.next, true⟩
termination_by b.length

end Codec

/-- A stream of which some bytes have arrived. -/
structure Reader where
  codec : Codec
  /-- The bytes that have arrived and are not taken. -/
  buffer : Bytes
  /-- Whether the stream is of no use any more. -/
  stopped : Bool
  deriving DecidableEq

namespace Reader

/-- A stream of which nothing has arrived. -/
def new (c : Codec) : Reader := ⟨c, [], false⟩

/-- Take off what can be taken. -/
def advance (r : Reader) (ended : Bool) : List Arrival × Reader :=
  if r.stopped then ([], r)
  else
    let d := r.codec.drain ended r.buffer
    (d.arrivals, ⟨r.codec, d.rest, d.stopped⟩)

/-- One more chunk arrives. -/
def feed (r : Reader) (chunk : Bytes) : List Arrival × Reader :=
  { r with buffer := r.buffer ++ chunk }.advance false

/-- The stream ends. -/
def finish (r : Reader) : List Arrival × Reader := r.advance true

/-- All chunks arrive, and the stream ends. -/
def readAll (r : Reader) : List Bytes → List Arrival × Reader
  | [] => r.finish
  | chunk :: chunks =>
    let (now, r) := r.feed chunk
    let (later, r) := r.readAll chunks
    (now ++ later, r)

end Reader

end Mbim
