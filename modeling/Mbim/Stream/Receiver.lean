import Mbim.Reassembler.Basic
import Mbim.Stream.Reader

/-!
# The receiving end of a link

The messages that the reader takes off the stream go to the reassembler in the order in which they
arrive, and what it completes is delivered.

* `Reassembler.deliver`: what a list of arrivals brings.
* `Receiver.feed` and `Receiver.finish`: what one more chunk, and the end of the stream, bring.
* `Receiver.receiveAll`: the same for all chunks of a stream.
-/

namespace Mbim

/-- What one arrival brings at the receiving end. -/
inductive Delivery where
  /-- A message or fragment that went to the reassembler. -/
  | pushed (result : Outcome PushError (Option Message))
  /-- A failure of reading. -/
  | unread (cause : StreamError)
  /-- A fault in reading. -/
  | faulted (fault : Fault)
  deriving DecidableEq

/-- Push what has arrived, in order and at one clock reading. -/
def Reassembler.deliver (now : Nat) :
    Reassembler → List Arrival → Step Reassembler (List Delivery)
  | r, [] => ⟨[], r, ∅⟩
  | r, a :: arrivals =>
    match a.result with
    | .ok m =>
      let pushed := r.push m now
      let later := deliver now pushed.next arrivals
      ⟨.pushed pushed.result :: later.result, later.next,
        a.report ++ (pushed.report ++ later.report)⟩
    | .error e =>
      let later := deliver now r arrivals
      ⟨.unread e :: later.result, later.next, a.report ++ later.report⟩
    | .fault f =>
      let later := deliver now r arrivals
      ⟨.faulted f :: later.result, later.next, a.report ++ later.report⟩

/-- The receiving end of a link. -/
structure Receiver where
  reader : Reader
  reassembler : Reassembler
  deriving DecidableEq

namespace Receiver

/-- A receiving end to which nothing has come. -/
def ofConfig (c : Config) : Receiver := ⟨Reader.new (Codec.ofConfig c), Reassembler.ofConfig c⟩

/-- Push what the reader has brought. -/
def deliver (r : Receiver) (now : Nat) (read : List Arrival × Reader) :
    Step Receiver (List Delivery) :=
  let step := r.reassembler.deliver now read.1
  ⟨step.result, ⟨read.2, step.next⟩, step.report⟩

/-- One more chunk arrives. -/
def feed (r : Receiver) (now : Nat) (chunk : Bytes) : Step Receiver (List Delivery) :=
  r.deliver now (r.reader.feed chunk)

/-- The stream ends. -/
def finish (r : Receiver) (now : Nat) : Step Receiver (List Delivery) :=
  r.deliver now r.reader.finish

/-- All chunks arrive at one clock reading, and the stream ends. -/
def receiveAll (r : Receiver) (now : Nat) : List Bytes → Step Receiver (List Delivery)
  | [] => r.finish now
  | chunk :: chunks =>
    let first := r.feed now chunk
    let later := first.next.receiveAll now chunks
    ⟨first.result ++ later.result, later.next, first.report ++ later.report⟩

end Receiver

end Mbim
