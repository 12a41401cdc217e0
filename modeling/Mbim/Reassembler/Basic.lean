import Mbim.Journal.Report
import Mbim.Reassembler.Error
import Mbim.Series.Basic

/-!
# Putting messages together from many series

Fragments of different messages may come interleaved. The reassembler keeps one series for every
kind and transaction, refuses a message beyond the size cap, and forgets a series whose time is
over.

* `Reassembler.sweep`: forget the series whose time is over. A series expires when it is as old as
  the timeout; a clock that runs backwards makes it young again.
* `Reassembler.push`: sweep, then take a message. A message of a kind without fragments passes.
  A fragment continues its series, or starts one; a fragment that is refused, or breaks the cap,
  ends the series.
* The incomplete messages stand in a list, the one that took a fragment last at its end;
  `Reassembler.find?` and `Reassembler.without` look a key up and strike it out.

Clock readings are milliseconds since some moment before all of them.
-/

namespace Mbim

/-- What tells two series apart. -/
structure Key where
  kind : Kind
  transaction : UInt32
  deriving DecidableEq

/-- The key of the series that a fragment with this header belongs to. -/
def Header.key (h : Header) : Key := ⟨h.kind, h.transaction⟩

/-- An incomplete message. -/
structure Partial where
  key : Key
  series : Series
  /-- The clock reading at its first fragment. -/
  startedAt : Nat
  deriving DecidableEq

namespace Partial

/-- Whether the time of the partial message is over. -/
def isExpired (p : Partial) (timeout now : Nat) : Bool := decide (timeout ≤ now - p.startedAt)

/-- The fragments taken. -/
def received (p : Partial) : Nat := p.series.current.toNat + 1

/-- How the log tells that the partial message is forgotten. -/
def expiry (p : Partial) : Event :=
  .partialExpired p.key.kind p.key.transaction p.received p.series.total

end Partial

/-- The incomplete messages of one link, and their limits. -/
structure Reassembler where
  limit : Limit
  timeout : Nat
  partials : List Partial
  deriving DecidableEq

namespace Reassembler

variable {ε : Type}

/-- A reassembler that holds nothing. -/
def new (limit : Limit) (timeout : Nat) : Reassembler := ⟨limit, timeout, []⟩

/-- A reassembler for the limits of a link. -/
def ofConfig (c : Config) : Reassembler := new c.maxMessage c.timeout

/-- The number of incomplete messages. -/
def size (r : Reassembler) : Nat := r.partials.length

/-- The incomplete message under a key. -/
def find? (r : Reassembler) (k : Key) : Option Partial := r.partials.find? fun p => p.key == k

/-- All but the incomplete message under a key. -/
def without (r : Reassembler) (k : Key) : Reassembler :=
  { r with partials := r.partials.filter fun p => p.key != k }

/-- One incomplete message more. -/
def keep (r : Reassembler) (p : Partial) : Reassembler := { r with partials := r.partials ++ [p] }

/-! ## Sweeping -/

/-- The incomplete messages whose time is over. -/
def expired (r : Reassembler) (now : Nat) : List Partial :=
  r.partials.filter fun p => p.isExpired r.timeout now

/-- All but the incomplete messages whose time is over. -/
def live (r : Reassembler) (now : Nat) : Reassembler :=
  { r with partials := r.partials.filter fun p => !p.isExpired r.timeout now }

/-- What a sweep reports. -/
def expiries (ps : List Partial) : Report :=
  ⟨ps.map Partial.expiry, Counts.single (.dropped .expired) ps.length⟩

/-- Forget the incomplete messages whose time is over, and answer with their transaction ids. To
tell how many fragments one had, the index after its last one is needed. -/
def sweep (r : Reassembler) (now : Nat) : Step Reassembler (Outcome ε (List UInt32)) :=
  let gone := r.expired now
  let result :=
    if gone.all fun p => (next? p.series.current).isSome then
      .ok (gone.map fun p => p.key.transaction)
    else .fault .indexOverflow
  ⟨result, r.live now, expiries gone⟩

/-! ## Pushing -/

/-- Answer with the message if the partial one is complete, else keep it. -/
def settle (r : Reassembler) (p : Partial) :
    Step Reassembler (Outcome PushError (Option Message)) :=
  let report := Report.counted .inbound
  let attempted := p.series.bytes.length
  if r.limit.bytes < attempted then
    ⟨.error (.tooLarge p.key.transaction attempted r.limit), r,
      report ++ .one (.partialOversized p.key.transaction attempted r.limit.bytes)
        (.dropped .oversized)⟩
  else
    match p.series.finish with
    | .ok (.complete m) =>
      ⟨.ok (some m), r, if 1 < p.series.total then report ++ .counted .reassembled else report⟩
    | .ok (.pending s) => ⟨.ok none, r.keep { p with series := s }, report⟩
    | .error e => ⟨.error e, r, report⟩
    | .fault f => ⟨.fault f, r, report⟩

/-- Take a fragment that may continue a partial message. -/
def advance (r : Reassembler) (m : Message) (p : Partial) :
    Step Reassembler (Outcome PushError (Option Message)) :=
  match p.series.add m with
  | .ok s => r.settle { p with series := s }
  | .error e =>
    ⟨.error (.fragment e), r, .one (.partialDropped p.key.transaction e) (.dropped e.dropReason)⟩
  | .fault f => ⟨.fault f, r, ∅⟩

/-- Take a fragment that may start a partial message. -/
def launch (r : Reassembler) (m : Message) (k : Key) (now : Nat) :
    Step Reassembler (Outcome PushError (Option Message)) :=
  match Series.ofFirst m with
  | .ok s => r.settle ⟨k, s, now⟩
  | .error e => ⟨.error (.fragment e), r, ∅⟩
  | .fault f => ⟨.fault f, r, ∅⟩

/-- Take a message without a look at the time of the others. -/
def accept (r : Reassembler) (m : Message) (now : Nat) :
    Step Reassembler (Outcome PushError (Option Message)) :=
  match m.header with
  | .error e => ⟨.error (.fragment (.malformed e)), r, ∅⟩
  | .ok h =>
    if h.kind.isFragment then
      match r.find? h.key with
      | some p => (r.without h.key).advance m p
      | none => (r.without h.key).launch m h.key now
    else ⟨.ok (some m), r, ∅⟩

/-- Sweep, then take a message. The answer is the message that is complete with it, if one is. -/
def push (r : Reassembler) (m : Message) (now : Nat) :
    Step Reassembler (Outcome PushError (Option Message)) :=
  let swept := r.sweep now
  match swept.result with
  | .ok _ => (swept.next.accept m now).after swept.report
  | .error e => ⟨.error e, swept.next, swept.report⟩
  | .fault f => ⟨.fault f, swept.next, swept.report⟩

end Reassembler

end Mbim
