import Mbim.Series.Error
import Mbim.Stream.Error

/-!
# Events

* `Event`: what a step can tell the log.
* `Event.text`: the line of the log, made of the level, the summary and the named details
  (`Event.level`, `Event.summary`, `Event.fields`).
-/

namespace Mbim

/-- What a step tells the log. -/
inductive Event where
  /-- A series ends because a fragment does not continue it. -/
  | partialDropped (transaction : UInt32) (cause : SeriesError)
  /-- A series ends because it exceeds the size cap. -/
  | partialOversized (transaction : UInt32) (attempted limit : Nat)
  /-- A series ends because its time is over. -/
  | partialExpired (kind : Kind) (transaction : UInt32) (received : Nat) (total : UInt32)
  /-- The next frame cannot be delimited. -/
  | frameRejected (cause : FrameError)
  /-- A whole frame is not a message. -/
  | messageRejected (cause : DecodeError)
  /-- A malformed message is not written. -/
  | writeRefused (cause : DecodeError)
  /-- A message is written in fragments. -/
  | fragmentsWritten (transaction : UInt32) (fragments limit : Nat)
  /-- A message of no known kind is dumped. -/
  | unknownKindDumped (code : UInt32)
  deriving DecidableEq

/-- How much an event matters. -/
inductive Level where
  | trace
  | debug
  | warn
  deriving DecidableEq

/-- The level as it stands in the log. -/
def Level.name : Level → String
  | trace => "TRACE"
  | debug => "DEBUG"
  | warn => "WARN"

namespace Event

/-- How much the event matters. -/
def level : Event → Level
  | fragmentsWritten .. => .trace
  | unknownKindDumped _ => .warn
  | _ => .debug

/-- What happened. -/
def summary : Event → String
  | partialDropped .. => "dropping partial message"
  | partialOversized .. => "dropping oversized partial message"
  | partialExpired .. => "evicting stale partial message"
  | frameRejected _ => "rejecting inbound frame"
  | messageRejected _ => "rejecting inbound message"
  | writeRefused _ => "refusing to write malformed message"
  | fragmentsWritten .. => "writing fragmented message"
  | unknownKindDumped _ => "rendering message with an invalid type"

/-- The details, each with its name. -/
def fields : Event → List (String × String)
  | partialDropped transaction cause =>
    [("transaction_id", toString transaction.toNat), ("error", cause.message)]
  | partialOversized transaction attempted limit =>
    [("transaction_id", toString transaction.toNat), ("attempted", toString attempted),
      ("limit", toString limit)]
  | partialExpired kind transaction received total =>
    [("message_type", kind.name), ("transaction_id", toString transaction.toNat),
      ("received", toString received), ("total", toString total.toNat)]
  | frameRejected cause =>
    [("error", (StreamError.frame cause).message),
      ("kind", "\"" ++ (StreamError.frame cause).category ++ "\"")]
  | messageRejected cause => [("error", cause.message)]
  | writeRefused cause => [("error", cause.message)]
  | fragmentsWritten transaction fragments limit =>
    [("transaction_id", toString transaction.toNat), ("fragments", toString fragments),
      ("max_fragment_size", toString limit)]
  | unknownKindDumped code => [("code", toString code.toNat)]

/-- The line of the log: the level, the summary and the fields. -/
def text (e : Event) : String :=
  e.level.name ++ " " ++ e.summary ++ String.join (e.fields.map fun f => s!" {f.1}={f.2}")

end Event

end Mbim
