import Mbim.Journal.Event
import Mbim.Message.Body

/-!
# Dumps

A dump shows a message to a person: the common header, and a summary of the body by kind.

* `Message.dump`: the lines, which do not depend on where they are shown, and the events.
* `Dump.render`: each line behind a margin and ended by a line feed.
-/

namespace Mbim

/-- A message in lines. -/
structure Dump where
  lines : List String
  events : List Event
  deriving DecidableEq

/-- The text of the dump, every line behind the margin. -/
def Dump.render (margin : String) (d : Dump) : String :=
  String.join (d.lines.map fun line => margin ++ line ++ "\n")

/-- The lines that show a body. -/
def Contents.lines : Contents → List String
  | openRequest maxControlTransfer =>
    ["Contents:", s!"  max_control_transfer = {maxControlTransfer.toNat}"]
  | closeRequest => []
  | openDone status | closeDone status =>
    ["Contents:", s!"  status error = '{status.name}' (0x{hex8 status.code})"]
  | hostError error | functionError error =>
    ["Contents:", s!"  error = '{error.name}' (0x{hex8 error.code})"]
  | command body | commandDone body | indication body =>
    ["Fragment header:", s!"  total   = {body.position.total.toNat}",
      s!"  current = {body.position.current.toNat}"]

/-- The lines that show a header, with the code of the kind as it stands. -/
def Header.lines (h : Header) (code : UInt32) : List String :=
  ["Header:", s!"  length      = {h.length.toNat}",
    s!"  type        = {h.kind.name} (0x{hex8 code})", s!"  transaction = {h.transaction.toNat}"]

namespace Message

variable {ε : Type}

/-- The lines that show the body, or why it cannot be read. -/
def bodyLines (m : Message) : Outcome ε (List String) :=
  match m.contents with
  | .ok contents => .ok contents.lines
  | .error e => .ok [s!"Contents: <malformed: {e.message}>"]
  | .fault f => .fault f

/-- The message in lines. A kind that is not known has no body to show and is told. -/
def dump (m : Message) : Outcome ε Dump :=
  match m.header with
  | .error e => .ok ⟨[s!"Header: <malformed: {e.message}>"], []⟩
  | .ok h =>
    let code := (rawKind? m.bytes).getD 0
    if h.kind = .invalid then .ok ⟨h.lines code, [.unknownKindDumped code]⟩
    else do
      let body ← m.bodyLines
      return ⟨h.lines code ++ body, []⟩

end Message

end Mbim
