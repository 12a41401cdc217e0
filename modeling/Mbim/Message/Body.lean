import Mbim.Message.Basic

/-!
# Bodies

Each kind has a body of its own. It is read either by a function that expects one kind
(`Message.maxControlTransfer`, `Message.openDoneStatus`, ...), or as a whole (`Message.contents`).

* A function that expects a kind first looks at the kind and then at the body.
* `Message.openDoneResult` and `Message.closeDoneResult`: a status other than success is a cause.
* `Message.failure`: what an error message reports, or why it cannot be read.
-/

namespace Mbim

/-- The body of a fragment. -/
structure FragmentBody where
  position : Position
  payload : Bytes
  deriving DecidableEq

/-- The body of a message of a known kind. -/
inductive Contents where
  | openRequest (maxControlTransfer : UInt32)
  | closeRequest
  | openDone (status : Status)
  | closeDone (status : Status)
  | hostError (error : ProtocolError)
  | functionError (error : ProtocolError)
  | command (body : FragmentBody)
  | commandDone (body : FragmentBody)
  | indication (body : FragmentBody)
  deriving DecidableEq

/-- The kind that the body belongs to. -/
def Contents.kind : Contents → Kind
  | openRequest _ => .openRequest
  | closeRequest => .closeRequest
  | openDone _ => .openDone
  | closeDone _ => .closeDone
  | hostError _ => .hostError
  | functionError _ => .functionError
  | command _ => .command
  | commandDone _ => .commandDone
  | indication _ => .indication

namespace Message

/-! ## Bodies of one word -/

/-- The word behind the common header. -/
def bodyWord (m : Message) : Except DecodeError UInt32 :=
  match m.bytes.word? headerSize with
  | some w => .ok w
  | none => .error (.truncated (headerSize + wordSize) m.bytes.length)

/-- Refuse every kind but one. -/
def expectKind (m : Message) (expected : Kind) : Except DecodeError Unit :=
  match m.kind with
  | .error e => .error e
  | .ok found => if found = expected then .ok () else .error (.wrongKind expected found)

/-- The word in the body of a message of one kind. -/
def wordOfKind (m : Message) (expected : Kind) : Except DecodeError UInt32 :=
  match m.expectKind expected with
  | .error e => .error e
  | .ok () => m.bodyWord

/-- The largest transfer that an open request announces. -/
def maxControlTransfer (m : Message) : Except DecodeError UInt32 := m.wordOfKind .openRequest

/-- The status in the answer to an open request. -/
def openDoneStatus (m : Message) : Except DecodeError Status :=
  (m.wordOfKind .openDone).map Status.ofCode

/-- The status in the answer to a close request. -/
def closeDoneStatus (m : Message) : Except DecodeError Status :=
  (m.wordOfKind .closeDone).map Status.ofCode

/-- Success, or the status as a cause. -/
def statusResult (s : Status) : Except DecodeError Unit :=
  if s.isSuccess then .ok () else .error (.status s)

/-- How the open request went. -/
def openDoneResult (m : Message) : Except DecodeError Unit := m.openDoneStatus.bind statusResult

/-- How the close request went. -/
def closeDoneResult (m : Message) : Except DecodeError Unit := m.closeDoneStatus.bind statusResult

/-- The error that a message of an error kind carries. Of the two kinds, the cause for another kind
names that of the function. -/
def errorCode (m : Message) : Except DecodeError ProtocolError :=
  match m.kind with
  | .error e => .error e
  | .ok found =>
    if found.isError then m.bodyWord.map ProtocolError.ofCode
    else .error (.wrongKind .functionError found)

/-- What an error message reports, or why it cannot be read. -/
def failure (m : Message) : DecodeError :=
  match m.errorCode with
  | .ok e => .protocol e
  | .error e => e

/-- An error message seen as an outcome: never a success. -/
def failureResult (m : Message) : Except DecodeError Unit := .error m.failure

/-! ## All bodies -/

/-- The position and the payload. -/
def fragmentBody (m : Message) : Outcome DecodeError FragmentBody := do
  let position ← m.position
  let payload ← m.payload
  return ⟨position, payload⟩

/-- The body according to the kind. -/
def contents (m : Message) : Outcome DecodeError Contents := do
  match ← Outcome.ofExcept m.kind with
  | .invalid => .error m.unknownKind
  | .openRequest => return .openRequest (← Outcome.ofExcept m.bodyWord)
  | .closeRequest => return .closeRequest
  | .openDone => return .openDone (Status.ofCode (← Outcome.ofExcept m.bodyWord))
  | .closeDone => return .closeDone (Status.ofCode (← Outcome.ofExcept m.bodyWord))
  | .hostError => return .hostError (ProtocolError.ofCode (← Outcome.ofExcept m.bodyWord))
  | .functionError => return .functionError (ProtocolError.ofCode (← Outcome.ofExcept m.bodyWord))
  | .command => return .command (← m.fragmentBody)
  | .commandDone => return .commandDone (← m.fragmentBody)
  | .indication => return .indication (← m.fragmentBody)

end Message

end Mbim
