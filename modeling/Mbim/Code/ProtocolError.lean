/-!
# Protocol errors

The code that an error message carries. It always reports a failure.

* `ProtocolError.ofCode` and `ProtocolError.code`: reading and writing; `code_ofCode` says that no
  code is lost.
-/

namespace Mbim

/-- What one end of the link finds wrong with the other's messages. -/
inductive ProtocolError where
  /-- Reserved: no error. -/
  | invalid
  /-- A fragment is overdue. -/
  | timeoutFragment
  /-- A fragment is out of its order. -/
  | fragmentOutOfSequence
  /-- A length disagrees with the bytes received. -/
  | lengthMismatch
  /-- The transaction id is in use. -/
  | duplicatedTid
  /-- The function is not open. -/
  | notOpened
  /-- An error not told apart further. -/
  | unknown
  /-- The host gave up the transaction. -/
  | cancel
  /-- The message exceeds the largest transfer. -/
  | maxTransfer
  /-- A code kept as it came. -/
  | other (code : UInt32)
  deriving DecidableEq

namespace ProtocolError

/-- Those with a name, in the order of their codes. -/
def named : List ProtocolError :=
  [invalid, timeoutFragment, fragmentOutOfSequence, lengthMismatch, duplicatedTid, notOpened,
    unknown, cancel, maxTransfer]

/-- The code and the name in diagnostics. -/
def entry : ProtocolError → UInt32 × String
  | invalid => (0, "invalid")
  | timeoutFragment => (1, "timeout-fragment")
  | fragmentOutOfSequence => (2, "fragment-out-of-sequence")
  | lengthMismatch => (3, "length-mismatch")
  | duplicatedTid => (4, "duplicated-tid")
  | notOpened => (5, "not-opened")
  | unknown => (6, "unknown")
  | cancel => (7, "cancel")
  | maxTransfer => (8, "max-transfer")
  | other c => (c, "(unknown)")

def code (e : ProtocolError) : UInt32 := e.entry.1

def name (e : ProtocolError) : String := e.entry.2

/-- The named one with code `c`, or `c` itself kept. -/
def ofCode (c : UInt32) : ProtocolError := (named.find? fun e => e.code == c).getD (other c)

@[simp] theorem code_ofCode (c : UInt32) : (ofCode c).code = c := by
  unfold ofCode
  cases h : named.find? fun e => e.code == c with
  | none => rfl
  | some e => simpa using List.find?_some h

/-- A named error is read back from its code. -/
theorem ofCode_code {e : ProtocolError} (h : e ∈ named) : ofCode e.code = e := by
  have : ∀ e ∈ named, ofCode e.code = e := by decide
  exact this e h

end ProtocolError

end Mbim
