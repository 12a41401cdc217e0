/-!
# Kinds of message

The first word of a message is the code of its kind. `Kind.ofCode` reads a code and `Kind.code`
writes one; codes outside the table read as `Kind.invalid`.

* `Kind.isFragment`: the kinds whose body starts with a fragment position; `Kind.isFragment_iff`
  lists them.
* `Kind.minBody?`: the fewest bytes a body of the kind can have.
* `Kind.ofCode_code`: a kind other than `invalid` is read back from its code.
-/

namespace Mbim

/-- What a message is for. -/
inductive Kind where
  /-- Any code outside the table. -/
  | invalid
  /-- The host opens the function and announces its largest transfer. -/
  | openRequest
  /-- The host closes the function. -/
  | closeRequest
  /-- A command of the host. -/
  | command
  /-- The host reports a protocol error. -/
  | hostError
  /-- The answer to an open request. -/
  | openDone
  /-- The answer to a close request. -/
  | closeDone
  /-- The answer to a command. -/
  | commandDone
  /-- The function reports a protocol error. -/
  | functionError
  /-- The function reports an event unasked. -/
  | indication
  deriving DecidableEq

namespace Kind

/-- The kinds that have a code of their own. -/
def known : List Kind :=
  [openRequest, closeRequest, command, hostError, openDone, closeDone, commandDone, functionError,
    indication]

/-- The code of a kind, 0 for `invalid`. -/
def code : Kind → UInt32
  | invalid => 0
  | openRequest => 1
  | closeRequest => 2
  | command => 3
  | hostError => 4
  | openDone => 0x80000001
  | closeDone => 0x80000002
  | commandDone => 0x80000003
  | functionError => 0x80000004
  | indication => 0x80000007

/-- The kind with code `c`. -/
def ofCode (c : UInt32) : Kind := (known.find? fun k => k.code == c).getD invalid

/-- The name of a kind in diagnostics. -/
def name : Kind → String
  | invalid => "invalid"
  | openRequest => "open"
  | closeRequest => "close"
  | command => "command"
  | hostError => "host-error"
  | openDone => "open-done"
  | closeDone => "close-done"
  | commandDone => "command-done"
  | functionError => "function-error"
  | indication => "indicate-status"

/-- Whether the body starts with a fragment position. -/
def isFragment : Kind → Bool
  | command | commandDone | indication => true
  | _ => false

/-- Whether the message reports a protocol error. -/
def isError : Kind → Bool
  | hostError | functionError => true
  | _ => false

/-- The fewest bytes that the body of a kind can have; none for `invalid`. -/
def minBody? : Kind → Option Nat
  | invalid => none
  | closeRequest => some 0
  | openRequest | openDone | closeDone | hostError | functionError => some 4
  | command | commandDone | indication => some 8

@[simp] theorem ofCode_code (k : Kind) : ofCode k.code = k := by
  cases k <;> decide

theorem isFragment_iff {k : Kind} :
    k.isFragment ↔ k = command ∨ k = commandDone ∨ k = indication := by
  cases k <;> decide

theorem mem_known_of_isFragment {k : Kind} (h : k.isFragment) : k ∈ known := by
  obtain rfl | rfl | rfl := isFragment_iff.mp h <;> decide

/-- A fragment does not report an error. -/
theorem isError_of_isFragment {k : Kind} (h : k.isFragment) : k.isError = false := by
  obtain rfl | rfl | rfl := isFragment_iff.mp h <;> rfl

/-- Only `invalid` has no least body. -/
theorem minBody?_eq_none_iff {k : Kind} : k.minBody? = none ↔ k = invalid := by
  cases k <;> simp [minBody?]

/-- A fragment kind's body holds at least the position. -/
theorem minBody?_of_isFragment {k : Kind} (h : k.isFragment) : k.minBody? = some 8 := by
  cases k <;> simp_all [minBody?, isFragment]

end Kind

end Mbim
