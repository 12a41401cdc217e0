import Mbim.Code.Kind

/-!
# Outcomes

An operation answers, refuses with a cause, or faults. A cause belongs to its input and is part of
the operation's contract. A fault is a use outside that contract, such as asking a message of a
kind without fragments for its position.

* `Outcome`: the three cases, with the operations of a monad (`ok_bind`, `error_bind`,
  `fault_bind`, `bind_eq_ok_iff`, `bind_eq_error_iff`).
* `Outcome.ofExcept`, `Outcome.mapError`: from an operation that cannot fault, and to the causes of
  a larger operation.
* `Outcome.isFault`: whether an operation was used outside its contract. A sequence of operations
  faults where one of them does (`isFault_bind_iff`).
* `Fault.message`: the text of a fault.
-/

namespace Mbim

/-- A use of an operation outside its contract. -/
inductive Fault where
  /-- The position or payload of a message of a kind that has none. -/
  | notFragment (kind : Kind)
  /-- The first `wanted` of fewer bytes. -/
  | beyondEnd (wanted held : Nat)
  /-- The index after the greatest one. -/
  | indexOverflow
  /-- A split that leaves bytes of the payload. -/
  | payloadLeft (bytes : Nat)
  /-- A batch of no fragments. -/
  | emptyBatch
  /-- A series too short to hold the fields to set. -/
  | shortSeries
  deriving DecidableEq

/-- What went wrong, in words. -/
def Fault.message : Fault → String
  | notFragment kind => s!"fragment accessor used on a {kind.name} message"
  | beyondEnd wanted held => s!"cannot take {wanted} bytes of {held}"
  | indexOverflow => "no fragment index is left"
  | payloadLeft bytes => s!"splitting leaves {bytes} payload bytes"
  | emptyBatch => "no fragment in a batch"
  | shortSeries => "no fragment headers to set in a series"

/-- The end of an operation with causes `ε` and answers `α`. -/
inductive Outcome (ε α : Type) where
  /-- The operation answers. -/
  | ok (value : α)
  /-- The operation refuses. -/
  | error (cause : ε)
  /-- The operation was used outside its contract. -/
  | fault (fault : Fault)
  deriving DecidableEq

namespace Outcome

variable {ε ε' α β : Type}

/-- Go on with the answer. -/
def bind : Outcome ε α → (α → Outcome ε β) → Outcome ε β
  | ok a, f => f a
  | error e, _ => error e
  | fault f, _ => fault f

instance : Monad (Outcome ε) where
  pure := ok
  bind := bind

@[simp] theorem pure_eq (a : α) : (pure a : Outcome ε α) = ok a := rfl

@[simp] theorem ok_bind (a : α) (f : α → Outcome ε β) : (ok a >>= f) = f a := rfl

@[simp] theorem error_bind (e : ε) (f : α → Outcome ε β) : (error e >>= f) = error e := rfl

@[simp] theorem fault_bind (x : Fault) (f : α → Outcome ε β) :
    ((fault x : Outcome ε α) >>= f) = fault x := rfl

/-- An operation that goes on after another answers if both do. -/
theorem bind_eq_ok_iff {x : Outcome ε α} {f : α → Outcome ε β} {b : β} :
    (x >>= f) = ok b ↔ ∃ a, x = ok a ∧ f a = ok b := by
  cases x with
  | ok a => simp
  | error e => simp
  | fault f => simp

/-- An operation that goes on after another refuses if one of them does. -/
theorem bind_eq_error_iff {x : Outcome ε α} {f : α → Outcome ε β} {e : ε} :
    (x >>= f) = error e ↔ x = error e ∨ ∃ a, x = ok a ∧ f a = error e := by
  cases x with
  | ok a => simp
  | error e => simp
  | fault f => simp

/-- The outcome of an operation that cannot fault. -/
def ofExcept : Except ε α → Outcome ε α
  | .ok a => ok a
  | .error e => error e

@[simp] theorem ofExcept_ok (a : α) : ofExcept (.ok a : Except ε α) = ok a := rfl

@[simp] theorem ofExcept_error (e : ε) : ofExcept (.error e : Except ε α) = error e := rfl

theorem ofExcept_eq_ok_iff {x : Except ε α} {a : α} : ofExcept x = ok a ↔ x = .ok a := by
  cases x <;> simp

theorem ofExcept_eq_error_iff {x : Except ε α} {e : ε} : ofExcept x = error e ↔ x = .error e := by
  cases x <;> simp

/-- The same outcome with its cause seen from a larger operation. -/
def mapError (f : ε → ε') : Outcome ε α → Outcome ε' α
  | ok a => ok a
  | error e => error (f e)
  | fault x => fault x

@[simp] theorem mapError_ok (f : ε → ε') (a : α) : mapError f (ok a) = ok a := rfl

@[simp] theorem mapError_error (f : ε → ε') (e : ε) :
    mapError f (error e : Outcome ε α) = error (f e) := rfl

@[simp] theorem mapError_fault (f : ε → ε') (x : Fault) :
    mapError f (fault x : Outcome ε α) = fault x := rfl

theorem mapError_eq_ok_iff {f : ε → ε'} {x : Outcome ε α} {a : α} :
    mapError f x = ok a ↔ x = ok a := by
  cases x <;> simp

/-- Whether the operation was used outside its contract. -/
def isFault : Outcome ε α → Bool
  | fault _ => true
  | _ => false

@[simp] theorem isFault_ok (a : α) : (ok a : Outcome ε α).isFault = false := rfl

@[simp] theorem isFault_error (e : ε) : (error e : Outcome ε α).isFault = false := rfl

@[simp] theorem isFault_fault (x : Fault) : (fault x : Outcome ε α).isFault = true := rfl

@[simp] theorem isFault_ofExcept (x : Except ε α) : (ofExcept x).isFault = false := by
  cases x <;> rfl

@[simp] theorem isFault_mapError (f : ε → ε') (x : Outcome ε α) :
    (mapError f x).isFault = x.isFault := by
  cases x <;> rfl

/-- Operations in sequence fault where the first one does, or the second one after an answer. -/
theorem isFault_bind_iff {x : Outcome ε α} {f : α → Outcome ε β} :
    (x >>= f).isFault ↔ x.isFault ∨ ∃ a, x = ok a ∧ (f a).isFault := by
  cases x with
  | ok a => simp
  | error e => simp
  | fault y => simp

end Outcome

end Mbim
