import Mbim.Reassembler.Basic

/-!
# Runs of a reassembler

* `Reassembler.Op` and `Reassembler.step`: the two operations, each with its clock reading.
* `Reassembler.run`: the results of a list of operations, and what is there afterwards.
* `Reassembler.Reachable`: what some run from an empty reassembler leaves.
-/

namespace Mbim

namespace Reassembler

/-- What can be done to a reassembler. -/
inductive Op where
  | push (message : Message) (now : Nat)
  | sweep (now : Nat)
  deriving DecidableEq

/-- The clock reading of an operation. -/
def Op.now : Op → Nat
  | push _ now => now
  | sweep now => now

/-- What an operation answers. -/
inductive Answer where
  /-- A push: the message that is complete, if one is. -/
  | pushed (result : Outcome PushError (Option Message))
  /-- A sweep: the transaction ids of what is forgotten. -/
  | swept (result : Outcome Empty (List UInt32))
  deriving DecidableEq

/-- Do one operation. -/
def step (r : Reassembler) : Op → Step Reassembler Answer
  | .push m now =>
    let s := r.push m now
    ⟨.pushed s.result, s.next, s.report⟩
  | .sweep now =>
    let s := r.sweep now
    ⟨.swept s.result, s.next, s.report⟩

/-- Do the operations in order: what each answers and reports, and what is there afterwards. -/
def run (r : Reassembler) : List Op → List (Answer × Report) × Reassembler
  | [] => ([], r)
  | op :: ops =>
    let s := r.step op
    let (answers, r) := s.next.run ops
    ((s.result, s.report) :: answers, r)

/-- What some run leaves of an empty reassembler with these limits. -/
inductive Reachable (limit : Limit) (timeout : Nat) : Reassembler → Prop where
  | new : Reachable limit timeout (Reassembler.new limit timeout)
  | step {r : Reassembler} (reached : Reachable limit timeout r) (op : Op) :
    Reachable limit timeout (r.step op).next

end Reassembler

end Mbim
