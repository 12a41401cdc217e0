import Mbim.Series.Error

/-!
# Counters

* `Counter`: what is counted, with the name under which it is published.
* `Counts`: how far each counter moves in a step. Increments of successive steps are added
  (`Counts.get_add`), and `Counts.single` moves one counter (`Counts.get_single`). What each counter
  moves by is all there is to an increment (`Counts.ext_get`).
* `Counts.entries`: the counters that move, by name.
-/

namespace Mbim

/-- Why a series ends without its message. -/
inductive DropReason where
  | sequence
  | malformed
  | oversized
  | expired
  deriving DecidableEq

/-- The reason as it stands in the counter's name. -/
def DropReason.name : DropReason → String
  | sequence => "sequence"
  | malformed => "malformed"
  | oversized => "oversized"
  | expired => "expired"

/-- The reason for which a fragment that is refused ends its series. -/
def SeriesError.dropReason : SeriesError → DropReason
  | malformed _ => .malformed
  | _ => .sequence

/-- What is counted. -/
inductive Counter where
  /-- Fragments received. -/
  | inbound
  /-- Fragments written. -/
  | outbound
  /-- Messages put together from more than one fragment. -/
  | reassembled
  /-- Series that ended without their message. -/
  | dropped (reason : DropReason)
  deriving DecidableEq

namespace Counter

/-- All counters. -/
def all : List Counter :=
  [inbound, outbound, reassembled, dropped .sequence, dropped .malformed, dropped .oversized,
    dropped .expired]

/-- The name under which a counter is published. -/
def name : Counter → String
  | inbound => "mbimwire_fragments_total\x7bdirection=inbound\x7d"
  | outbound => "mbimwire_fragments_total\x7bdirection=outbound\x7d"
  | reassembled => "mbimwire_messages_reassembled_total"
  | dropped reason => "mbimwire_reassembly_dropped_total\x7breason=" ++ reason.name ++ "\x7d"

end Counter

/-- An increment of every counter. -/
@[ext]
structure Counts where
  inbound : Nat
  outbound : Nat
  reassembled : Nat
  sequence : Nat
  malformed : Nat
  oversized : Nat
  expired : Nat
  deriving DecidableEq

namespace Counts

/-- No counter moves. -/
def zero : Counts := ⟨0, 0, 0, 0, 0, 0, 0⟩

/-- One increment after the other. -/
def add (c d : Counts) : Counts :=
  ⟨c.inbound + d.inbound, c.outbound + d.outbound, c.reassembled + d.reassembled,
    c.sequence + d.sequence, c.malformed + d.malformed, c.oversized + d.oversized,
    c.expired + d.expired⟩

instance : Zero Counts := ⟨zero⟩

instance : Add Counts := ⟨add⟩

/-- One counter moves by `n`. -/
def single (counter : Counter) (n : Nat) : Counts :=
  match counter with
  | .inbound => { zero with inbound := n }
  | .outbound => { zero with outbound := n }
  | .reassembled => { zero with reassembled := n }
  | .dropped .sequence => { zero with sequence := n }
  | .dropped .malformed => { zero with malformed := n }
  | .dropped .oversized => { zero with oversized := n }
  | .dropped .expired => { zero with expired := n }

/-- The increment of one counter. -/
def get (c : Counts) : Counter → Nat
  | .inbound => c.inbound
  | .outbound => c.outbound
  | .reassembled => c.reassembled
  | .dropped .sequence => c.sequence
  | .dropped .malformed => c.malformed
  | .dropped .oversized => c.oversized
  | .dropped .expired => c.expired

/-- The counters that move, by name. -/
def entries (c : Counts) : List (String × Nat) :=
  (Counter.all.filter fun counter => c.get counter != 0).map fun counter =>
    (counter.name, c.get counter)

/-- The series that end without their message, whatever the reason. -/
def dropped (c : Counts) : Nat := c.sequence + c.malformed + c.oversized + c.expired

@[simp] theorem get_zero (counter : Counter) : (0 : Counts).get counter = 0 := by
  cases counter with
  | dropped reason => cases reason <;> rfl
  | _ => rfl

@[simp] theorem get_add (c d : Counts) (counter : Counter) :
    (c + d).get counter = c.get counter + d.get counter := by
  cases counter with
  | dropped reason => cases reason <;> rfl
  | _ => rfl

/-- Increments that agree on every counter are the same. -/
theorem ext_get {c d : Counts} (h : ∀ counter, c.get counter = d.get counter) : c = d :=
  Counts.ext (h .inbound) (h .outbound) (h .reassembled) (h (.dropped .sequence))
    (h (.dropped .malformed)) (h (.dropped .oversized)) (h (.dropped .expired))

@[simp] theorem add_zero (c : Counts) : c + 0 = c := rfl

@[simp] theorem zero_add (c : Counts) : 0 + c = c :=
  ext_get fun counter => by rw [get_add, get_zero, Nat.zero_add]

theorem add_assoc (c d e : Counts) : c + d + e = c + (d + e) :=
  ext_get fun counter => by simp only [get_add, Nat.add_assoc]

@[simp] theorem get_single (counter counter' : Counter) (n : Nat) :
    (single counter n).get counter' = if counter' = counter then n else 0 := by
  cases counter with
  | dropped reason =>
    cases counter' with
    | dropped reason' => cases reason <;> cases reason' <;> rfl
    | _ => cases reason <;> rfl
  | _ =>
    cases counter' with
    | dropped reason' => cases reason' <;> rfl
    | _ => rfl

/-- One counter moves twice. -/
theorem single_add_single (counter : Counter) (m n : Nat) :
    single counter m + single counter n = single counter (m + n) := by
  refine ext_get fun counter' => ?_
  rw [get_add, get_single, get_single, get_single]
  split <;> rfl

/-- Two counters move twice. -/
theorem single_add_single_add (counter counter' : Counter) (m n m' n' : Nat) :
    single counter m + single counter' n + (single counter m' + single counter' n') =
      single counter (m + m') + single counter' (n + n') := by
  refine ext_get fun counter'' => ?_
  simp only [get_add, get_single]
  split <;> split <;> omega

end Counts

end Mbim
