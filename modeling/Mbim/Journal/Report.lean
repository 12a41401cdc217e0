import Mbim.Journal.Counts
import Mbim.Journal.Event

/-!
# Reports

* `Report`: what a step leaves beside its result, events and increments of counters. Reports of
  successive steps are appended.
* `Step`: a result, what is there afterwards, and the report.
-/

namespace Mbim

/-- What a step leaves beside its result. -/
@[ext]
structure Report where
  events : List Event
  counts : Counts
  deriving DecidableEq

namespace Report

/-- Nothing to tell. -/
def empty : Report := ⟨[], 0⟩

/-- One event, and one counter that moves by one. -/
def one (event : Event) (counter : Counter) : Report := ⟨[event], Counts.single counter 1⟩

/-- One event and no counter. -/
def told (event : Event) : Report := ⟨[event], 0⟩

/-- No event, and one counter that moves by one. -/
def counted (counter : Counter) : Report := ⟨[], Counts.single counter 1⟩

instance : EmptyCollection Report := ⟨empty⟩

instance : Append Report := ⟨fun r s => ⟨r.events ++ s.events, r.counts + s.counts⟩⟩

@[simp] theorem events_empty : (∅ : Report).events = [] := rfl

@[simp] theorem counts_empty : (∅ : Report).counts = 0 := rfl

@[simp] theorem events_append (r s : Report) : (r ++ s).events = r.events ++ s.events := rfl

@[simp] theorem counts_append (r s : Report) : (r ++ s).counts = r.counts + s.counts := rfl

@[simp] theorem empty_append (r : Report) : ∅ ++ r = r :=
  Report.ext rfl (Counts.zero_add r.counts)

theorem append_assoc (r s t : Report) : r ++ s ++ t = r ++ (s ++ t) :=
  Report.ext (List.append_assoc ..) (Counts.add_assoc ..)

end Report

/-- The end of a step: its result, what is there afterwards, and the report. -/
structure Step (σ ρ : Type) where
  result : ρ
  next : σ
  report : Report
  deriving DecidableEq

/-- The step with the report of what came before it in front. -/
def Step.after {σ ρ : Type} (step : Step σ ρ) (before : Report) : Step σ ρ :=
  { step with report := before ++ step.report }

end Mbim
