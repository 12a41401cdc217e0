import Mbim.Series.Basic

/-!
# Offering fragments to a series that is kept

`Series.add` answers with another series. Here the series is kept and changed in place: checks and
changes are made one after the other, and whatever it comes to, there is a series afterwards.

* `Edit`: work on a series in place. What is changed before a refusal stays changed.
* `Series.offer`: take the next fragment in place (`Edit.take`).
* `Series.offerAll`, `Series.accepted`: what any number of offers leave, and which of them were
  accepted.
-/

namespace Mbim

/-- Work on a series in place: how it ends, and what the series is then. -/
structure Edit (α : Type) where
  run : Series → Outcome SeriesError α × Series

namespace Edit

variable {α β : Type}

/-- Go on with the answer, in the series as it is by then. -/
def bind (x : Edit α) (f : α → Edit β) : Edit β :=
  ⟨fun s =>
    match x.run s with
    | (.ok a, s) => (f a).run s
    | (.error e, s) => (.error e, s)
    | (.fault x, s) => (.fault x, s)⟩

instance : Monad Edit where
  pure a := ⟨fun s => (.ok a, s)⟩
  bind := bind

/-- The series as it is. -/
def series : Edit Series := ⟨fun s => (.ok s, s)⟩

/-- What is read of a fragment. -/
def read (x : Outcome DecodeError α) : Edit α := ⟨fun s => (x.mapError .malformed, s)⟩

def refuse (e : SeriesError) : Edit α := ⟨fun s => (.error e, s)⟩

def abort (x : Fault) : Edit α := ⟨fun s => (.fault x, s)⟩

def change (f : Series → Series) : Edit Unit := ⟨fun s => (.ok (), f s)⟩

/-- Overwrite a field of the headers. -/
def overwrite (o : Nat) (w : UInt32) : Edit Unit :=
  ⟨fun s =>
    match Series.setField o w s.bytes with
    | .ok b => (.ok (), { s with bytes := b })
    | .error e => (.error e, s)
    | .fault x => (.fault x, s)⟩

/-- Append a payload, then renew the length and the index in the headers. -/
def extend (payload : Bytes) (current : UInt32) : Edit Unit := do
  let s ← series
  let size := s.bytes.length + payload.length
  if size < wordBound then
    change fun s => { s with bytes := s.bytes ++ payload }
    overwrite lengthOffset (UInt32.ofNat size)
    overwrite currentOffset current
    change fun s => { s with current := current }
  else refuse (.malformed (.tooLarge size))

/-- Take the next fragment. -/
def take (m : Message) : Edit Unit := do
  let found ← read m.position
  let kind ← read (.ofExcept m.kind)
  let s ← series
  if kind ≠ s.kind then refuse (.wrongKind s.kind kind)
  else if s.isComplete then refuse .complete
  else
    match next? s.current with
    | none => abort .indexOverflow
    | some expected =>
      if found.current ≠ expected then refuse (.outOfSequence ⟨s.total, expected⟩ found)
      else
        let payload ← read m.payload
        extend payload found.current

end Edit

namespace Series

/-- Offer a message as the next fragment: how that ends, and what the series is then. -/
def offer (s : Series) (m : Message) : Outcome SeriesError Unit × Series := (Edit.take m).run s

/-- What is left of the series when the messages have been offered to it. -/
def offerAll (s : Series) : List Message → Series
  | [] => s
  | m :: ms => (s.offer m).2.offerAll ms

/-- Those of the offered messages that are accepted. -/
def accepted (s : Series) : List Message → List Message
  | [] => []
  | m :: ms =>
    let later := (s.offer m).2.accepted ms
    match (s.offer m).1 with
    | .ok () => m :: later
    | _ => later

end Series

end Mbim
