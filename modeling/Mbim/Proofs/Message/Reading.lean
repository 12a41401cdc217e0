import Mbim.Message.Body
import Mbim.Proofs.Fragment.Shape

/-!
# Checking a message and reading it

A message can be checked without being read (`Message.validate`), and read without being checked
(`Message.raw`, `Message.contents`). The two accept the same messages.

* `Message.LacksPosition`: the header can be read, and is of a kind without fragments. These are the
  messages whose position and payload must not be asked for (`Message.isFault_position_iff`,
  `Message.isFault_payload_iff`).
* `Message.isFault_contents`: reading the body asks only for what is there.
* `Message.exists_contents_iff`: which bodies can be read, by what is known of their kind.
* `Message.validate_iff_readable`: a message passes the check if all of it can be read.
-/

namespace Mbim

theorem Position.le_of_decode {b : Bytes} {p : Position} (h : decode b = .ok p) :
    overhead ≤ b.length := by
  obtain ⟨-, a, c, rfl, ha⟩ := exists_of_decode h
  simp only [List.length_append, ha, length_encode, overhead]
  omega

namespace Message

variable {m : Message} {h : Header}

theorem kind_of_header (hh : m.header = .ok h) : m.kind = .ok h.kind := by
  simp [kind, hh, Except.map]

/-! ## Asking for a position -/

/-- The header can be read, and is of a kind without fragments. -/
def LacksPosition (m : Message) : Prop := ∃ h, m.header = .ok h ∧ h.kind.isFragment = false

theorem isFault_fragmentKind_iff : m.fragmentKind.isFault ↔ m.LacksPosition := by
  unfold fragmentKind kind LacksPosition
  cases m.header with
  | error e => simp [Except.map]
  | ok h => cases hf : h.kind.isFragment <;> simp [Except.map, hf]

/-- The position must not be asked for where there is none. -/
theorem isFault_position_iff : m.position.isFault ↔ m.LacksPosition := by
  unfold position
  simp [Outcome.isFault_bind_iff, isFault_fragmentKind_iff]

theorem isFault_payload_iff : m.payload.isFault ↔ m.LacksPosition := by
  unfold payload
  rw [Outcome.isFault_bind_iff, isFault_fragmentKind_iff, or_iff_left]
  rintro ⟨k, -, hfault⟩
  cases hl : m.length with
  | error e => simp [hl] at hfault
  | ok declared =>
    simp only [hl, Outcome.ofExcept_ok, Outcome.ok_bind] at hfault
    split at hfault
    · cases hfault
    · split at hfault <;> cases hfault

theorem not_lacksPosition (hh : m.header = .ok h) (hf : h.kind.isFragment) :
    ¬ m.LacksPosition := by
  rintro ⟨h', hh', hf'⟩
  rw [hh] at hh'
  cases hh'
  rw [hf] at hf'
  cases hf'

theorem isFault_fragmentBody (hn : ¬ m.LacksPosition) : m.fragmentBody.isFault = false := by
  rw [← Bool.not_eq_true]
  unfold fragmentBody
  simp [Outcome.isFault_bind_iff, isFault_position_iff, isFault_payload_iff, hn]

/-- Reading the body asks for a position only where there is one. -/
theorem isFault_contents (m : Message) : m.contents.isFault = false := by
  unfold contents
  cases hh : m.header with
  | error e => simp [kind, hh, Except.map]
  | ok h =>
    rw [kind_of_header hh, Outcome.ofExcept_ok, Outcome.ok_bind, ← Bool.not_eq_true]
    have hbody : h.kind.isFragment → m.fragmentBody.isFault = false :=
      fun hf => isFault_fragmentBody (not_lacksPosition hh hf)
    cases hk : h.kind <;> simp only [hk, Kind.isFragment] at hbody <;>
      simp [Outcome.isFault_bind_iff, hbody]

/-! ## Bodies that can be read -/

theorem exists_bodyWord_iff :
    (∃ w, m.bodyWord = .ok w) ↔ headerSize + wordSize ≤ m.bytes.length := by
  have hsome := Bytes.word?_isSome_iff (b := m.bytes) (o := headerSize)
  have hbound : headerSize + wordSize < offsetBound := by decide
  unfold bodyWord
  cases hw : m.bytes.word? headerSize with
  | none => simpa [hw, hbound] using hsome
  | some w => simpa [hw, hbound] using hsome

/-- The body of a fragment can be read if its position is in order, and the declared length covers
the headers and is covered by the bytes. -/
theorem exists_fragmentBody_iff (hh : m.header = .ok h) (hf : h.kind.isFragment) :
    (∃ body, m.fragmentBody = .ok body) ↔ (∃ p, Position.decode m.bytes = .ok p) ∧
      overhead ≤ h.length.toNat ∧ h.length.toNat ≤ m.bytes.length := by
  have hk := key?_of_header hh hf
  unfold fragmentBody
  rw [position_of_key? hk, payload_of_header hh hf]
  cases Position.decode m.bytes with
  | error e => simp
  | ok p =>
    by_cases hover : h.length.toNat < overhead
    · simp [hover, Nat.not_le.mpr hover]
    · by_cases hheld : m.bytes.length < h.length.toNat
      · simp [hover, hheld, Nat.not_le.mpr hheld]
      · simpa [hover, hheld] using ⟨Nat.not_lt.mp hover, Nat.not_lt.mp hheld⟩

/-- Reading goes on from a part of the body if the part can be read. -/
private theorem exists_of_part {α β : Type} {x : Outcome DecodeError α} (f : α → β) :
    (∃ c, (do return f (← x)) = (.ok c : Outcome DecodeError β)) ↔ ∃ a, x = .ok a := by
  cases x with
  | ok a => simp
  | error e => simp
  | fault e => simp

/-- Which bodies can be read: they are long enough for their kind, and a fragment is in order. -/
theorem exists_contents_iff (hh : m.header = .ok h) :
    (∃ c, m.contents = .ok c) ↔
      (∃ n, h.kind.minBody? = some n ∧ headerSize + n ≤ m.bytes.length) ∧
        (h.kind.isFragment → (∃ p, Position.decode m.bytes = .ok p) ∧
          overhead ≤ h.length.toNat ∧ h.length.toNat ≤ m.bytes.length) := by
  have hheader : headerSize ≤ m.bytes.length := (Header.of_decode hh).1
  have hword : (∃ w, Outcome.ofExcept m.bodyWord = .ok w) ↔ headerSize + 4 ≤ m.bytes.length := by
    refine Iff.trans ?_ exists_bodyWord_iff
    cases m.bodyWord <;> simp
  have hbody := exists_fragmentBody_iff hh
  have hmin : ∀ p, Position.decode m.bytes = .ok p → headerSize + 8 ≤ m.bytes.length :=
    fun p hp => Position.le_of_decode hp
  unfold contents
  rw [kind_of_header hh, Outcome.ofExcept_ok, Outcome.ok_bind]
  cases hk : h.kind with
  | invalid => simp [Kind.minBody?]
  | closeRequest => simpa [Kind.minBody?, Kind.isFragment] using hheader
  | openRequest | openDone | closeDone | hostError | functionError =>
    simp only [exists_of_part, hword, Kind.minBody?, Kind.isFragment]
    simp
  | command | commandDone | indication =>
    simp only [exists_of_part, hbody (by rw [hk]; rfl), Kind.minBody?, Kind.isFragment]
    simp only [Option.some.injEq, exists_eq_left', forall_const]
    refine ⟨fun hread => ⟨?_, hread⟩, And.right⟩
    obtain ⟨p, hp⟩ := hread.1
    exact hmin p hp

/-! ## Checking is reading -/

theorem exists_raw_iff (hh : m.header = .ok h) :
    (∃ b, m.raw = .ok b) ↔ h.length.toNat = m.bytes.length := by
  unfold raw
  rw [hh]
  by_cases hlen : h.length.toNat = m.bytes.length <;> simp [hlen]

/-- A message with a header is valid if the bytes are those that it declares, and the body can be
read. -/
theorem validate_iff_of_header (hh : m.header = .ok h) :
    m.validate = .ok () ↔ h.length.toNat = m.bytes.length ∧ ∃ c, m.contents = .ok c := by
  rw [validate_eq_ok_iff hh, exists_contents_iff hh]
  refine and_congr_right fun hlen => and_congr_right fun hlong => ?_
  refine forall_congr' fun hf => ⟨fun ⟨p, hp⟩ => ⟨⟨p, hp⟩, ?_⟩, fun hread => hread.1⟩
  have := Position.le_of_decode hp
  omega

/-- A message passes the check if all bytes are those that it declares and its body can be read;
reading the body never faults. Bytes are taken for a message in just these cases. -/
theorem validate_iff_readable (b : Bytes) :
    (validate ⟨b⟩ = .ok () ↔ (∃ all, raw ⟨b⟩ = .ok all) ∧ ∃ c, contents ⟨b⟩ = .ok c) ∧
      (contents ⟨b⟩).isFault = false ∧
      ∀ m, parse b = .ok m ↔ m = ⟨b⟩ ∧ ∃ h c, Header.decode b = .ok h ∧
        h.length.toNat = b.length ∧ contents ⟨b⟩ = .ok c := by
  have hparse : ∀ m, parse b = .ok m ↔ m = ⟨b⟩ ∧ validate ⟨b⟩ = .ok () := by
    intro m
    unfold parse
    cases validate ⟨b⟩ with
    | error e => simp [Except.map]
    | ok u => simp [Except.map, eq_comm]
  cases hh : header ⟨b⟩ with
  | error e =>
    have hdecode : Header.decode b = .error e := hh
    refine ⟨?_, isFault_contents _, ?_⟩
    · simp [validate, raw, hh]
    · simp [hparse, validate, hh, hdecode]
  | ok h =>
    have hdecode : Header.decode b = .ok h := hh
    refine ⟨?_, isFault_contents _, ?_⟩
    · rw [validate_iff_of_header hh, exists_raw_iff hh]
    · intro m
      rw [hparse, validate_iff_of_header hh]
      simp [hdecode]

end Message

end Mbim
