import Mbim.Message.Dump
import Mbim.Proofs.Reassembler.Slice
import Mbim.Proofs.Series.Reachable
import Mbim.Proofs.Split.Pieces
import Mbim.Stream.Codec

/-!
# Where faults are

Untrusted bytes lead to no fault in reading, dumping, splitting, decoding, encoding and
reassembling. What faults are the operations that take the position of a message for granted, and
these just where the header is of a kind without one.

Checking a message and taking bytes for one (`Message.validate`, `Message.parse`) answer with
`Except`: they have no fault to reach.

* `Message.isFault_dump`, `Message.isFault_split`, `Message.exists_messages_of_split`: messages, and
  the fragments that one is split into.
* `Codec.isFault_decode`, `Codec.isFault_decodeEnd`, `Codec.isFault_encode`: the ends of a stream.
* `Reassembler.Sound.isFault_push`, `Reassembler.Sound.isFault_sweep`: sound reassemblers.
* `faults_iff_lacksPosition`: all of them, with the operations that can fault.
-/

namespace Mbim

namespace Message

variable {ε : Type}

/-- A dump shows a body that cannot be read, too. -/
theorem isFault_dump (m : Message) : (m.dump : Outcome ε Dump).isFault = false := by
  have hlines : (m.bodyLines : Outcome ε (List String)).isFault = false := by
    have hcontents := m.isFault_contents
    unfold bodyLines
    cases hc : m.contents with
    | ok contents => rfl
    | error e => rfl
    | fault f => rw [hc] at hcontents; cases hcontents
  unfold dump
  cases m.header with
  | error e => rfl
  | ok h =>
    by_cases hk : h.kind = .invalid
    · simp [hk]
    · rw [← Bool.not_eq_true]
      simp [hk, Outcome.isFault_bind_iff, hlines]

/-- Splitting leaves no byte of the payload, and makes at least one fragment. -/
theorem isFault_splitWithin (m : Message) (limit : Limit) :
    (m.splitWithin limit).isFault = false := by
  have hsplitting := m.splitting limit
  generalize m.splitWithin limit = result at hsplitting ⊢
  cases hsplitting <;> rfl

theorem split_cases (m : Message) (n : Nat) :
    (∃ e, m.split n = .error e) ∨ ∃ limit, m.split n = m.splitWithin limit := by
  unfold split
  cases Limit.ofNat? n with
  | none => exact .inl ⟨_, rfl⟩
  | some limit => exact .inr ⟨limit, rfl⟩

theorem isFault_split (m : Message) (n : Nat) : (m.split n).isFault = false := by
  obtain ⟨e, hs⟩ | ⟨limit, hs⟩ := m.split_cases n
  · rw [hs]
    rfl
  · rw [hs]
    exact m.isFault_splitWithin limit

theorem exists_messages_of_split {m : Message} {n : Nat} {batch : Batch}
    (h : m.split n = .ok (some batch)) :
    ∃ ms, batch.toMessages = .ok ms ∧ batch.encode = (ms.map Message.bytes).flatten := by
  obtain ⟨e, hs⟩ | ⟨limit, hs⟩ := m.split_cases n
  · rw [h] at hs
    cases hs
  · have hsplitting := m.splitting limit
    rw [← hs, h] at hsplitting
    cases hsplitting with
    | pieces _ _ _ sends => exact ⟨_, sends.messages, sends.encode⟩

end Message

namespace Codec

/-- A frame is taken off when it is whole, never before. -/
theorem isFault_decode (c : Codec) (b : Bytes) : (c.decode b).result.isFault = false := by
  unfold decode
  cases c.declaredLength b with
  | error e => rfl
  | ok found =>
    cases found with
    | none => rfl
    | some length =>
      dsimp only
      by_cases hlt : b.length < length
      · rw [if_pos hlt]
        rfl
      · rw [if_neg hlt, takeFrame, if_pos (Nat.not_lt.mp hlt)]
        cases Message.parse (b.take length) <;> rfl

theorem isFault_decodeEnd (c : Codec) (b : Bytes) : (c.decodeEnd b).result.isFault = false := by
  have hdecode := c.isFault_decode b
  unfold decodeEnd
  split
  · rfl
  · dsimp only
    split
    · rfl
    · exact hdecode

theorem isFault_encode (c : Codec) (m : Message) (b : Bytes) :
    (c.encode m b).result.isFault = false := by
  have hsplit := m.isFault_splitWithin c.limit
  unfold encode
  cases m.validate with
  | error e => rfl
  | ok u =>
    cases hs : m.splitWithin c.limit with
    | error e => rfl
    | fault f => rw [hs] at hsplit; cases hsplit
    | ok split =>
      cases split with
      | some batch => rfl
      | none => cases m.raw <;> rfl

end Codec

namespace Reassembler

variable {r : Reassembler} {ε : Type}

/-- The number of fragments of every partial message that expires can be told. -/
theorem Sound.isFault_sweep (hs : r.Sound) (now : Nat) :
    (r.sweep now : Step Reassembler (Outcome ε (List UInt32))).result.isFault = false := by
  rw [hs.sweep_result now]
  rfl

/-- A push asks for the position of a message only if it has a key. -/
theorem Sound.isFault_push (hs : r.Sound) (m : Message) (now : Nat) :
    (r.push m now).result.isFault = false := by
  rw [hs.push_eq]
  show ((r.live now).accept m now).result.isFault = false
  cases hk : m.key? with
  | none =>
    obtain ⟨hd, -, ha⟩ | ⟨e, -, ha⟩ := accept_of_key?_eq_none (r := r.live now) hk now
    all_goals rw [ha]; rfl
  | some k =>
    have haccepted := (hs.live now).accepted hk now
    generalize ((r.live now).accept m now).result = result,
      ((r.live now).accept m now).next = next at haccepted ⊢
    cases haccepted <;> rfl

end Reassembler

/-- Whatever the bytes, the limits and the history: reading and dumping a message, splitting it by
any number and sending the fragments, the stream codec and the reassembler do not fault. The
position and the payload of a message, and a series that is started with it or takes it, fault if
and only if the message has a header of a kind without fragments. -/
theorem faults_iff_lacksPosition {limit : Limit} {timeout : Nat} {r : Reassembler}
    (hr : Reassembler.Reachable limit timeout r) {s : Series} (hs : s.Reachable) {ε : Type}
    (c : Codec) (m : Message) (b : Bytes) (n now : Nat) :
    (m.contents.isFault = false ∧ (m.dump : Outcome ε Dump).isFault = false) ∧
      ((m.split n).isFault = false ∧ ∀ batch, m.split n = .ok (some batch) →
        ∃ ms, batch.toMessages = .ok ms ∧ batch.encode = (ms.map Message.bytes).flatten) ∧
      ((c.encode m b).result.isFault = false ∧ (c.decode b).result.isFault = false ∧
        (c.decodeEnd b).result.isFault = false) ∧
      ((r.push m now).result.isFault = false ∧
        (r.sweep now : Step Reassembler (Outcome ε (List UInt32))).result.isFault = false) ∧
      (m.position.isFault ↔ m.LacksPosition) ∧ (m.payload.isFault ↔ m.LacksPosition) ∧
      ((Series.ofFirst m).isFault ↔ m.LacksPosition) ∧
      ((Series.start m).isFault ↔ m.LacksPosition) ∧
      ((s.add m).isFault ↔ m.LacksPosition) ∧ ((s.push m).isFault ↔ m.LacksPosition) := by
  have hfirst := Series.taking_ofFirst m
  have hadd := hs.shaped.taking_add m
  refine ⟨⟨m.isFault_contents, m.isFault_dump⟩,
    ⟨m.isFault_split n, fun batch hb => Message.exists_messages_of_split hb⟩,
    ⟨c.isFault_encode m b, c.isFault_decode b, c.isFault_decodeEnd b⟩,
    ⟨hr.sound.isFault_push m now, hr.sound.isFault_sweep now⟩, ?_⟩
  exact ⟨Message.isFault_position_iff, Message.isFault_payload_iff, hfirst.isFault_iff,
    hfirst.isFault_finish_iff, hadd.isFault_iff, hadd.isFault_finish_iff⟩

/-- A message without a position, a reassembler whose one partial message is overdue, and the series
of that partial message. -/
theorem faults_iff_lacksPosition_overdue :
    let first := Key.fragment ⟨.command, 7⟩ ⟨2, 0⟩ [1]
    let r := ((Reassembler.new ⟨64, by decide⟩ 100).push first 0).next
    let s := Key.series ⟨.command, 7⟩ ⟨2, 0⟩ [1]
    let m := Message.closeRequest 7
    Reassembler.Reachable ⟨64, by decide⟩ 100 r ∧ s.Reachable ∧ r.size = 1 ∧
      (r.push m 200).result.isFault = false ∧ m.position.isFault ∧ (Series.start m).isFault ∧
      (s.add m).isFault ∧ (s.push first).isFault = false := by
  intro first r s m
  have hr : Reassembler.Reachable ⟨64, by decide⟩ 100 r := .step .new (.push first 0)
  have hs : s.Reachable := .first (m := first) (by decide)
  have hlacks : m.LacksPosition := ⟨_, rfl, rfl⟩
  have hplaced : ¬ first.LacksPosition := Message.not_lacksPosition (h := ⟨.command, 21, 7⟩) rfl rfl
  obtain ⟨-, -, -, ⟨hpush, -⟩, hposition, -, -, hstart, hadd, -⟩ :=
    faults_iff_lacksPosition hr hs (ε := Empty) ⟨⟨64, by decide⟩⟩ m [] 0 200
  obtain ⟨-, -, -, -, -, -, -, -, -, hagain⟩ :=
    faults_iff_lacksPosition hr hs (ε := Empty) ⟨⟨64, by decide⟩⟩ first [] 0 200
  refine ⟨hr, hs, by decide, hpush, hposition.mpr hlacks, hstart.mpr hlacks, hadd.mpr hlacks, ?_⟩
  rw [← Bool.not_eq_true, hagain]
  exact hplaced

end Mbim
