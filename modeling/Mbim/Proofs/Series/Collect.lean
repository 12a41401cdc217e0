import Mbim.Proofs.Split.Tiling

/-!
# Splitting and collecting

The fragments of a message, pushed in order on one series, are the message in one piece again. By
which limit it was split plays no part.

* `Series.collect`: what pushing messages on one series comes to, message by message.
* `Series.MakeUp`: all but the last message leave the series pending, and the last one completes it.
* `Series.follow_fragments`, `Series.makeUp_fragments`: all fragments of one series make it up.
* `Message.collect_split`: the fragments that a message is split into.
-/

namespace Mbim

namespace Series

/-! ## Messages on one series -/

/-- Push messages in order while a series is left: what it has come to, and comes to with each
message. -/
def follow : Outcome SeriesError Progress → List Message → List (Outcome SeriesError Progress)
  | now, [] => [now]
  | .ok (.pending s), m :: ms => .ok (.pending s) :: follow (s.push m) ms
  | now, _ :: _ => [now]

/-- Start a series with the first message and push the others: what each of them comes to. -/
def collect : List Message → List (Outcome SeriesError Progress)
  | [] => []
  | m :: ms => follow (start m) ms

/-- The messages make up `whole`: fragments are missing after each of them but the last, with which
`whole` is there. -/
def MakeUp (ms : List Message) (whole : Message) : Prop :=
  ∃ pending : List Series, pending.length + 1 = ms.length ∧
    collect ms = pending.map (fun s => .ok (.pending s)) ++ [.ok (.complete whole)]

theorem MakeUp.getLast? {ms : List Message} {whole : Message} (h : MakeUp ms whole) :
    (collect ms).getLast? = some (.ok (.complete whole)) := by
  obtain ⟨pending, -, hcollect⟩ := h
  rw [hcollect, List.getLast?_append]
  rfl

variable {k : Key} {total : UInt32} {ms : List Message} {payloads : List Bytes}

theorem follow_fragments {i : UInt32} {payload : Bytes}
    (hms : Fragments k total (i.toNat + 1) ms payloads)
    (hword : overhead + (payload ++ payloads.flatten).length < wordBound) :
    ∃ pending : List Series, pending.length = ms.length ∧
      follow (k.series ⟨total, i⟩ payload).finish ms =
        pending.map (fun s => .ok (.pending s)) ++
          [.ok (.complete (k.fragment .single (payload ++ payloads.flatten)))] := by
  induction ms generalizing i payload payloads with
  | nil =>
    cases hms with
    | nil index =>
      rw [finish_series, if_pos index]
      exact ⟨[], rfl, by simp [follow]⟩
  | cons m ms ih =>
    have hlen := hms.add_length
    rw [List.length_cons] at hlen
    have hinc : i.toNat + 1 < total.toNat := by omega
    cases hms with
    | cons index carries rest =>
      rename_i j more payloads
      rw [List.flatten_cons, ← List.append_assoc] at hword ⊢
      have hword' : overhead + (payload ++ more).length < wordBound := by
        rw [List.length_append] at hword
        omega
      have hadd : (k.series ⟨total, i⟩ payload).add m =
          .ok (k.series ⟨total, j⟩ (payload ++ more)) := by
        rw [add_of_carries payload carries rfl hinc index, if_pos hword']
      obtain ⟨pending, hlength, hfollow⟩ := ih (index ▸ rest) hword
      refine ⟨k.series ⟨total, i⟩ payload :: pending, by rw [List.length_cons, hlength]; rfl, ?_⟩
      rw [finish_series, if_neg (Nat.ne_of_lt hinc), follow, push, hadd, Outcome.ok_bind, hfollow]
      rfl

/-- All fragments of one series make up one fragment with the payloads of all. -/
theorem makeUp_fragments (hms : Fragments k total 0 ms payloads) (hne : ms ≠ [])
    (hword : overhead + payloads.flatten.length < wordBound) :
    MakeUp ms (k.fragment .single payloads.flatten) := by
  cases hms with
  | nil => exact absurd rfl hne
  | @cons _ i m payload ms payloads index carries rest =>
    obtain ⟨pending, hlength, hfollow⟩ := follow_fragments (index ▸ rest) hword
    refine ⟨pending, by rw [List.length_cons, hlength], ?_⟩
    have hfirst := ofFirst_of_carries carries (UInt32.toNat_inj.mp index)
    rw [collect, start, hfirst, Outcome.ok_bind, hfollow]
    rfl

end Series

namespace Message

/-! ## The fragments of a message -/

theorem fragment_of_header {h : Header} {payload : Bytes}
    (hlen : overhead + payload.length = h.length.toNat) (p : Position) :
    h.key.fragment p payload = ⟨h.encode ++ p.encode ++ payload⟩ := by
  rw [Key.fragment, hlen, UInt32.ofNat_toNat]
  rfl

theorem eq_of_validate_single {m : Message} {h : Header} (hh : m.header = .ok h)
    (hf : h.kind.isFragment) (hv : m.validate = .ok ()) (hsingle : m.position = .ok .single) :
    ⟨h.encode ++ Position.single.encode ++ m.payloadBytes⟩ = m := by
  have hk := key?_of_header hh hf
  obtain ⟨p, payload, hm, hc⟩ := exists_of_validate hv hk
  obtain rfl : p = .single := by
    rw [hc.position] at hsingle
    exact Outcome.ok.inj hsingle
  have hlen : overhead + payload.length = h.length.toNat := by
    rw [(of_validate hv hh).1, hm, Key.length_fragment]
  rw [← hc.payload_eq, ← fragment_of_header hlen]
  exact hm.symm

/-- The fragments that a message is split into make up one fragment with its header and payload. -/
theorem makeUp_of_split {m : Message} {n : Nat} {batch : Batch}
    (hs : m.split n = .ok (some batch)) :
    ∃ h ms, m.header = .ok h ∧ h.kind.isFragment ∧ batch.toMessages = .ok ms ∧
      Series.MakeUp ms ⟨h.encode ++ Position.single.encode ++ m.payloadBytes⟩ := by
  obtain ⟨h, hh, hf, hroom, -, hlen, -⟩ := exists_cut_of_split hs
  have hword : overhead + m.payloadBytes.length < wordBound :=
    Nat.lt_of_le_of_lt (Nat.le_of_eq hlen) h.length.toNat_lt
  have hn : 0 < n := Nat.zero_lt_of_lt hroom
  have hsplitting := m.splitting ⟨n, hn⟩
  rw [← split_of_pos m hn, hs] at hsplitting
  cases hsplitting with
  | pieces header _ _ sends nonempty payload =>
    rw [hh] at header
    cases header
    have hpayload := payload_eq_payloadBytes (key?_of_header hh hf) payload
    have hmakeUp := Series.makeUp_fragments sends.fragments nonempty (hpayload ▸ hword)
    rw [hpayload, fragment_of_header hlen] at hmakeUp
    exact ⟨h, _, hh, hf, sends.messages, hmakeUp⟩

/-- The fragments that a message is split into make up what it declares, in one piece: with any
limit, and also if the message is malformed. A valid message in one piece is what they make up. -/
theorem collect_split {m : Message} {n : Nat} {batch : Batch} (hs : m.split n = .ok (some batch)) :
    ∃ h ms whole, m.header = .ok h ∧ batch.toMessages = .ok ms ∧
      whole = ⟨h.encode ++ Position.single.encode ++
        (m.bytes.take h.length.toNat).drop overhead⟩ ∧
      Series.MakeUp ms whole ∧
      (∀ n' batch' ms', m.split n' = .ok (some batch') → batch'.toMessages = .ok ms' →
        Series.MakeUp ms' whole ∧ (Series.collect ms').getLast? = (Series.collect ms).getLast?) ∧
      (m.validate = .ok () → m.position = .ok .single → whole = m) := by
  obtain ⟨h, ms, hh, hf, hms, hmakeUp⟩ := makeUp_of_split hs
  refine ⟨h, ms, _, hh, hms, by rw [payloadBytes_of_header hh], hmakeUp, ?_,
    eq_of_validate_single hh hf⟩
  intro n' batch' ms' hs' hms'
  obtain ⟨h', found, hh', -, hfound, hmakeUp'⟩ := makeUp_of_split hs'
  rw [hh] at hh'
  cases hh'
  rw [hms'] at hfound
  cases hfound
  exact ⟨hmakeUp', hmakeUp'.getLast?.trans hmakeUp.getLast?.symm⟩

/-- A command with an index that is not below its total and a byte behind its declared length, by 22
bytes and by 24: three fragments, and two, make up the same command in one piece, without that
byte. -/
theorem collect_split_trailing :
    let m : Message := ⟨(Key.fragment ⟨.command, 7⟩ ⟨1, 4⟩ [1, 2, 3, 4, 5]).bytes ++ [6]⟩
    let batch : Batch :=
      [⟨⟨.command, 22, 7⟩, ⟨3, 0⟩, [1, 2]⟩, ⟨⟨.command, 22, 7⟩, ⟨3, 1⟩, [3, 4]⟩,
        ⟨⟨.command, 21, 7⟩, ⟨3, 2⟩, [5]⟩]
    let other : Batch :=
      [⟨⟨.command, 24, 7⟩, ⟨2, 0⟩, [1, 2, 3, 4]⟩, ⟨⟨.command, 21, 7⟩, ⟨2, 1⟩, [5]⟩]
    let whole : Message := Key.fragment ⟨.command, 7⟩ .single [1, 2, 3, 4, 5]
    m.split 22 = .ok (some batch) ∧ m.split 24 = .ok (some other) ∧
      (∃ ms, batch.toMessages = .ok ms ∧ Series.MakeUp ms whole) ∧
      ∀ ms, other.toMessages = .ok ms → Series.MakeUp ms whole := by
  intro m batch other whole
  have hs : m.split 22 = .ok (some batch) := by decide
  have ho : m.split 24 = .ok (some other) := by decide
  obtain ⟨h, ms, found, hh, hms, hfound, hmakeUp, hagain, -⟩ := collect_split hs
  obtain rfl : found = whole := by
    rw [hfound]
    cases hh
    rfl
  exact ⟨hs, ho, ⟨ms, hms, hmakeUp⟩, fun ms' hms' => (hagain 24 other ms' ho hms').1⟩

end Message

end Mbim
