import Mbim.Proofs.Reassembler.Conservation
import Mbim.Proofs.Split.Tiling
import Mbim.Proofs.Stream.RoundTrip

/-!
# What the two ends count

The end that writes counts the fragments of the messages that it splits. The end that reads counts
these fragments again, and the messages of fragment kinds that were left whole; and it counts each
message that was split once more, when it is put together. Neither end counts anything else.

* `Codec.Sent`: an accepted message goes out whole, or in two fragments or more, which are counted;
  `Codec.counts_encodeAll`: all messages.
* `Reassembler.tally_fragments`: what all fragments of one series count, at one clock reading.
* `Receiver.tally_accepted`, `Receiver.tally_pieces`: what the pieces of one accepted message count,
  and of many.
* `Receiver.counts_agree`: the two ends of a link.
-/

namespace Mbim

namespace Codec

variable {c : Codec} {m : Message}

/-! ## The sending end -/

/-- Whether a message is split. -/
def splits (c : Codec) (m : Message) : Bool :=
  match m.splitWithin c.limit with
  | .ok (some _) => true
  | _ => false

/-- The pieces in which a message goes out, and what is counted: nothing if it fits, else the
fragments, of which there are at least two. -/
inductive Sent (c : Codec) (m : Message) : List Message → Counts → Prop
  | whole (whole : c.splits m = false) (fits : m.bytes.length ≤ c.limit.bytes) : Sent c m [m] 0
  | split {ms : List Message} (split : c.splits m = true) (fragment : m.isFragment)
    (exceeds : c.limit.bytes < m.bytes.length) (several : 1 < ms.length)
    (count : ms.length = (m.bytes.length - overhead) ⌈/⌉ (c.limit.bytes - overhead)) :
    Sent c m ms (.single .outbound ms.length)

theorem sent (haccepted : (c.encode m []).result = .ok ()) (b : Bytes) :
    c.Sent m (c.pieces m) (c.encode m b).report.counts := by
  obtain ⟨hv, ms, -, -, hgiven⟩ := exists_pieces haccepted
  obtain ⟨h, hh, hheld⟩ := Message.exists_header hv
  rw [pieces_eq hgiven]
  obtain ⟨hwhole, rfl⟩ | ⟨batch, hsplit, hmessages⟩ := hgiven
  · have hle : m.bytes.length ≤ c.limit.bytes := hheld ▸ Message.le_of_splitWithin hh hwhole
    rw [(encode_message hv hle b).2]
    exact .whole (by simp [splits, hwhole]) hle
  · have hs : m.split c.limit.bytes = .ok (some batch) :=
      (m.split_of_pos c.limit.pos).trans hsplit
    obtain ⟨h', hh', hf, hroom, hexceeds, hlen, -⟩ := Message.exists_cut_of_split hs
    rw [hh] at hh'
    cases hh'
    have hfragment : m.isFragment :=
      Message.isFragment_iff.mpr ⟨h.key, Message.key?_of_header hh hf⟩
    have hpayload : m.payloadBytes.length = m.bytes.length - overhead := by omega
    obtain ⟨hcount, htwo⟩ := Message.length_of_split hs
    have hcounts : (c.encode m b).report.counts = .single .outbound batch.length := by
      simp [encode, hv, hsplit, written]
    rw [← Batch.length_toMessages hmessages] at hcount htwo hcounts
    rw [hpayload] at hcount
    rw [hcounts]
    exact .split (by simp [splits, hsplit]) hfragment (by omega) htwo hcount

/-- The fragments that messages beyond the transfer size need: as many as there are slices of their
payloads, rounded up. -/
def needed (c : Codec) (ms : List Message) : Nat :=
  ((ms.filter fun m => c.limit.bytes < m.bytes.length).map fun m =>
    (m.bytes.length - overhead) ⌈/⌉ (c.limit.bytes - overhead)).sum

namespace Sent

variable {pieces : List Message} {counts : Counts}

theorem counts_eq (h : c.Sent m pieces counts) :
    counts = .single .outbound (if c.splits m then pieces.length else 0) := by
  cases h with
  | whole whole =>
    rw [whole]
    rfl
  | split split =>
    rw [split]
    rfl

/-- The messages beyond the transfer size are those that are split, and need all their pieces. -/
theorem needed_cons (h : c.Sent m pieces counts) (ms : List Message) :
    c.needed (m :: ms) = (if c.splits m then pieces.length else 0) + c.needed ms := by
  unfold needed
  cases h with
  | whole whole fits =>
    rw [List.filter_cons_of_neg (by simpa using fits), whole]
    exact (Nat.zero_add _).symm
  | split split _ exceeds _ count =>
    rw [List.filter_cons_of_pos (by simpa using exceeds), List.map_cons, List.sum_cons, ← count,
      split]
    rfl

theorem toNat_splits (h : c.Sent m pieces counts) :
    (c.splits m).toNat = if 1 < pieces.length then 1 else 0 := by
  cases h with
  | whole whole =>
    rw [whole]
    rfl
  | split split _ _ several =>
    rw [split, if_pos several]
    rfl

/-- The pieces with a position are those of a message that is split, and messages of fragment kinds
that are left whole. -/
theorem positioned (h : c.Sent m pieces counts) :
    (if m.isFragment then pieces.length else 0) =
      (if c.splits m then pieces.length else 0) +
        if m.isFragment && !c.splits m then 1 else 0 := by
  cases h with
  | whole whole =>
    rw [whole]
    cases m.isFragment <;> rfl
  | split split fragment =>
    rw [split, fragment]
    rfl

end Sent

theorem counts_encodeAll {ms : List Message}
    (haccepted : ∀ m ∈ ms, (c.encode m []).result = .ok ()) (b : Bytes) :
    (c.encodeAll ms b).report.counts = .single .outbound (c.needed ms) := by
  induction ms generalizing b with
  | nil => rfl
  | cons m ms ih =>
    obtain ⟨hm, hms⟩ := List.forall_mem_cons.mp haccepted
    have hsent := sent hm b
    simp only [encodeAll, Report.counts_append]
    rw [ih hms, hsent.counts_eq, Counts.single_add_single, hsent.needed_cons]

end Codec

namespace Reassembler

variable {limit : Limit} {timeout : Nat} {k : Key}

/-! ## The fragments of one series -/

theorem tally_push {r : Reassembler} {m : Message} {now : Nat}
    {settled : Step Reassembler (Outcome PushError (Option Message))}
    (hpush : r.push m now = settled.after (expiries [])) (ops : List Op) :
    tally (r.run (.push m now :: ops)).1 =
      settled.report.counts + tally (settled.next.run ops).1 := by
  have hsweep : (expiries [] ++ settled.report).counts = settled.report.counts :=
    Counts.zero_add _
  rw [tally_cons]
  simp only [step, hpush, Step.after, hsweep]

/-- A series that was settled and gets its remaining fragments at the same clock reading. -/
theorem tally_settle_fragments (htimeout : 0 < timeout) (now : Nat) {total i : UInt32}
    {payload : Bytes} {ms : List Message} {payloads : List Bytes}
    (hms : Fragments k total (i.toNat + 1) ms payloads)
    (hcap : overhead + (payload ++ payloads.flatten).length ≤ limit.bytes)
    (hword : overhead + (payload ++ payloads.flatten).length < wordBound) :
    ((new limit timeout).settle ⟨k, k.series ⟨total, i⟩ payload, now⟩).report.counts +
        tally (((new limit timeout).settle ⟨k, k.series ⟨total, i⟩ payload, now⟩).next.run
          (ms.map fun m => .push m now)).1 =
      .single .inbound (ms.length + 1) +
        .single .reassembled (if 1 < total.toNat then 1 else 0) := by
  induction ms generalizing i payload payloads with
  | nil =>
    cases hms with
    | nil index =>
      rw [List.flatten_nil, List.append_nil] at hcap
      rw [settle_of_last hcap index]
      have hseveral : 1 < total ↔ 1 < total.toNat := UInt32.lt_iff_toNat_lt
      by_cases hone : 1 < total.toNat
      · rw [if_pos (hseveral.mpr hone), if_pos hone]
        rfl
      · rw [if_neg (mt hseveral.mp hone), if_neg hone]
        rfl
  | cons m ms ih =>
    have hlen := hms.add_length
    rw [List.length_cons] at hlen
    have hinc : i.toNat + 1 < total.toNat := by omega
    cases hms with
    | cons index carries rest =>
      rename_i j more payloads
      rw [List.flatten_cons, ← List.append_assoc] at hcap hword
      have hcap' : overhead + payload.length ≤ limit.bytes := by
        simp only [List.length_append] at hcap
        omega
      have hword' : overhead + (payload ++ more).length < wordBound := by
        rw [List.length_append] at hword
        omega
      have hintime : now - now < timeout := by rwa [Nat.sub_self]
      have hpush := push_keep_new ⟨total, i⟩ carries hinc index hintime hcap' hword'
      rw [expired_eq_nil (live_keep_new hintime)] at hpush
      have hlater := ih (index ▸ rest) hcap hword
      rw [settle_of_pending hcap' (Nat.ne_of_lt hinc), List.map_cons, tally_push hpush, hlater,
        ← Counts.add_assoc]
      show Counts.single .inbound 1 + Counts.single .inbound _ + _ = _
      rw [Counts.single_add_single, Nat.add_comm 1, List.length_cons]

/-- All fragments of one series at one clock reading are counted, and the message if they are more
than one. -/
theorem tally_fragments (htimeout : 0 < timeout) (now : Nat) {total : UInt32} {ms : List Message}
    {payloads : List Bytes} (hms : Fragments k total 0 ms payloads) (hne : ms ≠ [])
    (hcap : overhead + payloads.flatten.length ≤ limit.bytes)
    (hword : overhead + payloads.flatten.length < wordBound) :
    tally ((new limit timeout).run (ms.map fun m => .push m now)).1 =
      .single .inbound ms.length + .single .reassembled (if 1 < ms.length then 1 else 0) := by
  have hlen := hms.add_length
  rw [Nat.zero_add] at hlen
  rw [hlen]
  cases hms with
  | nil => exact absurd rfl hne
  | cons index carries rest =>
    have hpush := push_new limit timeout carries (UInt32.toNat_inj.mp index) now
    rw [expired_eq_nil (live_new now)] at hpush
    rw [List.map_cons, tally_push hpush,
      tally_settle_fragments htimeout now (index ▸ rest) hcap hword, ← hlen, List.length_cons]

theorem tally_passing {m : Message} (hk : m.key? = none) (now : Nat) :
    tally ((new limit timeout).run [.push m now]).1 = 0 := by
  show ((new limit timeout).push m now).report.counts + 0 = 0
  rw [(sound_new limit timeout).push_eq, expired_eq_nil (live_new now), live_new]
  obtain ⟨hd, -, ha⟩ | ⟨e, -, ha⟩ := accept_of_key?_eq_none (r := new limit timeout) hk now
  · rw [ha]
    rfl
  · rw [ha]
    rfl

theorem counts_deliver_messages (now : Nat) (r : Reassembler) (ms : List Message) :
    (r.deliver now (ms.map fun m => ⟨.ok m, ∅⟩)).report.counts =
      tally (r.run (ms.map fun m => .push m now)).1 := by
  induction ms generalizing r with
  | nil => rfl
  | cons m ms ih =>
    rw [List.map_cons, List.map_cons, tally_cons]
    simp only [deliver, Report.empty_append, Report.counts_append, ih]
    rfl

end Reassembler

/-- A stream of valid messages within the transfer size brings these, and is used up. -/
theorem Reader.readAll_messages {c : Codec} {ms : List Message}
    (hms : ∀ m ∈ ms, m.validate = .ok () ∧ m.bytes.length ≤ c.limit.bytes) {chunks : List Bytes}
    (hchunks : chunks.flatten = (ms.map Message.bytes).flatten) :
    (new c).readAll chunks = (ms.map fun m => ⟨.ok m, ∅⟩, new c) := by
  have hend : c.drain true [] = ⟨[], [], false⟩ := Codec.drain_of_waiting true rfl
  have hdrain := c.drain_append true (ms.map Message.bytes).flatten []
  rw [Codec.drain_messages hms, Drained.resume, List.append_nil, List.append_nil] at hdrain
  rw [readAll_eq_finish, hchunks]
  simp only [new, finish, advance, Bool.false_eq_true, ↓reduceIte, List.nil_append, hdrain, hend,
    List.append_nil]

namespace Receiver

variable {c : Config}

/-! ## The receiving end -/

/-- What the pieces of one accepted message count, pushed at one clock reading. -/
theorem tally_accepted {m : Message} (htimeout : 0 < c.timeout)
    (haccepted : ((Codec.ofConfig c).encode m []).result = .ok ())
    (hrestorable : Restorable c m) (now : Nat) :
    Reassembler.tally ((Reassembler.ofConfig c).run
        (((Codec.ofConfig c).pieces m).map fun x => .push x now)).1 =
      .single .inbound (if m.isFragment then ((Codec.ofConfig c).pieces m).length else 0) +
        .single .reassembled ((Codec.ofConfig c).splits m).toNat := by
  obtain ⟨hv, ms, -, -, hms⟩ := Codec.exists_pieces haccepted
  rw [(Codec.sent haccepted []).toNat_splits, Codec.pieces_eq hms]
  cases hk : m.key? with
  | none =>
    have hfragment : ¬ m.isFragment := by simp [Message.isFragment_iff, hk]
    obtain ⟨-, rfl⟩ | ⟨batch, hsplit, -⟩ := hms
    · rw [if_neg hfragment]
      exact Reassembler.tally_passing hk now
    · obtain ⟨k, hsome⟩ := Message.exists_key?_of_splitWithin hsplit
      rw [hk] at hsome
      cases hsome
  | some k =>
    have hfragment : m.isFragment := Message.isFragment_iff.mpr ⟨k, hk⟩
    obtain ⟨hgiven, hcap, -⟩ := given_of_restorable hv hk hms hrestorable
    obtain ⟨total, parts, hfragments, hne, hlen, hword, -⟩ := hgiven.exists_fragments hv hk
    rw [if_pos hfragment]
    exact Reassembler.tally_fragments htimeout now hfragments hne (hlen ▸ hcap) hword

theorem tally_pieces {ms : List Message} (htimeout : 0 < c.timeout)
    (haccepted : ∀ m ∈ ms, ((Codec.ofConfig c).encode m []).result = .ok ())
    (hrestorable : ∀ m ∈ ms, Restorable c m) (now : Nat) :
    Reassembler.tally ((Reassembler.ofConfig c).run
        ((ms.flatMap (Codec.ofConfig c).pieces).map fun x => .push x now)).1 =
      .single .inbound ((Codec.ofConfig c).needed ms +
          ms.countP fun m => m.isFragment && !(Codec.ofConfig c).splits m) +
        .single .reassembled (ms.countP (Codec.ofConfig c).splits) := by
  induction ms with
  | nil => rfl
  | cons m ms ih =>
    obtain ⟨hm, hms⟩ := List.forall_mem_cons.mp haccepted
    obtain ⟨hmrestorable, hmsrestorable⟩ := List.forall_mem_cons.mp hrestorable
    obtain ⟨hv, pieces, -, -, hgiven⟩ := Codec.exists_pieces hm
    have hend := (run_accepted htimeout hv hgiven hmrestorable now).1
    rw [← Codec.pieces_eq hgiven] at hend
    have hsent := Codec.sent hm []
    rw [List.flatMap_cons, List.map_append, Reassembler.run_append, Reassembler.tally_append, hend,
      tally_accepted htimeout hm hmrestorable, ih hms hmsrestorable, Counts.single_add_single_add,
      hsent.positioned, hsent.needed_cons, List.countP_cons, List.countP_cons, Bool.toNat]
    congr 2
    · omega
    · cases (Codec.ofConfig c).splits m <;> simp [Nat.add_comm]

/-- Whatever one end accepts and writes, and the other gets whole, the counters of the two ends
agree. What is written counts the fragments of the messages beyond the transfer size. What is
received counts these, and the messages of fragment kinds that were left whole; and it counts a
message put together for each one that was split. Nothing else is counted, and no series is
dropped. -/
theorem counts_agree (htimeout : 0 < c.timeout) (now : Nat) {ms : List Message}
    (haccepted : ∀ m ∈ ms, ((Codec.ofConfig c).encode m []).result = .ok ())
    (hrestorable : ∀ m ∈ ms, Restorable c m) {chunks : List Bytes}
    (hchunks : chunks.flatten = ((Codec.ofConfig c).encodeAll ms []).next) :
    let sent := ((Codec.ofConfig c).encodeAll ms []).report.counts
    let received := ((Receiver.ofConfig c).receiveAll now chunks).report.counts
    sent.get .outbound = ((ms.filter fun m => c.maxTransfer.bytes < m.bytes.length).map fun m =>
        (m.bytes.length - overhead) ⌈/⌉ (c.maxTransfer.bytes - overhead)).sum ∧
      (∀ counter, counter ≠ .outbound → sent.get counter = 0) ∧
      received.get .inbound = sent.get .outbound +
        ms.countP (fun m => m.isFragment && !(Codec.ofConfig c).splits m) ∧
      received.get .reassembled = ms.countP (Codec.ofConfig c).splits ∧
      (∀ counter, counter ≠ .inbound → counter ≠ .reassembled → received.get counter = 0) ∧
      ∀ reason, (sent + received).get (.dropped reason) = 0 := by
  intro sent received
  have hsent : sent = .single .outbound ((Codec.ofConfig c).needed ms) :=
    Codec.counts_encodeAll haccepted []
  obtain ⟨hwritten, hvalid⟩ := Codec.encodeAll_pieces haccepted []
  rw [List.nil_append] at hwritten
  have hread := Reader.readAll_messages hvalid (hchunks.trans hwritten)
  have hreceived : received = .single .inbound ((Codec.ofConfig c).needed ms +
      ms.countP fun m => m.isFragment && !(Codec.ofConfig c).splits m) +
        .single .reassembled (ms.countP (Codec.ofConfig c).splits) := by
    show ((Receiver.ofConfig c).receiveAll now chunks).report.counts = _
    rw [receiveAll_eq_deliver, ofConfig, hread, deliver, Reassembler.counts_deliver_messages,
      tally_pieces htimeout haccepted hrestorable]
  have hout (counter) : sent.get counter =
      if counter = .outbound then (Codec.ofConfig c).needed ms else 0 := by
    rw [hsent, Counts.get_single]
  have hin (counter) : received.get counter =
      (if counter = .inbound then (Codec.ofConfig c).needed ms +
        ms.countP (fun m => m.isFragment && !(Codec.ofConfig c).splits m) else 0) +
      if counter = .reassembled then ms.countP (Codec.ofConfig c).splits else 0 := by
    rw [hreceived, Counts.get_add, Counts.get_single, Counts.get_single]
  refine ⟨hout .outbound, fun counter hne => ?_, ?_, ?_, fun counter hinbound hassembled => ?_,
    fun reason => ?_⟩
  · rw [hout, if_neg hne]
  · rw [hin, hout]
    rfl
  · rw [hin]
    exact Nat.zero_add _
  · rw [hin, if_neg hinbound, if_neg hassembled]
  · rw [Counts.get_add, hout, hin]
    rfl

/-- The exchange over the narrow link, in two chunks: three fragments of one message, and a command
that fits. -/
theorem counts_agree_exchange :
    let written := ((Codec.ofConfig narrow).encodeAll exchange []).next
    let sent := ((Codec.ofConfig narrow).encodeAll exchange []).report.counts
    let received := ((Receiver.ofConfig narrow).receiveAll 0
      [written.take 30, written.drop 30]).report.counts
    0 < narrow.timeout ∧ (∀ m ∈ exchange, ((Codec.ofConfig narrow).encode m []).result = .ok ()) ∧
      (∀ m ∈ exchange, Restorable narrow m) ∧ sent.get .outbound = 3 ∧
      received.get .inbound = sent.get .outbound + 1 ∧ received.get .reassembled = 1 ∧
      (∀ counter, counter ≠ .inbound → counter ≠ .reassembled → received.get counter = 0) ∧
      ∀ reason, (sent + received).get (.dropped reason) = 0 := by
  intro written sent received
  have htimeout : 0 < narrow.timeout := by decide
  have haccepted : ∀ m ∈ exchange, ((Codec.ofConfig narrow).encode m []).result = .ok () := by
    decide
  have hrestorable : ∀ m ∈ exchange, Restorable narrow m := by decide
  have hchunks : [written.take 30, written.drop 30].flatten = written := by
    rw [List.flatten_cons, List.flatten_singleton, List.take_append_drop]
  obtain ⟨hsent, -, hreceived, hassembled, hothers, hdropped⟩ :=
    counts_agree (c := narrow) htimeout 0 haccepted hrestorable hchunks
  exact ⟨htimeout, haccepted, hrestorable, hsent, hreceived, hassembled, hothers, hdropped⟩

end Receiver

end Mbim
