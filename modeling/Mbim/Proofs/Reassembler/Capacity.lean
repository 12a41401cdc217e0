import Mathlib.Data.Nat.Find
import Mbim.Proofs.Reassembler.Recovery
import Mbim.Proofs.Split.Tiling

/-!
# The size cap

The fragments of a message are pushed in order, at one clock reading. The message is put together if
and only if it is within the size cap, whatever it was split by. Else its series ends with the
fragment that exceeds the cap, and the fragments behind that one start no other.

* `gathered`, `BreaksAt`: the size of a series, and the first fragment that exceeds the cap.
* `cappedAnswer`: what the pushes answer then.
* `Reassembler.run_late`, `Reassembler.run_settle_breaks`, `Reassembler.run_exceeding`: the pushes
  behind that fragment, the pushes from some index on, and all of them.
* `Reassembler.Reachable.run_split`: any message, however it was split.
-/

namespace Mbim

/-- The size of the series with the fragments up to the index `i`. -/
def gathered (ms : List Message) (i : Nat) : Nat :=
  overhead + ((ms.take (i + 1)).flatMap Message.payloadBytes).length

/-- The fragment with the index `j` is the first with which the series exceeds the cap. -/
structure BreaksAt (limit : Limit) (ms : List Message) (j : Nat) : Prop where
  index : j < ms.length
  exceeds : limit.bytes < gathered ms j
  first : ∀ i < j, gathered ms i ≤ limit.bytes

/-- The size with the fragments up to `i` does not depend on those behind it. -/
theorem gathered_append {taken : List Message} {i : Nat} (h : taken.length = i + 1)
    (ms : List Message) :
    gathered (taken ++ ms) i = overhead + (taken.flatMap Message.payloadBytes).length := by
  rw [gathered, List.take_left' h]

theorem exists_breaksAt {limit : Limit} {ms : List Message} {last : Nat} (hlast : last < ms.length)
    (h : limit.bytes < gathered ms last) : ∃ j, BreaksAt limit ms j := by
  have hex : ∃ j, limit.bytes < gathered ms j := ⟨last, h⟩
  refine ⟨Nat.find hex, ?_, Nat.find_spec hex, fun i hi => Nat.not_lt.mp (Nat.find_min hex hi)⟩
  exact Nat.lt_of_le_of_lt (Nat.find_min' hex h) hlast

theorem Fragments.flatten_eq {k : Key} {total : UInt32} {n : Nat} {ms : List Message}
    {payloads : List Bytes} (h : Fragments k total n ms payloads) :
    payloads.flatten = ms.flatMap Message.payloadBytes := by
  induction h with
  | nil => rfl
  | cons index carries rest ih => rw [List.flatten_cons, List.flatMap_cons, carries.payload_eq, ih]

namespace Reassembler

/-- What the push of the fragment with the index `i` answers, of `total`, if the series exceeds the
cap with the one with the index `j`. -/
def cappedAnswer (limit : Limit) (k : Key) (total : UInt32) (j attempted i : Nat) : Answer :=
  if i < j then .pushed (.ok none)
  else if i = j then .pushed (.error (.tooLarge k.transaction attempted limit))
  else .pushed (.error (.fragment (.outOfSequence ⟨total, 0⟩ ⟨total, UInt32.ofNat i⟩)))

variable {limit : Limit} {timeout : Nat} {k : Key} {total : UInt32} {j : Nat}

theorem push_late (limit : Limit) (timeout : Nat) {m : Message} {p : Position} {payload : Bytes}
    (hc : m.Carries k p payload) (hp : p.current ≠ 0) (now : Nat) :
    ((new limit timeout).push m now).result =
        .error (.fragment (.outOfSequence ⟨p.total, 0⟩ p)) ∧
      ((new limit timeout).push m now).next = new limit timeout := by
  rw [(sound_new limit timeout).push_eq, live_new, accept_of_find?_eq_none hc.key rfl, without_new]
  unfold launch
  rw [Series.ofFirst_of_ne_zero hc.position hp]
  exact ⟨rfl, rfl⟩

/-- The fragments behind the one that exceeds the cap are refused one by one. -/
theorem run_late (limit : Limit) (timeout now attempted : Nat) {n : Nat} {ms : List Message}
    {payloads : List Bytes} (hms : Fragments k total n ms payloads) (hj : j < n) :
    let run := (new limit timeout).run (ms.map fun m => .push m now)
    run.2 = new limit timeout ∧
      run.1.map Prod.fst =
        (List.range' n ms.length).map (cappedAnswer limit k total j attempted) := by
  induction hms with
  | nil => exact ⟨rfl, rfl⟩
  | @cons n i m payload ms payloads index carries rest ih =>
    obtain ⟨hlater, hanswers⟩ := ih (Nat.lt_succ_of_lt hj)
    have hi : i ≠ 0 := by
      rintro rfl
      exact absurd index (Nat.ne_of_lt (Nat.zero_lt_of_lt hj))
    obtain ⟨hresult, hnext⟩ := push_late limit timeout carries hi now
    have hanswer : cappedAnswer limit k total j attempted n =
        .pushed (.error (.fragment (.outOfSequence ⟨total, 0⟩ ⟨total, i⟩))) := by
      unfold cappedAnswer
      rw [if_neg (by omega), if_neg (by omega), ← index, UInt32.ofNat_toNat]
    rw [List.map_cons, run_cons]
    simp only [step, hnext, hresult, List.map_cons, hanswers, List.length_cons, List.range'_succ,
      hanswer, and_true]
    exact hlater

/-- The fragment with the index `i` exceeds the cap, and others come behind it. -/
theorem run_settle_exceeding (now : Nat) {i : UInt32} {payload : Bytes} {ms : List Message}
    {payloads : List Bytes} (hms : Fragments k total (i.toNat + 1) ms payloads)
    (hexceeds : limit.bytes < overhead + payload.length) :
    let s := (new limit timeout).settle ⟨k, k.series ⟨total, i⟩ payload, now⟩
    let later := s.next.run (ms.map fun m => .push m now)
    later.2 = new limit timeout ∧
      .pushed s.result :: later.1.map Prod.fst =
        (List.range' i.toNat (ms.length + 1)).map
          (cappedAnswer limit k total i.toNat (overhead + payload.length)) := by
  have hanswer : cappedAnswer limit k total i.toNat (overhead + payload.length) i.toNat =
      .pushed (.error (.tooLarge k.transaction (overhead + payload.length) limit)) := by
    unfold cappedAnswer
    rw [if_neg (Nat.lt_irrefl _), if_pos rfl]
  obtain ⟨hlater, hanswers⟩ := run_late limit timeout now (overhead + payload.length) hms
    (Nat.lt_succ_self i.toNat)
  rw [settle_of_oversized hexceeds, List.range'_succ, List.map_cons, hanswer, ← hanswers]
  exact ⟨hlater, rfl⟩

/-- A series that was settled with the fragments `taken`, of which none but the last may exceed the
cap, and the fragments behind them. -/
theorem run_settle_breaks (htimeout : 0 < timeout) (now : Nat) {i : UInt32}
    {taken ms : List Message} {payloads : List Bytes}
    (hms : Fragments k total (i.toNat + 1) ms payloads) (htaken : taken.length = i.toNat + 1)
    (hj : BreaksAt limit (taken ++ ms) j) (hi : i.toNat ≤ j)
    (hword : overhead + ((taken ++ ms).flatMap Message.payloadBytes).length < wordBound) :
    let s := (new limit timeout).settle
      ⟨k, k.series ⟨total, i⟩ (taken.flatMap Message.payloadBytes), now⟩
    let later := s.next.run (ms.map fun m => .push m now)
    later.2 = new limit timeout ∧
      .pushed s.result :: later.1.map Prod.fst =
        (List.range' i.toNat (ms.length + 1)).map
          (cappedAnswer limit k total j (gathered (taken ++ ms) j)) := by
  -- Up to the fragment that exceeds the cap the series is kept, and the next one is due.
  induction ms generalizing i taken payloads with
  | nil =>
    have hindex := hj.index
    rw [List.append_nil, htaken] at hindex
    obtain rfl : i.toNat = j := by omega
    have hexceeds := hj.exceeds
    rw [gathered_append htaken] at hexceeds ⊢
    exact run_settle_exceeding now hms hexceeds
  | cons m ms ih =>
    obtain rfl | hlt := Nat.eq_or_lt_of_le hi
    · have hexceeds := hj.exceeds
      rw [gathered_append htaken] at hexceeds ⊢
      exact run_settle_exceeding now hms hexceeds
    have hlen := hms.add_length
    rw [List.length_cons] at hlen
    have hinc : i.toNat + 1 < total.toNat := by omega
    have hfits := hj.first i.toNat hlt
    rw [gathered_append htaken] at hfits
    cases hms with
    | @cons _ q _ more _ payloads index carries rest =>
      have hmore := carries.payload_eq
      have hall : taken ++ m :: ms = (taken ++ [m]) ++ ms := by simp
      have hgathered : taken.flatMap Message.payloadBytes ++ more =
          (taken ++ [m]).flatMap Message.payloadBytes := by simp [hmore]
      rw [hall] at hj hword ⊢
      have hword' : overhead + (taken.flatMap Message.payloadBytes ++ more).length < wordBound := by
        rw [List.flatMap_append, ← hgathered, List.length_append] at hword
        omega
      have hpush := push_keep_new ⟨total, i⟩ carries hinc index
        (show now - now < timeout by rwa [Nat.sub_self]) hfits hword'
      obtain ⟨hlater, hanswers⟩ := ih (index ▸ rest) (by simp [htaken, index]) hj (by omega) hword
      have hpending : cappedAnswer limit k total j (gathered (taken ++ [m] ++ ms) j) i.toNat =
          .pushed (.ok none) := if_pos hlt
      rw [index] at hanswers
      rw [settle_of_pending hfits (Nat.ne_of_lt hinc), List.length_cons, List.range'_succ,
        List.map_cons, List.map_cons, hpending, ← hanswers, ← hgathered]
      rw [← hgathered] at hlater
      simp only [List.map_cons, run_cons, step, hpush, Step.after, and_true]
      exact hlater

theorem run_breaks (htimeout : 0 < timeout) (now : Nat) {ms : List Message} {payloads : List Bytes}
    (hms : Fragments k total 0 ms payloads) (hj : BreaksAt limit ms j)
    (hword : overhead + payloads.flatten.length < wordBound) :
    let run := (new limit timeout).run (ms.map fun m => .push m now)
    run.2 = new limit timeout ∧
      run.1.map Prod.fst =
        (List.range ms.length).map (cappedAnswer limit k total j (gathered ms j)) := by
  rw [hms.flatten_eq] at hword
  cases hms with
  | nil => exact absurd hj.index (Nat.not_lt_zero j)
  | @cons _ i m payload ms payloads index carries rest =>
    have hpush := push_new limit timeout carries (UInt32.toNat_inj.mp index) now
    have htaken : [m].length = i.toNat + 1 := by simp [index]
    obtain ⟨hlater, hanswers⟩ :=
      run_settle_breaks htimeout now (index ▸ rest) htaken hj (by omega) hword
    rw [index] at hanswers
    have hpayload : [m].flatMap Message.payloadBytes = payload := by simp [carries.payload_eq]
    rw [hpayload] at hlater hanswers
    rw [List.length_cons, List.range_eq_range', ← List.singleton_append, ← hanswers]
    simp only [List.singleton_append, List.map_cons, run_cons, step, hpush, Step.after, and_true]
    exact hlater

theorem cappedAnswer_ne (limit : Limit) (k : Key) (total : UInt32) (j attempted i : Nat)
    (x : Message) : cappedAnswer limit k total j attempted i ≠ .pushed (.ok (some x)) := by
  unfold cappedAnswer
  split
  · exact nofun
  · split <;> exact nofun

theorem run_exceeding (htimeout : 0 < timeout) (now : Nat) {ms : List Message}
    {payloads : List Bytes} (hms : Fragments k total 0 ms payloads) (hne : ms ≠ [])
    (hexceeds : limit.bytes < overhead + payloads.flatten.length)
    (hword : overhead + payloads.flatten.length < wordBound) :
    let run := (new limit timeout).run (ms.map fun m => .push m now)
    run.2 = new limit timeout ∧
      ∃ j, BreaksAt limit ms j ∧
        run.1.map Prod.fst =
          (List.range ms.length).map (cappedAnswer limit k total j (gathered ms j)) := by
  have hpos := List.length_pos_iff.mpr hne
  have hall : gathered ms (ms.length - 1) = overhead + payloads.flatten.length := by
    rw [gathered, List.take_of_length_le (by omega), hms.flatten_eq]
  obtain ⟨j, hj⟩ := exists_breaksAt (Nat.sub_one_lt_of_lt hpos) (hall ▸ hexceeds)
  obtain ⟨hnext, hanswers⟩ := run_breaks htimeout now hms hj hword
  exact ⟨hnext, j, hj, hanswers⟩

/-- A message that is split, whose fragments are pushed in order at one clock reading, is put
together if and only if it is within the size cap, whatever it was split by. If it is not, some
fragment is the first with which the series exceeds the cap: those before it are taken, it is
refused with the size by then, and those behind it are refused since their series has ended. Nothing
of the message is left in either case. -/
theorem Reachable.run_split {r : Reassembler} (hr : Reachable limit timeout r)
    (htimeout : 0 < timeout) {m : Message} (hv : m.validate = .ok ()) (hk : m.key? = some k)
    (hfree : r.find? k = none) {n : Nat} {batch : Batch} (hs : m.split n = .ok (some batch))
    (now : Nat) :
    ∃ ms, batch.toMessages = .ok ms ∧ ms.length = batch.length ∧
      let run := r.run (ms.map fun x => .push x now)
      let answers := run.1.map Prod.fst
      ((∃ x, .pushed (.ok (some x)) ∈ answers) ↔ m.bytes.length ≤ limit.bytes) ∧
      (m.bytes.length ≤ limit.bytes → answers = seriesAnswers (batch.length - 1) m.collapsed) ∧
      (limit.bytes < m.bytes.length → ∃ j, BreaksAt limit ms j ∧
        answers = (List.range batch.length).map
          (cappedAnswer limit k (UInt32.ofNat batch.length) j (gathered ms j))) ∧
      run.2.find? k = none := by
  obtain ⟨ms, hmessages, hcount, hgiven⟩ := Message.exists_given_of_split hs
  obtain ⟨total, parts, hms, hne, hlen, hword, -⟩ := hgiven.exists_fragments hv hk
  have htotal : total = UInt32.ofNat batch.length := by
    rw [← hcount, ← Nat.zero_add ms.length, hms.add_length, UInt32.ofNat_toNat]
  subst htotal
  have hkey : ∀ op ∈ ms.map fun x => Op.push x now, op.key? = some k := by
    intro op hop
    obtain ⟨x, hx, rfl⟩ := List.mem_map.mp hop
    exact hms.key? hx
  -- Under this key the reassembler answers as one that holds nothing.
  obtain ⟨hsame, hfound⟩ := hr.run_of_free hfree hkey
  refine ⟨ms, hmessages, hcount, ?_⟩
  intro run answers
  by_cases hfits : m.bytes.length ≤ limit.bytes
  · obtain ⟨hnext, hanswers⟩ := run_pieces hgiven hv hk hfits htimeout now
    rw [hnext] at hfound
    rw [show answers = _ from hsame.trans hanswers, hcount]
    refine ⟨iff_of_true ⟨m.collapsed, ?_⟩ hfits, fun _ => rfl, fun hexceeds => ?_, hfound⟩
    · simp [seriesAnswers]
    · exact absurd hfits (Nat.not_le.mpr hexceeds)
  · have hexceeds : limit.bytes < overhead + parts.flatten.length := by omega
    obtain ⟨hnext, j, hj, hanswers⟩ := run_exceeding htimeout now hms hne hexceeds hword
    rw [hnext] at hfound
    rw [show answers = _ from hsame.trans hanswers, hcount]
    refine ⟨iff_of_false ?_ hfits, fun hle => absurd hle hfits, fun _ => ⟨j, hj, rfl⟩, hfound⟩
    rintro ⟨x, hx⟩
    obtain ⟨i, -, hi⟩ := List.mem_map.mp hx
    exact cappedAnswer_ne _ _ _ _ _ _ _ hi

/-- A command of 25 bytes in slices of two, by a cap of 23: it is exceeded with the second of three
fragments. A series of another kind is under way. -/
theorem run_split_capped :
    let command := Key.fragment ⟨.command, 7⟩ .single [1, 2, 3, 4, 5]
    let r := ((new ⟨23, by decide⟩ 100).push (Key.fragment ⟨.indication, 7⟩ ⟨2, 0⟩ [9]) 0).next
    let ms := [Key.fragment ⟨.command, 7⟩ ⟨3, 0⟩ [1, 2], Key.fragment ⟨.command, 7⟩ ⟨3, 1⟩ [3, 4],
      Key.fragment ⟨.command, 7⟩ ⟨3, 2⟩ [5]]
    let run := r.run (ms.map fun x => .push x 50)
    command.bytes.length = 25 ∧
      run.1.map Prod.fst =
        [.pushed (.ok none), .pushed (.error (.tooLarge 7 24 ⟨23, by decide⟩)),
          .pushed (.error (.fragment (.outOfSequence ⟨3, 0⟩ ⟨3, 2⟩)))] ∧
      run.2.find? ⟨.command, 7⟩ = none := by
  intro command r ms run
  have hr : Reachable ⟨23, by decide⟩ 100 r :=
    Reachable.new.step (.push (Key.fragment ⟨.indication, 7⟩ ⟨2, 0⟩ [9]) 0)
  have hs : command.split 22 = .ok (some [⟨⟨.command, 22, 7⟩, ⟨3, 0⟩, [1, 2]⟩,
      ⟨⟨.command, 22, 7⟩, ⟨3, 1⟩, [3, 4]⟩, ⟨⟨.command, 21, 7⟩, ⟨3, 2⟩, [5]⟩]) := by decide
  obtain ⟨found, hfound, -, -, -, hexceeded, hleft⟩ :=
    hr.run_split (by decide) (m := command) (k := ⟨.command, 7⟩) rfl rfl (by decide) hs 50
  cases hfound
  obtain ⟨j, hj, hanswers⟩ := hexceeded (by decide)
  -- The first fragment is within the cap, and the second is not.
  obtain rfl : j = 1 := by
    match j, hj with
    | 0, hj => exact absurd hj.exceeds (by decide)
    | 1, _ => rfl
    | j + 2, hj => exact absurd (hj.first 1 (by omega)) (by decide)
  exact ⟨rfl, hanswers, hleft⟩

end Reassembler

end Mbim
