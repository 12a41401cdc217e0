import Mbim.Proofs.Series.Gather
import Mbim.Reassembler.Run

/-!
# What one operation does to a reassembler

Every partial message that the reassembler keeps is sound: it has the shape of a fragment, more
fragments are due, and it is within the size cap (`Partial.Sound`). Such partials expire without a
fault, and a fragment under their key is refused or taken.

* `Reassembler.Sound.push_passing`: what a push does with a message without a key.
* `Reassembler.Taken`: the position and the payloads of a series after a message is taken.
* `Reassembler.Handled`: what becomes of a message under a key, with its report
  (`Reassembler.Sound.handled`). It ends its series, completes it, or leaves more fragments due
  (`Reassembler.Accepted`, `Reassembler.Sound.accepted`); `Reassembler.accept_first` and
  `Reassembler.accept_next` say when it is taken.
* `Reassembler.Sound.step`, `Reassembler.Reachable.sound`: every operation keeps partials sound, so
  those of reachable reassemblers are.
-/

namespace Mbim

namespace Partial

/-- A partial message has the shape of a fragment that is not the last, within the size cap. -/
def Sound (limit : Limit) (p : Partial) : Prop :=
  p.key.kind.isFragment ∧ ∃ q payload, p.series = p.key.series q payload ∧
    q.current.toNat + 1 < q.total.toNat ∧ overhead + payload.length ≤ limit.bytes ∧
    overhead + payload.length < wordBound

/-- The number of fragments taken can be told. -/
theorem Sound.next?_isSome {limit : Limit} {p : Partial} (h : p.Sound limit) :
    (next? p.series.current).isSome := by
  obtain ⟨-, q, payload, hseries, hinc, -⟩ := h
  have := q.total.toNat_lt
  rw [hseries]
  unfold next?
  rw [if_pos]
  · rfl
  · show q.current.toNat + 1 < wordBound
    unfold wordBound
    omega

end Partial

namespace Reassembler

/-- One sound partial message for each key. -/
structure Sound (r : Reassembler) : Prop where
  nodup : (r.partials.map Partial.key).Nodup
  sound : ∀ p ∈ r.partials, p.Sound r.limit

/-- What the series under `k` consists of with the message `m`: it continues the partial message
that is there, or starts a new one. -/
inductive Taken (m : Message) (k : Key) (now : Nat) : Option Partial → Position → Bytes → Nat → Prop
  | first {p : Position} {payload : Bytes} (carries : m.Carries k p payload)
    (zero : p.current = 0) : Taken m k now none p payload now
  | next {p q : Position} {payload more : Bytes} {startedAt : Nat} (carries : m.Carries k q more)
    (incomplete : p.current.toNat + 1 < p.total.toNat)
    (due : q.current.toNat = p.current.toNat + 1) :
    Taken m k now (some ⟨k, k.series p payload, startedAt⟩) ⟨p.total, q.current⟩ (payload ++ more)
      startedAt

/-! ## Settling a series -/

variable {r : Reassembler} {m : Message} {k : Key} {now : Nat}

/-- A series beyond the size cap is given up. -/
theorem settle_of_oversized {p : Position} {payload : Bytes} {startedAt : Nat}
    (h : r.limit.bytes < overhead + payload.length) :
    r.settle ⟨k, k.series p payload, startedAt⟩ =
      ⟨.error (.tooLarge k.transaction (overhead + payload.length) r.limit), r,
        .counted .inbound ++ .one
          (.partialOversized k.transaction (overhead + payload.length) r.limit.bytes)
          (.dropped .oversized)⟩ := by
  simp [settle, h]

/-- A series whose last fragment is there is answered with. -/
theorem settle_of_last {p : Position} {payload : Bytes} {startedAt : Nat}
    (h : overhead + payload.length ≤ r.limit.bytes) (hp : p.current.toNat + 1 = p.total.toNat) :
    r.settle ⟨k, k.series p payload, startedAt⟩ =
      ⟨.ok (some (k.fragment .single payload)), r,
        if 1 < p.total then .counted .inbound ++ .counted .reassembled else .counted .inbound⟩ := by
  have htotal : (k.series p payload).total = p.total := rfl
  simp [settle, Nat.not_lt.mpr h, Series.finish_series, hp, htotal]

/-- A series with more fragments due is kept. -/
theorem settle_of_pending {p : Position} {payload : Bytes} {startedAt : Nat}
    (h : overhead + payload.length ≤ r.limit.bytes) (hp : p.current.toNat + 1 ≠ p.total.toNat) :
    r.settle ⟨k, k.series p payload, startedAt⟩ =
      ⟨.ok none, r.keep ⟨k, k.series p payload, startedAt⟩, .counted .inbound⟩ := by
  simp [settle, Nat.not_lt.mpr h, Series.finish_series, hp]

/-! ## Finding a partial message -/

theorem mem_of_find? {p : Partial} (h : r.find? k = some p) : p ∈ r.partials ∧ p.key = k := by
  refine ⟨List.mem_of_find?_eq_some h, ?_⟩
  simpa using List.find?_some h

theorem find?_eq_none_iff : r.find? k = none ↔ ∀ p ∈ r.partials, p.key ≠ k := by
  simp [find?, List.find?_eq_none]

/-- The partial message found under a key is in shape, with more fragments due. -/
theorem Sound.exists_of_find? (hs : r.Sound) {p : Partial} (h : r.find? k = some p) :
    ∃ q payload, p = ⟨k, k.series q payload, p.startedAt⟩ ∧
      q.current.toNat + 1 < q.total.toNat := by
  obtain ⟨hmem, rfl⟩ := mem_of_find? h
  obtain ⟨-, q, payload, hseries, hinc, -⟩ := hs.sound p hmem
  exact ⟨q, payload, by rw [← hseries], hinc⟩

/-! ## Sweeping -/

/-- Sound partials expire without a fault. -/
theorem Sound.sweep_result {ε : Type} (hs : r.Sound) (now : Nat) :
    (r.sweep now).result =
      (.ok ((r.expired now).map fun p => p.key.transaction) : Outcome ε (List UInt32)) := by
  have : (r.expired now).all fun p => (next? p.series.current).isSome := by
    rw [List.all_eq_true]
    intro p hp
    exact (hs.sound p (List.mem_filter.mp hp).1).next?_isSome
  simp [sweep, this]

/-- A push sweeps and then takes the message. -/
theorem Sound.push_eq (hs : r.Sound) (m : Message) (now : Nat) :
    r.push m now = ((r.live now).accept m now).after (expiries (r.expired now)) := by
  unfold push
  simp only [hs.sweep_result now]
  rfl

theorem Sound.live (hs : r.Sound) (now : Nat) : (r.live now).Sound where
  nodup := hs.nodup.sublist (List.filter_sublist.map _)
  sound p hp := hs.sound p (List.mem_filter.mp hp).1

theorem Sound.without (hs : r.Sound) (k : Key) : (r.without k).Sound where
  nodup := hs.nodup.sublist (List.filter_sublist.map _)
  sound p hp := hs.sound p (List.mem_filter.mp hp).1

theorem not_mem_without {p : Partial} (h : p ∈ (r.without k).partials) : p.key ≠ k := by
  simpa using (List.mem_filter.mp h).2

theorem find?_without (r : Reassembler) (k : Key) : (r.without k).find? k = none :=
  find?_eq_none_iff.mpr fun _ hp => not_mem_without hp

theorem without_of_find?_eq_none (h : r.find? k = none) : r.without k = r := by
  have hne := find?_eq_none_iff.mp h
  have hall : r.partials.filter (fun p => p.key != k) = r.partials := by
    simpa [List.filter_eq_self] using hne
  simp [without, hall]

/-- What is kept under a key is struck out with it. -/
theorem without_keep (r : Reassembler) (k : Key) (s : Series) (startedAt : Nat) :
    ((r.without k).keep ⟨k, s, startedAt⟩).without k = r.without k := by
  simp [without, keep, List.filter_filter]

/-- A partial message under a key that is free joins the others. -/
theorem Sound.keep (hs : r.Sound) {p : Partial} (hp : p.Sound r.limit)
    (hfree : ∀ q ∈ r.partials, q.key ≠ p.key) : (r.keep p).Sound where
  nodup := by
    simp only [Reassembler.keep, List.map_append, List.map_cons, List.map_nil, List.nodup_append,
      List.mem_map, List.mem_singleton]
    refine ⟨hs.nodup, by simp, ?_⟩
    rintro _ ⟨q, hq, rfl⟩ _ rfl
    exact hfree q hq
  sound q hq := by
    simp only [Reassembler.keep, List.mem_append, List.mem_singleton] at hq
    obtain hq | rfl := hq
    · exact hs.sound q hq
    · exact hp

/-! ## Accepting -/

/-- A message without a key passes, or its header cannot be read; nothing changes. -/
theorem accept_of_key?_eq_none (h : m.key? = none) (now : Nat) :
    (∃ hd, m.header = .ok hd ∧ r.accept m now = ⟨.ok (some m), r, ∅⟩) ∨
      ∃ e, m.header = .error e ∧ r.accept m now = ⟨.error (.fragment (.malformed e)), r, ∅⟩ := by
  unfold Message.key? at h
  unfold accept
  cases hh : m.header with
  | ok hd =>
    rw [hh] at h
    dsimp only at h
    split at h
    · cases h
    · rename_i hf
      exact .inl ⟨hd, rfl, by simp [hf]⟩
  | error e => exact .inr ⟨e, rfl, rfl⟩

theorem next_accept_of_key?_eq_none (h : m.key? = none) (now : Nat) :
    (r.accept m now).next = r := by
  obtain ⟨hd, -, ha⟩ | ⟨e, -, ha⟩ := accept_of_key?_eq_none (r := r) h now <;> rw [ha]

/-- A valid message of a kind without fragments passes. -/
theorem Sound.push_passing (hs : r.Sound) (hv : m.validate = .ok ()) (hk : m.key? = none)
    (now : Nat) : (r.push m now).result = .ok (some m) ∧ (r.push m now).next = r.live now := by
  obtain ⟨h, hh, -⟩ := Message.exists_header hv
  rw [hs.push_eq]
  obtain ⟨-, -, ha⟩ | ⟨e, he, -⟩ := accept_of_key?_eq_none (r := r.live now) hk now
  · rw [ha]
    exact ⟨rfl, rfl⟩
  · rw [hh] at he
    cases he

theorem accept_of_find?_eq_some (hk : m.key? = some k) {p : Partial} (hp : r.find? k = some p)
    (now : Nat) : r.accept m now = (r.without k).advance m p := by
  obtain ⟨h, hh, hf, rfl⟩ := Message.key?_eq_some_iff.mp hk
  simp [accept, hh, hf, hp]

theorem accept_of_find?_eq_none (hk : m.key? = some k) (hp : r.find? k = none) (now : Nat) :
    r.accept m now = (r.without k).launch m k now := by
  obtain ⟨h, hh, hf, rfl⟩ := Message.key?_eq_some_iff.mp hk
  simp [accept, hh, hf, hp]

/-- The series still has the index of the fragment taken last below its number of fragments. -/
theorem Taken.lt {old : Option Partial} {p : Position} {payload : Bytes} {startedAt : Nat}
    (h : Taken m k now old p payload startedAt) : p.current.toNat < p.total.toNat := by
  cases h with
  | first hc _ => exact UInt32.lt_iff_toNat_lt.mp (Message.carries_iff.mp hc).2.1
  | next _ hinc hdue =>
    show _ < _
    dsimp only
    omega

/-- What the reassembler does with a message under `k`, and what it reports. -/
inductive Handled (r : Reassembler) (m : Message) (k : Key) (now : Nat) :
    Step Reassembler (Outcome PushError (Option Message)) → Prop
  /-- There is no series, and the message starts none. -/
  | refused {e : SeriesError} (lies : e.LiesInFragment) (free : r.find? k = none)
    (first : Series.ofFirst m = .error e) :
    Handled r m k now ⟨.error (.fragment e), r.without k, ∅⟩
  /-- The message does not continue the series, which ends. -/
  | broken {e : SeriesError} {old : Partial} (lies : e.LiesInFragment)
    (found : r.find? k = some old) :
    Handled r m k now ⟨.error (.fragment e), r.without k,
      .one (.partialDropped k.transaction e) (.dropped e.dropReason)⟩
  /-- The series ends, since it breaks the cap with the message. -/
  | oversized {p : Position} {payload : Bytes} {startedAt : Nat}
    (taken : Taken m k now (r.find? k) p payload startedAt)
    (exceeds : r.limit.bytes < overhead + payload.length) :
    Handled r m k now ⟨.error (.tooLarge k.transaction (overhead + payload.length) r.limit),
      r.without k, .counted .inbound ++
        .one (.partialOversized k.transaction (overhead + payload.length) r.limit.bytes)
          (.dropped .oversized)⟩
  /-- The message is the last that the series needs. -/
  | last {p : Position} {payload : Bytes} {startedAt : Nat}
    (taken : Taken m k now (r.find? k) p payload startedAt)
    (fits : overhead + payload.length ≤ r.limit.bytes)
    (word : overhead + payload.length < wordBound)
    (complete : p.current.toNat + 1 = p.total.toNat) :
    Handled r m k now ⟨.ok (some (k.fragment .single payload)), r.without k,
      if 1 < p.total then .counted .inbound ++ .counted .reassembled else .counted .inbound⟩
  /-- More fragments are due. -/
  | pending {p : Position} {payload : Bytes} {startedAt : Nat}
    (taken : Taken m k now (r.find? k) p payload startedAt)
    (fits : overhead + payload.length ≤ r.limit.bytes)
    (word : overhead + payload.length < wordBound)
    (incomplete : p.current.toNat + 1 < p.total.toNat) :
    Handled r m k now ⟨.ok none, (r.without k).keep ⟨k, k.series p payload, startedAt⟩,
      .counted .inbound⟩

/-- A message that is taken is settled. -/
theorem Taken.handled {p : Position} {payload : Bytes} {startedAt : Nat}
    (h : Taken m k now (r.find? k) p payload startedAt)
    (hword : overhead + payload.length < wordBound) :
    Handled r m k now ((r.without k).settle ⟨k, k.series p payload, startedAt⟩) := by
  by_cases hcap : (r.without k).limit.bytes < overhead + payload.length
  · rw [settle_of_oversized hcap]
    exact .oversized h hcap
  · have hfits := Nat.not_lt.mp hcap
    have hlt := h.lt
    by_cases hp : p.current.toNat + 1 = p.total.toNat
    · rw [settle_of_last hfits hp]
      exact .last h hfits hword hp
    · rw [settle_of_pending hfits hp]
      exact .pending h hfits hword (by omega)

/-- A message under a key is refused, or taken and settled. -/
theorem Sound.handled (hs : r.Sound) (hk : m.key? = some k) (now : Nat) :
    Handled r m k now (r.accept m now) := by
  cases hfind : r.find? k with
  | none =>
    rw [accept_of_find?_eq_none hk hfind]
    unfold launch
    obtain ⟨e, hin, he⟩ | ⟨p, payload, hc, h0, hs⟩ := Series.ofFirst_cases hk
    · rw [he]
      exact .refused hin hfind he
    · rw [hs]
      have ht : Taken m k now (r.find? k) p payload now := by
        rw [hfind]
        exact .first hc h0
      exact ht.handled (Message.carries_iff.mp hc).2.2.1
  | some old =>
    rw [accept_of_find?_eq_some hk hfind]
    obtain ⟨q, payload, hold, hinc⟩ := hs.exists_of_find? hfind
    rw [hold] at hfind ⊢
    unfold advance
    obtain ⟨e, hin, he⟩ | ⟨q', more, hc, hdue, hlt, ha⟩ := Series.add_cases payload hk rfl hinc
    · rw [he]
      exact .broken hin hfind
    · rw [ha]
      have ht : Taken m k now (r.find? k) ⟨q.total, q'.current⟩ (payload ++ more) old.startedAt := by
        rw [hfind]
        exact .next hc hinc hdue
      exact ht.handled hlt

/-- What can become of a message under `k`: it is refused, or breaks the cap, and ends the series;
it completes the series; or more fragments are due. -/
inductive Accepted (r : Reassembler) (m : Message) (k : Key) (now : Nat) :
    Outcome PushError (Option Message) → Reassembler → Prop
  | refused (cause : PushError) : Accepted r m k now (.error cause) (r.without k)
  | last {p : Position} {payload : Bytes} {startedAt : Nat}
    (taken : Taken m k now (r.find? k) p payload startedAt)
    (fits : overhead + payload.length ≤ r.limit.bytes)
    (word : overhead + payload.length < wordBound)
    (complete : p.current.toNat + 1 = p.total.toNat) :
    Accepted r m k now (.ok (some (k.fragment .single payload))) (r.without k)
  | pending {p : Position} {payload : Bytes} {startedAt : Nat}
    (taken : Taken m k now (r.find? k) p payload startedAt)
    (fits : overhead + payload.length ≤ r.limit.bytes)
    (word : overhead + payload.length < wordBound)
    (incomplete : p.current.toNat + 1 < p.total.toNat) :
    Accepted r m k now (.ok none) ((r.without k).keep ⟨k, k.series p payload, startedAt⟩)

theorem Sound.accepted (hs : r.Sound) (hk : m.key? = some k) (now : Nat) :
    Accepted r m k now (r.accept m now).result (r.accept m now).next := by
  have hhandled := hs.handled hk now
  generalize r.accept m now = step at hhandled ⊢
  cases hhandled with
  | refused => exact .refused _
  | broken => exact .refused _
  | oversized => exact .refused _
  | last taken fits word complete => exact .last taken fits word complete
  | pending taken fits word incomplete => exact .pending taken fits word incomplete

/-- The fragment that starts a series is settled. -/
theorem accept_first {p : Position} {payload : Bytes} (hc : m.Carries k p payload)
    (hfind : r.find? k = none) (h0 : p.current = 0) (now : Nat) :
    r.accept m now = (r.without k).settle ⟨k, k.series p payload, now⟩ := by
  rw [accept_of_find?_eq_none hc.key hfind]
  unfold launch
  rw [Series.ofFirst_of_carries hc h0]

/-- The fragment that is due is settled. -/
theorem accept_next {p q : Position} {payload more : Bytes} {startedAt : Nat}
    (hc : m.Carries k q more) (hfind : r.find? k = some ⟨k, k.series p payload, startedAt⟩)
    (hinc : p.current.toNat + 1 < p.total.toNat) (hdue : q.current.toNat = p.current.toNat + 1)
    (hlen : overhead + (payload ++ more).length < wordBound) (now : Nat) :
    r.accept m now =
      (r.without k).settle ⟨k, k.series ⟨p.total, q.current⟩ (payload ++ more), startedAt⟩ := by
  rw [accept_of_find?_eq_some hc.key hfind]
  unfold advance
  rw [Series.add_of_carries payload hc rfl hinc hdue, if_pos hlen]

/-! ## Every operation keeps partials sound -/

theorem Sound.accept (hs : r.Sound) (m : Message) (now : Nat) : (r.accept m now).next.Sound := by
  cases hk : m.key? with
  | none =>
    rw [next_accept_of_key?_eq_none hk]
    exact hs
  | some k =>
    have haccepted := hs.accepted hk now
    generalize (r.accept m now).result = result, (r.accept m now).next = next at haccepted ⊢
    cases haccepted with
    | refused => exact hs.without k
    | last => exact hs.without k
    | pending _ hfits hword hinc =>
      refine (hs.without k).keep ?_ fun q hq => not_mem_without hq
      exact ⟨Message.isFragment_of_key? hk, _, _, rfl, hinc, hfits, hword⟩

theorem Sound.step (hs : r.Sound) (op : Op) : (r.step op).next.Sound := by
  cases op with
  | sweep now => exact hs.live now
  | push m now =>
    show (r.push m now).next.Sound
    rw [hs.push_eq]
    exact (hs.live now).accept m now

theorem Sound.limits_accept (hs : r.Sound) (m : Message) (now : Nat) :
    (r.accept m now).next.limit = r.limit ∧ (r.accept m now).next.timeout = r.timeout := by
  cases hk : m.key? with
  | none =>
    rw [next_accept_of_key?_eq_none hk]
    exact ⟨rfl, rfl⟩
  | some k =>
    have haccepted := hs.accepted hk now
    generalize (r.accept m now).result = result, (r.accept m now).next = next at haccepted ⊢
    cases haccepted <;> exact ⟨rfl, rfl⟩

/-- No operation changes the limits. -/
theorem Sound.limits_step (hs : r.Sound) (op : Op) :
    (r.step op).next.limit = r.limit ∧ (r.step op).next.timeout = r.timeout := by
  cases op with
  | sweep now => exact ⟨rfl, rfl⟩
  | push m now =>
    show (r.push m now).next.limit = _ ∧ (r.push m now).next.timeout = _
    rw [hs.push_eq]
    exact (hs.live now).limits_accept m now

theorem sound_new (limit : Limit) (timeout : Nat) : (new limit timeout).Sound :=
  ⟨by simp [new], by simp [new]⟩

theorem Reachable.sound {limit : Limit} {timeout : Nat} (h : Reachable limit timeout r) :
    r.Sound := by
  induction h with
  | new => exact sound_new limit timeout
  | step _ op ih => exact ih.step op

theorem Reachable.limits {limit : Limit} {timeout : Nat} (h : Reachable limit timeout r) :
    r.limit = limit ∧ r.timeout = timeout := by
  induction h with
  | new => exact ⟨rfl, rfl⟩
  | step reached op ih =>
    obtain ⟨hlimit, htimeout⟩ := reached.sound.limits_step op
    exact ⟨hlimit.trans ih.1, htimeout.trans ih.2⟩

end Reassembler

end Mbim
