import Mbim.Proofs.Fragment.Shape

/-!
# What a series has gathered

A series has the shape of one fragment: that of the fragment taken last, with the payloads of all
(`Key.series`). Each operation on series keeps this shape.

* `SeriesError.LiesInFragment`: the causes that do not come from the state of the series.
* `Series.ofFirst_cases`, `Series.add_cases`: a fragment is refused with such a cause, or is the one
  due and adds its payload. Neither operation faults on a message with a key.
* `Series.ofFirst_of_carries`, `Series.add_of_carries`: the fragment that is due is taken.
  `Series.ofFirst_of_ne_zero`: one with another index starts no series.
* `Series.finish_series`: the message of a complete series is one fragment with the payloads of
  all.
-/

namespace Mbim

/-- The series of `k` with the last fragment in the place `p`, and the payloads so far. -/
def Key.series (k : Key) (p : Position) (payload : Bytes) : Series :=
  ⟨(k.fragment p payload).bytes, k.kind, p.total, p.current⟩

@[simp] theorem Key.bytes_series (k : Key) (p : Position) (payload : Bytes) :
    (k.series p payload).bytes = (k.fragment p payload).bytes := rfl

/-- The fragment cannot be read, or is not the one that is due. The other causes are those of a
series of another kind, or of one to which nothing can be added. -/
def SeriesError.LiesInFragment : SeriesError → Prop
  | malformed _ | outOfSequence .. => True
  | wrongKind .. | complete => False

/-- A series tells its last position and its payloads. -/
theorem Key.series_inj {k : Key} {p q : Position} {payload more : Bytes}
    (h : k.series p payload = k.series q more) : p = q ∧ payload = more := by
  obtain ⟨hbytes, -, htotal, hcurrent⟩ := Series.mk.inj h
  have hp : p = q := by
    obtain ⟨total, current⟩ := p
    cases htotal
    cases hcurrent
    rfl
  have hdrop := congrArg (List.drop overhead) hbytes
  exact ⟨hp, hdrop⟩

theorem next?_eq_some_iff {i j : UInt32} : next? i = some j ↔ i.toNat + 1 = j.toNat := by
  unfold next?
  have hj := j.toNat_lt
  split
  · rename_i hlt
    have hadd : (i + 1).toNat = i.toNat + 1 := by
      rw [UInt32.toNat_add]
      exact Nat.mod_eq_of_lt hlt
    rw [Option.some.injEq, ← UInt32.toNat_inj, hadd]
  · rename_i hge
    simp only [reduceCtorEq, false_iff]
    unfold wordBound at hge
    omega

namespace Series

variable {ε : Type}

theorem isComplete_series {k : Key} {p : Position} {payload : Bytes} :
    (k.series p payload).isComplete ↔ p.current.toNat + 1 = p.total.toNat := by
  simp [isComplete, Key.series, next?_eq_some_iff]

/-! ## Fields of the shape -/

/-- Overwriting the length of bytes in the shape of a fragment. -/
private theorem setField_length (k : Key) (p : Position) (payload rest : Bytes) (n : Nat)
    (hn : n = overhead + (payload ++ rest).length) :
    setField lengthOffset (UInt32.ofNat n) ((k.fragment p payload).bytes ++ rest) =
      (.ok (k.fragment p (payload ++ rest)).bytes : Outcome ε Bytes) := by
  have := Bytes.setWord?_append (a := wordBytes k.kind.code)
    (v := wordBytes (UInt32.ofNat (overhead + payload.length))) (o := lengthOffset) rfl rfl
    (by decide) (UInt32.ofNat n) (wordBytes k.transaction ++ p.encode ++ payload ++ rest)
  simp only [setField, Key.fragment, Header.encode, hn, List.append_assoc] at this ⊢
  rw [this]

private theorem setField_current (k : Key) (p : Position) (payload : Bytes) (w : UInt32) :
    setField currentOffset w (k.fragment p payload).bytes =
      (.ok (k.fragment ⟨p.total, w⟩ payload).bytes : Outcome ε Bytes) := by
  have := Bytes.setWord?_append
    (a := Header.encode ⟨k.kind, UInt32.ofNat (overhead + payload.length), k.transaction⟩ ++
      wordBytes p.total)
    (v := wordBytes p.current) (o := currentOffset) rfl rfl (by decide) w payload
  simp only [setField, Key.fragment, Position.encode, List.append_assoc] at this ⊢
  rw [this]

private theorem setField_total (k : Key) (p : Position) (payload : Bytes) (w : UInt32) :
    setField totalOffset w (k.fragment p payload).bytes =
      (.ok (k.fragment ⟨w, p.current⟩ payload).bytes : Outcome ε Bytes) := by
  have := Bytes.setWord?_append
    (a := Header.encode ⟨k.kind, UInt32.ofNat (overhead + payload.length), k.transaction⟩)
    (v := wordBytes p.total) (o := totalOffset) rfl rfl (by decide) w
    (wordBytes p.current ++ payload)
  simp only [setField, Key.fragment, Position.encode, List.append_assoc] at this ⊢
  rw [this]

/-! ## The operations -/

/-- A payload is appended while the length still fits its field. -/
theorem append_series (k : Key) (p : Position) (payload more : Bytes) (current : UInt32) :
    (k.series p payload).append more current =
      if overhead + (payload ++ more).length < wordBound then
        .ok (k.series ⟨p.total, current⟩ (payload ++ more))
      else .error (.malformed (.tooLarge (overhead + (payload ++ more).length))) := by
  have hsize : (k.series p payload).bytes.length + more.length =
      overhead + (payload ++ more).length := by
    simp [Nat.add_assoc]
  unfold append
  simp only [hsize]
  split
  · rw [Key.bytes_series, setField_length k p payload more _ rfl, Outcome.ok_bind,
      setField_current, Outcome.ok_bind]
    rfl
  · rfl

/-- The message of a complete series carries all payloads as one fragment of one. -/
theorem finish_series (k : Key) (p : Position) (payload : Bytes) :
    (k.series p payload).finish =
      (if p.current.toNat + 1 = p.total.toNat then .ok (.complete (k.fragment .single payload))
      else .ok (.pending (k.series p payload)) : Outcome ε Progress) := by
  unfold finish
  by_cases hc : p.current.toNat + 1 = p.total.toNat
  · rw [if_pos (isComplete_series.mpr hc), if_pos hc, Key.bytes_series, setField_current,
      Outcome.ok_bind, setField_total, Outcome.ok_bind]
    rfl
  · rw [if_neg (mt isComplete_series.mp hc), if_neg hc]

theorem ofFirst_of_carries {m : Message} {k : Key} {p : Position} {payload : Bytes}
    (h : m.Carries k p payload) (h0 : p.current = 0) : ofFirst m = .ok (k.series p payload) := by
  obtain ⟨-, -, -, rest, hb⟩ := Message.carries_iff.mp h
  have hfirst : first (overhead + payload.length) m.bytes =
      (.ok (k.fragment p payload).bytes : Outcome SeriesError Bytes) := by
    unfold first
    rw [if_pos (by rw [hb, List.length_append, Key.length_fragment]; omega), hb,
      List.take_left' (Key.length_fragment ..)]
  unfold ofFirst
  rw [h.position, Outcome.mapError_ok, Outcome.ok_bind, if_neg (by simp [h0]),
    Message.kind_of_key? h.key, Outcome.ofExcept_ok, Outcome.mapError_ok, Outcome.ok_bind,
    h.payload, Outcome.mapError_ok, Outcome.ok_bind, hfirst, Outcome.ok_bind]
  simp [Key.series, h0]

end Series

namespace Message

theorem position_cases {m : Message} {k : Key} (hk : m.key? = some k) :
    (∃ e, m.position = .error e) ∨ ∃ p, m.position = .ok p := by
  rw [position_of_key? hk]
  cases Position.decode m.bytes with
  | error e => exact .inl ⟨e, rfl⟩
  | ok p => exact .inr ⟨p, rfl⟩

theorem payload_cases {m : Message} {k : Key} (hk : m.key? = some k) :
    (∃ e, m.payload = .error e) ∨ ∃ payload, m.payload = .ok payload := by
  obtain ⟨h, hh, hf, -⟩ := key?_eq_some_iff.mp hk
  rw [payload_of_header hh hf]
  split
  · exact .inl ⟨_, rfl⟩
  · split
    · exact .inl ⟨_, rfl⟩
    · exact .inr ⟨_, rfl⟩

end Message

namespace Series

theorem ofFirst_of_ne_zero {m : Message} {p : Position} (hp : m.position = .ok p)
    (h0 : p.current ≠ 0) : ofFirst m = .error (.outOfSequence ⟨p.total, 0⟩ p) := by
  simp [ofFirst, hp, h0]

/-- A message with a key starts a series with index zero and its payload, or is refused. -/
theorem ofFirst_cases {m : Message} {k : Key} (hk : m.key? = some k) :
    (∃ e, e.LiesInFragment ∧ ofFirst m = .error e) ∨
      ∃ p payload, m.Carries k p payload ∧ p.current = 0 ∧
        ofFirst m = .ok (k.series p payload) := by
  obtain ⟨e, he⟩ | ⟨p, hp⟩ := Message.position_cases hk
  · exact .inl ⟨.malformed e, trivial, by simp [ofFirst, he]⟩
  by_cases h0 : p.current = 0
  · obtain ⟨e, he⟩ | ⟨payload, hpay⟩ := Message.payload_cases hk
    · exact .inl ⟨.malformed e, trivial, by simp [ofFirst, hp, h0, Message.kind_of_key? hk, he]⟩
    · have hc : m.Carries k p payload := ⟨hk, hp, hpay⟩
      exact .inr ⟨p, payload, hc, h0, ofFirst_of_carries hc h0⟩
  · exact .inl ⟨.outOfSequence ⟨p.total, 0⟩ p, trivial, ofFirst_of_ne_zero hp h0⟩

/-- The fragment with the next index is taken while the length still fits its field. Only its kind
has to be that of the series. -/
theorem add_of_carries {m : Message} {k k' : Key} {p q : Position} (payload : Bytes) {more : Bytes}
    (h : m.Carries k' q more) (hkind : k'.kind = k.kind)
    (hinc : p.current.toNat + 1 < p.total.toNat) (hq : q.current.toNat = p.current.toNat + 1) :
    (k.series p payload).add m =
      if overhead + (payload ++ more).length < wordBound then
        .ok (k.series ⟨p.total, q.current⟩ (payload ++ more))
      else .error (.malformed (.tooLarge (overhead + (payload ++ more).length))) := by
  have hopen : (k.series p payload).isComplete = false := by
    rw [← Bool.not_eq_true, isComplete_series]
    omega
  have hnext : next? (k.series p payload).current = some q.current :=
    next?_eq_some_iff.mpr hq.symm
  unfold add
  rw [h.position, Outcome.mapError_ok, Outcome.ok_bind, Message.kind_of_key? h.key,
    Outcome.ofExcept_ok, Outcome.mapError_ok, Outcome.ok_bind, if_neg (by simp [Key.series, hkind]),
    if_neg (by simp [hopen])]
  simp only [hnext, ne_eq, not_true_eq_false, ↓reduceIte, h.payload, Outcome.mapError_ok,
    Outcome.ok_bind]
  exact append_series k p payload more q.current

/-- A message of the kind of an incomplete series carries the next fragment, or is refused. -/
theorem add_cases {m : Message} {k k' : Key} {p : Position} (payload : Bytes)
    (hk : m.key? = some k') (hkind : k'.kind = k.kind)
    (hinc : p.current.toNat + 1 < p.total.toNat) :
    (∃ e, e.LiesInFragment ∧ (k.series p payload).add m = .error e) ∨
      ∃ q more, m.Carries k' q more ∧ q.current.toNat = p.current.toNat + 1 ∧
        overhead + (payload ++ more).length < wordBound ∧
        (k.series p payload).add m = .ok (k.series ⟨p.total, q.current⟩ (payload ++ more)) := by
  have hopen : (k.series p payload).isComplete = false := by
    rw [← Bool.not_eq_true, isComplete_series]
    omega
  have hown : (k.series p payload).kind = k'.kind := hkind.symm
  obtain ⟨e, he⟩ | ⟨q, hq⟩ := Message.position_cases hk
  · exact .inl ⟨.malformed e, trivial, by simp [add, he]⟩
  cases hnext : next? (k.series p payload).current with
  | none =>
    -- The index after the last one taken is below the total, so it is a word.
    exfalso
    have := p.total.toNat_lt
    unfold next? wordBound Key.series at hnext
    split at hnext
    · cases hnext
    · dsimp only at *
      omega
  | some expected =>
    by_cases hdue : q.current = expected
    · obtain ⟨e, he⟩ | ⟨more, hmore⟩ := Message.payload_cases hk
      · exact .inl ⟨.malformed e, trivial,
          by simp [add, hq, Message.kind_of_key? hk, hown, hopen, hnext, hdue, he]⟩
      · have hc : m.Carries k' q more := ⟨hk, hq, hmore⟩
        have hqn : q.current.toNat = p.current.toNat + 1 := by
          rw [hdue]
          exact (next?_eq_some_iff.mp hnext).symm
        have hadd := add_of_carries payload hc hkind hinc hqn
        split at hadd
        · rename_i hlt
          exact .inr ⟨q, more, hc, hqn, hlt, hadd⟩
        · exact .inl ⟨.malformed (.tooLarge _), trivial, hadd⟩
    · exact .inl ⟨.outOfSequence ⟨(k.series p payload).total, expected⟩ q, trivial,
        by simp [add, hq, Message.kind_of_key? hk, hown, hopen, hnext, hdue]⟩

end Series

end Mbim
