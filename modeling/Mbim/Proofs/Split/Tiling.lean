import Mathlib.Algebra.Order.Floor.Div
import Mbim.Proofs.Split.Pieces

/-!
# Fragments tile the payload

A message that is split leaves in as few fragments as its payload needs, and at least two. All but
the last are full.

* `getElem?_slices`, `Fragment.getElem?_series`: one slice of the payload, and its fragment.
* `Fragment.Tile`: what a fragment says of itself, and how much of the payload it carries.
* `Message.exists_cut_of_split`: what was split, and how; `Message.exists_tiles_of_cut`: what that
  comes to.
* `Batch.length_encode`, `Batch.length_toMessages`: the bytes on the wire, and the messages.
* `Message.split_tiles`: the fragments, the messages that they are, and the bytes on the wire.
-/

namespace Mbim

/-! ## One slice -/

theorem getElem?_slices (size : Nat) {count i : Nat} (payload : Bytes) (hi : i < count) :
    (slices size count payload).1[i]? = some ((payload.drop (size * i)).take size) := by
  induction count generalizing i payload with
  | zero => omega
  | succ count ih =>
    cases i with
    | zero => simp [slices]
    | succ i =>
      simp only [slices, List.getElem?_cons_succ, ih _ (Nat.lt_of_succ_lt_succ hi), List.drop_drop]
      rw [Nat.mul_succ, Nat.add_comm]

/-- The slices before the last one are full, and the last one is not empty. -/
theorem length_slice {size i : Nat} {payload : Bytes} (hsize : 0 < size)
    (hi : i < payload.length ⌈/⌉ size) :
    0 < ((payload.drop (size * i)).take size).length ∧
      (i + 1 < payload.length ⌈/⌉ size →
        ((payload.drop (size * i)).take size).length = size) := by
  have hstart : size * i < payload.length := by
    rw [← Nat.not_le, ← ceilDiv_le_iff_le_mul hsize]
    exact Nat.not_le.mpr hi
  rw [List.length_take, List.length_drop]
  refine ⟨by omega, fun hnext => ?_⟩
  have hstop : size * (i + 1) < payload.length := by
    rw [← Nat.not_le, ← ceilDiv_le_iff_le_mul hsize]
    exact Nat.not_le.mpr hnext
  rw [Nat.mul_succ] at hstop
  omega

namespace Fragment

theorem getElem?_series {h : Header} {total : UInt32} {first : Nat} {parts : List Bytes}
    {batch : Batch} (hs : series h total first parts = .ok batch) (i : Nat) :
    batch[i]? = parts[i]?.map fun part =>
      ⟨{ h with length := UInt32.ofNat (overhead + part.length) },
        ⟨total, UInt32.ofNat (first + i)⟩, part⟩ := by
  induction parts generalizing first batch i with
  | nil =>
    cases hs
    rfl
  | cons part parts ih =>
    unfold series at hs
    dsimp only at hs
    split at hs
    · cases hrest : series h total (first + 1) parts with
      | error e =>
        rw [hrest] at hs
        cases hs
      | ok rest =>
        rw [hrest] at hs
        cases hs
        cases i with
        | zero => rfl
        | succ i =>
          rw [List.getElem?_cons_succ, List.getElem?_cons_succ, ih hrest, Nat.add_assoc,
            Nat.add_comm 1]
    · cases hs

/-- A fragment of a message with the header `h`, which has the index `i` of `count` fragments of at
most `limit` bytes each. -/
structure Tile (f : Fragment) (h : Header) (limit count i : Nat) : Prop where
  kind : f.header.kind = h.kind
  transaction : f.header.transaction = h.transaction
  length : f.header.length.toNat = overhead + f.payload.length
  within : f.header.length.toNat ≤ limit
  total : f.position.total.toNat = count
  current : f.position.current.toNat = i
  nonempty : 1 ≤ f.payload.length
  fits : f.payload.length ≤ limit - overhead
  full : i + 1 < count → f.payload.length = limit - overhead

theorem tile_of_part {h : Header} {limit count i : Nat} {part : Bytes} (hroom : overhead < limit)
    (hcount : count < wordBound) (hi : i < count) (hlen : overhead + part.length < wordBound)
    (hnonempty : 0 < part.length) (hfits : part.length ≤ limit - overhead)
    (hfull : i + 1 < count → part.length = limit - overhead) :
    Tile ⟨{ h with length := UInt32.ofNat (overhead + part.length) },
      ⟨UInt32.ofNat count, UInt32.ofNat i⟩, part⟩ h limit count i where
  kind := rfl
  transaction := rfl
  length := UInt32.toNat_ofNat_of_lt' hlen
  within := by
    rw [UInt32.toNat_ofNat_of_lt' hlen]
    omega
  total := UInt32.toNat_ofNat_of_lt' hcount
  current := UInt32.toNat_ofNat_of_lt' (Nat.lt_trans hi hcount)
  nonempty := hnonempty
  fits := hfits
  full := hfull

end Fragment

theorem Fragment.length_encode (f : Fragment) : f.encode.length = overhead + f.payload.length := by
  simp [Fragment.encode, overhead, Nat.add_assoc]

theorem Batch.length_encode (batch : Batch) :
    batch.encode.length = (batch.flatMap Fragment.payload).length + overhead * batch.length := by
  unfold encode
  induction batch with
  | nil => rfl
  | cons f batch ih =>
    rw [List.flatMap_cons, List.flatMap_cons, List.length_append, List.length_append, ih,
      f.length_encode, List.length_cons, Nat.mul_succ]
    omega

theorem Batch.length_toMessages {batch : Batch} {ms : List Message}
    (h : batch.toMessages = .ok ms) : ms.length = batch.length := by
  unfold toMessages at h
  induction batch generalizing ms with
  | nil =>
    cases h
    rfl
  | cons f batch ih =>
    rw [List.mapM_cons] at h
    cases hf : f.toMessage with
    | error e =>
      rw [hf] at h
      cases h
    | ok m =>
      cases hrest : batch.mapM Fragment.toMessage with
      | error e =>
        rw [hf, hrest] at h
        cases h
      | ok rest =>
        rw [hf, hrest] at h
        cases h
        rw [List.length_cons, List.length_cons, ih hrest]

namespace Message

/-! ## What is split -/

theorem split_of_pos (m : Message) {n : Nat} (hn : 0 < n) : m.split n = m.splitWithin ⟨n, hn⟩ := by
  unfold split Limit.ofNat?
  rw [dif_pos hn]

/-- A message that is split is of a fragment kind and exceeds the limit, which leaves room for a
payload; its payload is cut. -/
theorem exists_cut_of_split {m : Message} {n : Nat} {batch : Batch}
    (hs : m.split n = .ok (some batch)) :
    ∃ h, m.header = .ok h ∧ h.kind.isFragment ∧ overhead < n ∧ n < h.length.toNat ∧
      overhead + m.payloadBytes.length = h.length.toNat ∧
      cut h m.payloadBytes (n - overhead) = .ok batch := by
  obtain rfl | hn := Nat.eq_zero_or_pos n
  · cases hs
  rw [split_of_pos m hn] at hs
  cases hh : m.header with
  | error e =>
    simp only [splitWithin, hh] at hs
    cases hs
  | ok h =>
    rw [splitWithin_of_header hh] at hs
    split at hs
    · cases hs
    split at hs
    · cases hs
    split at hs
    case isFalse => cases hs
    split at hs
    · cases hs
    rename_i hexceeds hroom hf hheld
    obtain ⟨found, hcut, hfound⟩ := Outcome.bind_eq_ok_iff.mp hs
    cases hfound
    refine ⟨h, rfl, hf, Nat.not_le.mp hroom, Nat.not_le.mp hexceeds, ?_, hcut⟩
    rw [payloadBytes_of_header hh, List.length_drop, List.length_take]
    omega

/-- What is cut are all slices of the payload. -/
theorem series_of_cut {h : Header} {payload : Bytes} {capacity : Nat} {batch : Batch}
    (hc : 0 < capacity) (hcut : cut h payload capacity = .ok batch) :
    payload.length ⌈/⌉ capacity < wordBound ∧
      Fragment.series h (UInt32.ofNat (payload.length ⌈/⌉ capacity)) 0
        (slices capacity (payload.length ⌈/⌉ capacity) payload).1 = .ok batch ∧
      (slices capacity (payload.length ⌈/⌉ capacity) payload).2 = [] := by
  have hcount : (payload.length + (capacity - 1)) / capacity = payload.length ⌈/⌉ capacity := by
    rw [Nat.ceilDiv_eq_add_pred_div, Nat.add_sub_assoc hc]
  unfold cut at hcut
  rw [hcount] at hcut
  dsimp only at hcut
  split at hcut
  case isFalse => cases hcut
  rename_i hword
  split at hcut
  · cases hcut
  rename_i fragments hseries
  unfold Batch.ofSeries at hcut
  split at hcut
  · cases hcut
  rename_i hleft
  split at hcut
  · cases hcut
  cases hcut
  exact ⟨hword, hseries, Decidable.not_not.mp hleft⟩

/-- A payload is cut into fragments that tile it. -/
theorem exists_tiles_of_cut {h : Header} {payload : Bytes} {limit : Nat} {batch : Batch}
    (hcut : cut h payload (limit - overhead) = .ok batch) (hroom : overhead < limit)
    (hlen : overhead + payload.length < wordBound) :
    batch.length = payload.length ⌈/⌉ (limit - overhead) ∧
      (∀ (i : Nat) (f : Fragment), batch[i]? = some f → f.Tile h limit batch.length i) ∧
      batch.flatMap Fragment.payload = payload := by
  have hc : 0 < limit - overhead := Nat.sub_pos_of_lt hroom
  obtain ⟨hword, hseries, hleft⟩ := series_of_cut hc hcut
  have hslice := fun i (hi : i < payload.length ⌈/⌉ (limit - overhead)) => length_slice hc hi
  have hpart := fun i (hi : i < payload.length ⌈/⌉ (limit - overhead)) =>
    getElem?_slices (limit - overhead) payload hi
  have hparts := length_slices (limit - overhead) (payload.length ⌈/⌉ (limit - overhead)) payload
  have hflat := flatten_slices (limit - overhead) (payload.length ⌈/⌉ (limit - overhead)) payload
  rw [hleft, List.append_nil] at hflat
  have hget := Fragment.getElem?_series hseries
  generalize payload.length ⌈/⌉ (limit - overhead) = count at *
  generalize (slices (limit - overhead) count payload).1 = parts at *
  have hpayloads : batch.map Fragment.payload = parts := by
    refine List.ext_getElem? fun i => ?_
    rw [List.getElem?_map, hget, Option.map_map]
    exact congrFun Option.map_id _
  have hlength : batch.length = count := by
    rw [← hparts, ← hpayloads, List.length_map]
  refine ⟨hlength, fun i f hf => ?_, by rw [List.flatMap_def, hpayloads, hflat]⟩
  have hi : i < count := hlength ▸ (List.getElem?_eq_some_iff.mp hf).1
  obtain ⟨hnonempty, hfull⟩ := hslice i hi
  rw [hget, hpart i hi, Option.map_some, Nat.zero_add] at hf
  cases hf
  have hfits := List.length_take_le (limit - overhead) (payload.drop ((limit - overhead) * i))
  have hheld := List.length_take_le' (limit - overhead) (payload.drop ((limit - overhead) * i))
  rw [List.length_drop] at hheld
  rw [hlength]
  exact Fragment.tile_of_part hroom hword hi (by omega) hnonempty hfits hfull

/-- A message that is split leaves in as many fragments as its payload needs, and at least two. -/
theorem length_of_split {m : Message} {n : Nat} {batch : Batch}
    (hs : m.split n = .ok (some batch)) :
    batch.length = m.payloadBytes.length ⌈/⌉ (n - overhead) ∧ 2 ≤ batch.length := by
  obtain ⟨h, -, -, hroom, hexceeds, hlen, hcut⟩ := exists_cut_of_split hs
  have hword : overhead + m.payloadBytes.length < wordBound :=
    Nat.lt_of_le_of_lt (Nat.le_of_eq hlen) h.length.toNat_lt
  have hcount := (exists_tiles_of_cut hcut hroom hword).1
  refine ⟨hcount, ?_⟩
  rw [hcount]
  -- One fragment carries no more than the limit, and the message exceeds it.
  refine Nat.not_lt.mp fun hone => ?_
  have hle := (ceilDiv_le_iff_le_mul (Nat.sub_pos_of_lt hroom)).mp (Nat.le_of_lt_succ hone)
  omega

/-- Each fragment on the wire is within the limit, and carries a byte at least. -/
theorem length_encode_of_split {m : Message} {n : Nat} {batch : Batch}
    (hs : m.split n = .ok (some batch)) {f : Fragment} (hf : f ∈ batch) :
    overhead < f.encode.length ∧ f.encode.length ≤ n := by
  obtain ⟨h, -, -, hroom, -, hlen, hcut⟩ := exists_cut_of_split hs
  have hword : overhead + m.payloadBytes.length < wordBound :=
    Nat.lt_of_le_of_lt (Nat.le_of_eq hlen) h.length.toNat_lt
  obtain ⟨i, hi⟩ := List.getElem?_of_mem hf
  have htile := (exists_tiles_of_cut hcut hroom hword).2.1 i f hi
  have hnonempty := htile.nonempty
  rw [f.length_encode, ← htile.length]
  refine ⟨?_, htile.within⟩
  rw [htile.length]
  omega

theorem exists_given_of_split {m : Message} {n : Nat} {batch : Batch}
    (hs : m.split n = .ok (some batch)) :
    ∃ ms, batch.toMessages = .ok ms ∧ ms.length = batch.length ∧ m.Given ms := by
  obtain ⟨h, -, -, hroom, -⟩ := exists_cut_of_split hs
  have hn : 0 < n := Nat.zero_lt_of_lt hroom
  rw [split_of_pos m hn] at hs
  have hsplitting := m.splitting ⟨n, hn⟩
  rw [hs] at hsplitting
  cases hsplitting with
  | pieces _ _ _ sends =>
    exact ⟨_, sends.messages, Batch.length_toMessages sends.messages,
      .split ⟨n, hn⟩ hs sends.messages⟩

/-! ## All of it -/

/-- A message that is split by `n` leaves in as many fragments as its payload needs, rounded up, and
at least two. They tile the payload: all slices are full but the last one, which is not empty. As
messages they are valid and are not split again, and on the wire they are these messages. -/
theorem split_tiles {m : Message} {n : Nat} {batch : Batch} (hs : m.split n = .ok (some batch)) :
    ∃ h, m.header = .ok h ∧ m.payloadBytes = (m.bytes.take h.length.toNat).drop overhead ∧
      (batch.length = m.payloadBytes.length ⌈/⌉ (n - overhead) ∧ 2 ≤ batch.length) ∧
      (∀ (i : Nat) (f : Fragment), batch[i]? = some f → f.Tile h n batch.length i) ∧
      batch.flatMap Fragment.payload = m.payloadBytes ∧
      ∃ ms, batch.toMessages = .ok ms ∧
        (∀ x ∈ ms, x.validate = .ok () ∧ x.split n = .ok none) ∧
        batch.encode = ms.flatMap Message.bytes ∧
        batch.encode.length = m.payloadBytes.length + overhead * batch.length := by
  obtain ⟨h, hh, hf, hroom, hexceeds, hlen, hcut⟩ := exists_cut_of_split hs
  have hword : overhead + m.payloadBytes.length < wordBound :=
    Nat.lt_of_le_of_lt (Nat.le_of_eq hlen) h.length.toNat_lt
  obtain ⟨-, htiles, hflat⟩ := exists_tiles_of_cut hcut hroom hword
  refine ⟨h, hh, payloadBytes_of_header hh, length_of_split hs, htiles, hflat, ?_⟩
  have hn : 0 < n := Nat.zero_lt_of_lt hroom
  have hsplitting := m.splitting ⟨n, hn⟩
  rw [← split_of_pos m hn, hs] at hsplitting
  cases hsplitting with
  | pieces _ _ _ sends =>
    refine ⟨_, sends.messages, fun x hx => ?_, ?_, ?_⟩
    · obtain ⟨hv, hle⟩ := sends.valid x hx
      exact ⟨hv, by rw [split_of_pos x hn, splitWithin_of_validate hv hle]⟩
    · rw [sends.encode, List.flatMap_def]
    · rw [Batch.length_encode, hflat]

/-- A command with an index that is not below its total and a byte behind its declared length, by
22 bytes: two full slices of two bytes, and one of a single byte. -/
theorem split_tiles_trailing :
    let m : Message := ⟨(Key.fragment ⟨.command, 7⟩ ⟨1, 4⟩ [1, 2, 3, 4, 5]).bytes ++ [6]⟩
    let batch : Batch :=
      [⟨⟨.command, 22, 7⟩, ⟨3, 0⟩, [1, 2]⟩, ⟨⟨.command, 22, 7⟩, ⟨3, 1⟩, [3, 4]⟩,
        ⟨⟨.command, 21, 7⟩, ⟨3, 2⟩, [5]⟩]
    m.split 22 = .ok (some batch) ∧ batch.length = m.payloadBytes.length ⌈/⌉ 2 ∧
      batch.flatMap Fragment.payload = m.payloadBytes ∧
      ∃ ms, batch.toMessages = .ok ms ∧
        (∀ x ∈ ms, x.validate = .ok () ∧ x.split 22 = .ok none) ∧
        batch.encode = ms.flatMap Message.bytes ∧ batch.encode.length = 65 := by
  intro m batch
  have hs : m.split 22 = .ok (some batch) := by decide
  obtain ⟨h, -, -, ⟨hcount, -⟩, -, hflat, ms, hms, hleft, hencode, hlength⟩ := split_tiles hs
  exact ⟨hs, hcount, hflat, ms, hms, hleft, hencode, hlength⟩

end Message

end Mbim
