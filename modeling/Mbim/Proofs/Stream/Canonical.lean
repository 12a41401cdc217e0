import Mbim.Proofs.Split.Pieces
import Mbim.Proofs.Stream.Frames

/-!
# Writing what was read

A message has one form on the stream. What is decoded is valid and within the transfer size, so it
is never split, and is written as the bytes that it was read from.

* `Codec.encode_message`: a valid message within the transfer size is written as it is.
* `Codec.exists_of_decode`: what is decoded is such a message, and its bytes are those in front.
* `Codec.drain_messages`, `Codec.eq_flatten_of_drain`: the bytes of such messages are a stream that
  brings them, and no other stream brings them and is used up.
* `Codec.encodeAll_drain`: writing what was read gives back the stream.
-/

namespace Mbim

namespace Codec

variable {c : Codec} {m : Message}

theorem encode_message (hv : m.validate = .ok ()) (hle : m.bytes.length ≤ c.limit.bytes)
    (b : Bytes) : m.splitWithin c.limit = .ok none ∧ c.encode m b = ⟨.ok (), b ++ m.bytes, ∅⟩ := by
  obtain ⟨h, hh, hlen⟩ := Message.exists_header hv
  have hwhole := Message.splitWithin_of_validate hv hle
  have hraw : m.raw = .ok m.bytes := by simp [Message.raw, hh, hlen]
  exact ⟨hwhole, by simp [encode, hv, hwhole, hraw]⟩

/-- What is decoded is a valid message within the transfer size, and its bytes are taken off. -/
theorem exists_of_decode {b : Bytes} (h : (c.decode b).result = .ok (some m)) :
    m.validate = .ok () ∧ m.bytes.length ≤ c.limit.bytes ∧ b = m.bytes ++ (c.decode b).next := by
  obtain ⟨e, hd⟩ | hd | ⟨f, rest, hf, rfl, hd⟩ := c.decode_cases b
  · rw [hd] at h
    cases h
  · rw [hd] at h
    cases h
  · rw [hd] at h ⊢
    simp only [received, answer] at h ⊢
    split at h
    · rename_i hparse
      cases h
      obtain ⟨rfl, hv⟩ := Message.parse_eq_ok_iff.mp hparse
      exact ⟨hv, hf.fits, rfl⟩
    · cases h

theorem drain_messages {ms : List Message}
    (hms : ∀ m ∈ ms, m.validate = .ok () ∧ m.bytes.length ≤ c.limit.bytes) :
    c.drain false (ms.map Message.bytes).flatten = ⟨ms.map fun m => ⟨.ok m, ∅⟩, [], false⟩ := by
  induction ms with
  | nil => exact drain_of_waiting false rfl
  | cons m ms ih =>
    obtain ⟨hv, hle⟩ := hms m List.mem_cons_self
    have hdecode := decode_message hv hle (ms.map Message.bytes).flatten
    have hread : c.read false (m.bytes ++ (ms.map Message.bytes).flatten) = _ := hdecode
    rw [List.map_cons, List.flatten_cons, drain_of_message false (by rw [hread]), hread,
      ih fun m hm => hms m (List.mem_cons_of_mem _ hm)]
    rfl

/-- A stream that brings messages only does not start with a failure. -/
private theorem exists_ok_of_drain {s : Bytes} {ms : List Message}
    (hms : (c.drain false s).arrivals.map Arrival.result = ms.map .ok) :
    ∃ found, (c.decode s).result = .ok found := by
  cases hres : (c.decode s).result with
  | ok found => exact ⟨found, rfl⟩
  | error e =>
    exfalso
    rw [drain_of_error false hres] at hms
    split at hms <;> cases ms <;> cases hms
  | fault f =>
    exfalso
    rw [drain_of_fault false hres] at hms
    cases ms <;> cases hms

/-- A stream that brings messages only, and is used up, is the bytes of these messages. All of them
are valid and within the transfer size. -/
theorem eq_flatten_of_drain {s : Bytes} {ms : List Message}
    (hms : (c.drain false s).arrivals.map Arrival.result = ms.map .ok)
    (hrest : (c.drain false s).rest = []) :
    s = (ms.map Message.bytes).flatten ∧
      ∀ m ∈ ms, m.validate = .ok () ∧ m.bytes.length ≤ c.limit.bytes := by
  induction ms generalizing s with
  | nil =>
    obtain ⟨found, hres⟩ := exists_ok_of_drain hms
    cases found with
    | none =>
      have hwait : c.read false s = ⟨.ok none, s, ∅⟩ := decode_of_waiting hres
      rw [drain_of_waiting false hres, hwait] at hrest
      exact ⟨hrest, by simp⟩
    | some m =>
      rw [drain_of_message false hres] at hms
      cases hms
  | cons m ms ih =>
    obtain ⟨found, hres⟩ := exists_ok_of_drain hms
    cases found with
    | none =>
      rw [drain_of_waiting false hres] at hms
      cases hms
    | some first =>
      obtain ⟨hv, hle, hs⟩ := exists_of_decode hres
      rw [drain_of_message false hres] at hms hrest
      obtain ⟨hfirst, hlater⟩ := List.cons.inj hms
      cases hfirst
      obtain ⟨hnext, hvalid⟩ := ih hlater hrest
      refine ⟨?_, List.forall_mem_cons.mpr ⟨⟨hv, hle⟩, hvalid⟩⟩
      rw [List.map_cons, List.flatten_cons, ← hnext]
      exact hs

theorem encodeAll_messages {ms : List Message}
    (hms : ∀ m ∈ ms, m.validate = .ok () ∧ m.bytes.length ≤ c.limit.bytes) (b : Bytes) :
    c.encodeAll ms b = ⟨ms.map fun _ => .ok (), b ++ (ms.map Message.bytes).flatten, ∅⟩ := by
  induction ms generalizing b with
  | nil => simp [encodeAll]
  | cons m ms ih =>
    obtain ⟨⟨hv, hle⟩, hrest⟩ := List.forall_mem_cons.mp hms
    simp only [encodeAll, (encode_message hv hle b).2, ih hrest, List.map_cons, List.flatten_cons,
      List.append_assoc]
    rfl

/-- Writing what was read gives back the stream: if it brings messages only, and is used up, each
of them is accepted, none is split, and together they are the stream. What is written of any message
that is decoded are the bytes that were taken off for it. -/
theorem encodeAll_drain (c : Codec) :
    (∀ (s : Bytes) (ms : List Message),
      (c.drain false s).arrivals.map Arrival.result = ms.map .ok → (c.drain false s).rest = [] →
      (∀ m ∈ ms, m.splitWithin c.limit = .ok none) ∧
        ∀ b, c.encodeAll ms b = ⟨ms.map fun _ => .ok (), b ++ s, ∅⟩) ∧
    ∀ (s : Bytes) (m : Message), (c.decode s).result = .ok (some m) →
      ∃ taken, s = taken ++ (c.decode s).next ∧
        ∀ b, c.encode m b = ⟨.ok (), b ++ taken, ∅⟩ := by
  constructor
  · intro s ms hms hrest
    obtain ⟨hs, hvalid⟩ := eq_flatten_of_drain hms hrest
    refine ⟨fun m hm => ?_, fun b => ?_⟩
    · exact (encode_message (hvalid m hm).1 (hvalid m hm).2 []).1
    · rw [encodeAll_messages hvalid, ← hs]
  · intro s m hm
    obtain ⟨hv, hle, hs⟩ := exists_of_decode hm
    exact ⟨m.bytes, hs, fun b => (encode_message hv hle b).2⟩

/-- A fragment as long as a transfer, a close request with a byte in its body, and a close
request. -/
def tight : List Message :=
  [Key.fragment ⟨.command, 5⟩ ⟨2, 1⟩ [9], ⟨Header.encode ⟨.closeRequest, 13, 6⟩ ++ [0]⟩,
    .closeRequest 7]

theorem encodeAll_drain_tight :
    let c : Codec := ⟨⟨21, by decide⟩⟩
    let s := (tight.map Message.bytes).flatten
    s.length = 46 ∧ (c.drain false s).arrivals.map Arrival.result = tight.map .ok ∧
      (c.drain false s).rest = [] ∧
      c.encodeAll tight [1, 2] = ⟨[.ok (), .ok (), .ok ()], [1, 2] ++ s, ∅⟩ ∧
      (c.decode (s ++ [3])).result = .ok (some (Key.fragment ⟨.command, 5⟩ ⟨2, 1⟩ [9])) ∧
      ∃ taken, s ++ [3] = taken ++ (c.decode (s ++ [3])).next ∧
        ∀ b, c.encode (Key.fragment ⟨.command, 5⟩ ⟨2, 1⟩ [9]) b = ⟨.ok (), b ++ taken, ∅⟩ := by
  intro c s
  obtain ⟨hstream, hbuffer⟩ := encodeAll_drain c
  have hvalid : ∀ m ∈ tight, m.validate = .ok () ∧ m.bytes.length ≤ c.limit.bytes := by decide
  have hdrain := drain_messages (c := c) hvalid
  have hms : (c.drain false s).arrivals.map Arrival.result = tight.map .ok := by
    rw [hdrain]
    rfl
  have hrest : (c.drain false s).rest = [] := by rw [hdrain]
  have hdecode : (c.decode (s ++ [3])).result =
      .ok (some (Key.fragment ⟨.command, 5⟩ ⟨2, 1⟩ [9])) := by decide
  exact ⟨rfl, hms, hrest, (hstream s tight hms hrest).2 [1, 2], hdecode, hbuffer _ _ hdecode⟩

end Codec

end Mbim
