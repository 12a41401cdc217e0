import Mbim.Proofs.Wire.Field
import Mbim.Reassembler.Basic

/-!
# The shape of a fragment

A fragment is a header that declares the right length, a position, and a payload
(`Key.fragment`). Whatever a message holds beyond its declared length plays no part, so the
messages that read as fragments are those bytes with anything behind them.

* `Message.key?`: the key under which the reassembler files a message.
* `Message.Carries`: the message reads as the fragment of a series in one place, with one payload.
* `Message.carries_iff`: reading it that way is having its shape.
* `Message.validate_eq_ok_iff`: what a valid message passed.
* `Message.exists_of_validate`: a valid message of a fragment kind is one fragment, with nothing
  behind it.
-/

namespace Mbim

/-- The fragment of the series `k` in the place `p`. -/
def Key.fragment (k : Key) (p : Position) (payload : Bytes) : Message :=
  ⟨Header.encode ⟨k.kind, UInt32.ofNat (overhead + payload.length), k.transaction⟩ ++ p.encode ++
    payload⟩

namespace Message

/-- The key of the series that the message belongs to, if its header can be read and its kind
carries a position. -/
def key? (m : Message) : Option Key :=
  match m.header with
  | .ok h => if h.kind.isFragment then some h.key else none
  | .error _ => none

/-- The message with the position of a message in one piece. -/
def collapsed (m : Message) : Message :=
  ⟨m.bytes.take headerSize ++ Position.single.encode ++ m.bytes.drop overhead⟩

/-- What stands between the position and the declared length. -/
def payloadBytes (m : Message) : Bytes :=
  match m.header with
  | .ok h => (m.bytes.take h.length.toNat).drop overhead
  | .error _ => []

/-- The message reads as the fragment of `k` in the place `p` with this payload. -/
structure Carries (m : Message) (k : Key) (p : Position) (payload : Bytes) : Prop where
  key : m.key? = some k
  position : m.position = .ok p
  payload : m.payload = .ok payload

theorem key?_eq_some_iff {m : Message} {k : Key} :
    m.key? = some k ↔ ∃ h, m.header = .ok h ∧ h.kind.isFragment ∧ h.key = k := by
  unfold key?
  split
  · rename_i h hh
    simp only [hh, Except.ok.injEq, exists_eq_left', Option.ite_none_right_eq_some,
      Option.some.injEq]
  · rename_i e he
    simp [he]

theorem key?_of_header {m : Message} {h : Header} (hh : m.header = .ok h)
    (hf : h.kind.isFragment) : m.key? = some h.key := key?_eq_some_iff.mpr ⟨h, hh, hf, rfl⟩

theorem isFragment_iff {m : Message} : m.isFragment ↔ ∃ k, m.key? = some k := by
  unfold isFragment kind key?
  cases m.header with
  | error e => simp [Except.map]
  | ok h => simp [Except.map]

theorem isFragment_of_key? {m : Message} {k : Key} (h : m.key? = some k) : k.kind.isFragment := by
  obtain ⟨h, -, hf, rfl⟩ := key?_eq_some_iff.mp h
  exact hf

theorem kind_of_key? {m : Message} {k : Key} (h : m.key? = some k) : m.kind = .ok k.kind := by
  obtain ⟨h, hh, -, rfl⟩ := key?_eq_some_iff.mp h
  simp [kind, hh, Except.map, Header.key]

theorem fragmentKind_of_key? {m : Message} {k : Key} (h : m.key? = some k) :
    m.fragmentKind = .ok k.kind := by
  simp [fragmentKind, kind_of_key? h, isFragment_of_key? h]

theorem position_of_key? {m : Message} {k : Key} (h : m.key? = some k) :
    m.position = .ofExcept (Position.decode m.bytes) := by
  simp [position, fragmentKind_of_key? h]

/-- With a key, reading the payload only looks at the lengths. -/
theorem payload_of_header {m : Message} {h : Header} (hh : m.header = .ok h)
    (hf : h.kind.isFragment) :
    m.payload =
      if h.length.toNat < overhead then .error (.payloadUnderflow h.length overhead)
      else if m.bytes.length < h.length.toNat then .error (.truncated h.length.toNat m.bytes.length)
      else .ok ((m.bytes.take h.length.toNat).drop overhead) := by
  have hk := key?_of_header hh hf
  have hl : m.length = .ok h.length := by simp [length, hh, Except.map]
  simp only [payload, fragmentKind_of_key? hk, hl, Outcome.ofExcept_ok, Outcome.ok_bind]

theorem payloadBytes_of_header {m : Message} {h : Header} (hh : m.header = .ok h) :
    m.payloadBytes = (m.bytes.take h.length.toNat).drop overhead := by
  simp only [payloadBytes, hh]

/-- A payload that is read is what stands between the position and the declared length. -/
theorem payload_eq_payloadBytes {m : Message} {k : Key} {payload : Bytes} (hk : m.key? = some k)
    (hpay : m.payload = .ok payload) : payload = m.payloadBytes := by
  obtain ⟨hd, hh, hf, -⟩ := key?_eq_some_iff.mp hk
  rw [payload_of_header hh hf] at hpay
  split at hpay
  · cases hpay
  · split at hpay
    · cases hpay
    · cases hpay
      exact (payloadBytes_of_header hh).symm

theorem Carries.payload_eq {m : Message} {k : Key} {p : Position} {payload : Bytes}
    (h : m.Carries k p payload) : payload = m.payloadBytes :=
  payload_eq_payloadBytes h.key h.payload

end Message

namespace Key

@[simp] theorem length_fragment (k : Key) (p : Position) (payload : Bytes) :
    (k.fragment p payload).bytes.length = overhead + payload.length := by
  simp [fragment, overhead, Nat.add_assoc]

/-- A fragment that stands for all of its series. -/
theorem collapsed_fragment (k : Key) (p : Position) (payload : Bytes) :
    (k.fragment p payload).collapsed = k.fragment .single payload := by
  have htake : (k.fragment p payload).bytes.take headerSize =
      Header.encode ⟨k.kind, UInt32.ofNat (overhead + payload.length), k.transaction⟩ := by
    rw [fragment, List.append_assoc]
    exact List.take_left' rfl
  have hdrop : (k.fragment p payload).bytes.drop overhead = payload := List.drop_left' rfl
  rw [Message.collapsed, htake, hdrop]
  rfl

/-- The header of a fragment, whatever follows it. -/
theorem header_fragment (k : Key) (p : Position) (payload rest : Bytes) :
    Message.header ⟨(k.fragment p payload).bytes ++ rest⟩ =
      .ok ⟨k.kind, UInt32.ofNat (overhead + payload.length), k.transaction⟩ := by
  have := Header.decode_append
    ⟨k.kind, UInt32.ofNat (overhead + payload.length), k.transaction⟩ (p.encode ++ payload ++ rest)
  simpa [Message.header, fragment] using this

theorem fragment_header (k : Key) (p : Position) (payload : Bytes) :
    (k.fragment p payload).header =
      .ok ⟨k.kind, UInt32.ofNat (overhead + payload.length), k.transaction⟩ := by
  simpa using k.header_fragment p payload []

theorem key?_fragment {k : Key} (hk : k.kind.isFragment) (p : Position) (payload : Bytes) :
    (k.fragment p payload).key? = some k :=
  Message.key?_of_header (k.fragment_header p payload) hk

/-- The position of a fragment, whatever follows it. -/
theorem decode_fragment (k : Key) {p : Position} (hp : p.current < p.total)
    (payload rest : Bytes) : Position.decode ((k.fragment p payload).bytes ++ rest) = .ok p := by
  have := Position.decode_append
    (a := Header.encode ⟨k.kind, UInt32.ofNat (overhead + payload.length), k.transaction⟩) rfl p
    (payload ++ rest)
  rw [if_pos hp] at this
  simpa [fragment] using this

end Key

namespace Message

/-- Anything behind a fragment leaves it readable. -/
theorem carries_fragment {k : Key} {p : Position} {payload : Bytes} (hk : k.kind.isFragment)
    (hp : p.current < p.total) (hlen : overhead + payload.length < wordBound) (rest : Bytes) :
    Carries ⟨(k.fragment p payload).bytes ++ rest⟩ k p payload := by
  have hh := k.header_fragment p payload rest
  have hkey := key?_of_header hh hk
  refine ⟨hkey, ?_, ?_⟩
  · rw [position_of_key? hkey]
    exact congrArg Outcome.ofExcept (k.decode_fragment hp payload rest)
  · rw [payload_of_header hh hk, UInt32.toNat_ofNat_of_lt' hlen, if_neg (by omega),
      if_neg (by simp only [List.length_append, Key.length_fragment]; omega)]
    rw [List.take_left' (by simp), Key.fragment]
    exact congrArg Outcome.ok (List.drop_left' (by simp [overhead]))

/-- A message reads as a fragment if it is one, up to its declared length. -/
theorem carries_iff {m : Message} {k : Key} {p : Position} {payload : Bytes} :
    m.Carries k p payload ↔
      k.kind.isFragment ∧ p.current < p.total ∧ overhead + payload.length < wordBound ∧
        ∃ rest, m.bytes = (k.fragment p payload).bytes ++ rest := by
  constructor
  · intro ⟨hkey, hpos, hpay⟩
    obtain ⟨h, hh, hf, rfl⟩ := key?_eq_some_iff.mp hkey
    rw [position_of_key? hkey] at hpos
    have hdec : Position.decode m.bytes = .ok p := by
      cases hd : Position.decode m.bytes with
      | error e => rw [hd] at hpos; cases hpos
      | ok q => rw [hd] at hpos; cases hpos; rfl
    obtain ⟨hlt, a, c, hb, ha⟩ := Position.exists_of_decode hdec
    obtain ⟨c', hb'⟩ := Header.exists_of_decode hh (by rintro hi; rw [hi] at hf; cases hf)
    obtain ⟨rfl, -⟩ := List.append_inj (hb.symm.trans hb') (by rw [ha]; rfl)
    rw [payload_of_header hh hf] at hpay
    split at hpay
    · cases hpay
    split at hpay
    · cases hpay
    rename_i hover hheld
    cases hpay
    have hplen : ((m.bytes.take h.length.toNat).drop overhead).length =
        h.length.toNat - overhead := by
      rw [List.length_drop, List.length_take]
      omega
    have hsize : overhead + ((m.bytes.take h.length.toNat).drop overhead).length =
        h.length.toNat := by omega
    have hword := h.length.toNat_lt
    refine ⟨hf, hlt, by rw [hsize]; exact hword, m.bytes.drop h.length.toNat, ?_⟩
    have hfront : m.bytes.take overhead = h.encode ++ p.encode := by
      rw [hb, ← List.append_assoc]
      exact List.take_left' rfl
    have hheader : (⟨h.kind, UInt32.ofNat h.length.toNat, h.transaction⟩ : Header) = h := by
      rw [UInt32.ofNat_toNat]
    rw [Key.fragment, hsize, Header.key, hheader, ← hfront]
    conv => lhs; rw [← List.take_append_drop h.length.toNat m.bytes]
    congr 1
    conv => lhs; rw [← List.take_append_drop overhead (m.bytes.take h.length.toNat)]
    rw [List.take_take, Nat.min_eq_left (by omega)]
  · rintro ⟨hk, hp, hlen, rest, hb⟩
    have : m = ⟨(k.fragment p payload).bytes ++ rest⟩ := by rw [← hb]
    rw [this]
    exact carries_fragment hk hp hlen rest

end Message

/-! ## Valid fragments -/

namespace Message

theorem parse_eq_ok_iff {b : Bytes} {m : Message} :
    parse b = .ok m ↔ m.bytes = b ∧ m.validate = .ok () := by
  obtain ⟨bytes⟩ := m
  unfold parse
  cases hv : validate ⟨b⟩ with
  | error e =>
    simp only [Except.map, reduceCtorEq, false_iff, not_and]
    rintro rfl
    simp [hv]
  | ok u =>
    simp only [Except.map, Except.ok.injEq, Message.mk.injEq]
    constructor
    · rintro rfl
      exact ⟨rfl, hv⟩
    · rintro ⟨rfl, -⟩
      rfl

/-- A message with a header is valid if it declares its length, its body is long enough for its
kind, and a position is in order. -/
theorem validate_eq_ok_iff {m : Message} {h : Header} (hh : m.header = .ok h) :
    m.validate = .ok () ↔ h.length.toNat = m.bytes.length ∧
      (∃ n, h.kind.minBody? = some n ∧ headerSize + n ≤ m.bytes.length) ∧
      (h.kind.isFragment → ∃ p, Position.decode m.bytes = .ok p) := by
  unfold validate
  rw [hh]
  dsimp only
  cases hbody : h.kind.minBody? with
  | none => simp
  | some n =>
    by_cases hlen : h.length.toNat = m.bytes.length
    · by_cases hmin : m.bytes.length < headerSize + n
      · simp [hlen, hmin, Nat.not_le.mpr hmin]
      · by_cases hf : h.kind.isFragment
        · cases Position.decode m.bytes with
          | error e => simp [hlen, hmin, hf, Except.map]
          | ok p => simpa [hlen, hmin, hf, Except.map] using Nat.not_lt.mp hmin
        · simpa [hlen, hmin, hf] using Nat.not_lt.mp hmin
    · simp [hlen]

theorem validate_fragment {k : Key} {p : Position} {payload : Bytes} (hk : k.kind.isFragment)
    (hp : p.current < p.total) (hlen : overhead + payload.length < wordBound) :
    (k.fragment p payload).validate = .ok () := by
  have hh := k.fragment_header p payload
  have hdec : Position.decode (k.fragment p payload).bytes = .ok p := by
    simpa using k.decode_fragment hp payload []
  rw [validate_eq_ok_iff hh, Key.length_fragment]
  have hmin : headerSize + 8 ≤ overhead + payload.length := Nat.le_add_right _ _
  exact ⟨UInt32.toNat_ofNat_of_lt' hlen, ⟨8, Kind.minBody?_of_isFragment hk, hmin⟩,
    fun _ => ⟨p, hdec⟩⟩

/-- What a valid message of a fragment kind passed: the declared length and the position. -/
theorem of_validate {m : Message} {h : Header} (hv : m.validate = .ok ()) (hh : m.header = .ok h) :
    h.length.toNat = m.bytes.length ∧
      (h.kind.isFragment →
        overhead ≤ m.bytes.length ∧ ∃ p, Position.decode m.bytes = .ok p) := by
  obtain ⟨hlen, ⟨n, hbody, hmin⟩, hposition⟩ := (validate_eq_ok_iff hh).mp hv
  refine ⟨hlen, fun hf => ⟨?_, hposition hf⟩⟩
  rw [Kind.minBody?_of_isFragment hf] at hbody
  cases hbody
  exact hmin

/-- A valid message has a header, which declares its length. -/
theorem exists_header {m : Message} (hv : m.validate = .ok ()) :
    ∃ h, m.header = .ok h ∧ h.length.toNat = m.bytes.length := by
  cases hh : m.header with
  | error e => simp [validate, hh] at hv
  | ok h => exact ⟨h, rfl, (of_validate hv hh).1⟩

/-- A valid message of a fragment kind is one fragment. -/
theorem exists_of_validate {m : Message} {k : Key} (hv : m.validate = .ok ())
    (hk : m.key? = some k) :
    ∃ p payload, m = k.fragment p payload ∧ m.Carries k p payload := by
  obtain ⟨h, hh, hf, rfl⟩ := key?_eq_some_iff.mp hk
  obtain ⟨hlen, hfrag⟩ := of_validate hv hh
  obtain ⟨hmin, p, hp⟩ := hfrag hf
  have hpay := payload_of_header hh hf
  rw [if_neg (by omega), if_neg (by omega)] at hpay
  have hc : m.Carries h.key p ((m.bytes.take h.length.toNat).drop overhead) :=
    ⟨hk, by rw [position_of_key? hk, hp]; rfl, hpay⟩
  obtain ⟨-, -, -, rest, hb⟩ := carries_iff.mp hc
  refine ⟨p, _, ?_, hc⟩
  have hrest : rest = [] := by
    have := congrArg List.length hb
    rw [List.length_append, Key.length_fragment, List.length_drop, List.length_take] at this
    exact List.eq_nil_of_length_eq_zero (by omega)
  rw [hrest, List.append_nil] at hb
  obtain ⟨bytes⟩ := m
  exact congrArg Message.mk hb

/-- A valid message that stands for all of its series is left as it is. -/
theorem collapsed_eq_self {m : Message} (hv : m.validate = .ok ())
    (hsingle : m.position = .ok .single) : m.collapsed = m := by
  obtain ⟨kind, hkind, -⟩ := Outcome.bind_eq_ok_iff.mp hsingle
  have hf : m.isFragment := by
    unfold fragmentKind at hkind
    unfold isFragment
    split at hkind
    · cases hkind
    · rename_i k hk
      rw [hk]
      split at hkind
      · assumption
      · cases hkind
  obtain ⟨k, hk⟩ := isFragment_iff.mp hf
  obtain ⟨p, payload, rfl, hc⟩ := exists_of_validate hv hk
  rw [hc.position] at hsingle
  cases hsingle
  exact Key.collapsed_fragment ..

end Message

end Mbim
