import Mbim.Proofs.Message.Format
import Mbim.Proofs.Series.Reachable
import Mbim.Series.Offer

/-!
# What a series admits

A series that is kept and changed in place becomes what `Series.add` answers with, and stays what it
is where that refuses: every check comes before the first change.

* `Series.Shaped.offer_eq`: an offer leaves the series that `Series.add` answers with, or the old
  one.
* `Series.Admits`, `Series.Refuses`: which fragments a series takes, and why it refuses the others.
  There is nothing else (`Series.admits_or_refuses`).
* `Series.Admits.exists_offer_eq`, `Series.Refuses.offer_eq`: what an offer comes to.
* `Message.Alike`, `Message.Relabelled`: fragments that no series tells apart.
* `Series.offer_iff_admits`: all of it, for every series that offers can lead to.
-/

namespace Mbim

/-! ## Changes in place -/

namespace Edit

variable {α β : Type}

@[simp] theorem run_read_ok (a : α) (f : α → Edit β) (s : Series) :
    (read (.ok a) >>= f).run s = (f a).run s := rfl

@[simp] theorem run_series (f : Series → Edit β) (s : Series) :
    (series >>= f).run s = (f s).run s := rfl

@[simp] theorem run_change (g : Series → Series) (f : Unit → Edit β) (s : Series) :
    (change g >>= f).run s = (f ()).run (g s) := rfl

/-- A field that is there is overwritten in place. -/
theorem run_overwrite {o : Nat} {w : UInt32} {s : Series} {b : Bytes}
    (h : Series.setField o w s.bytes = (.ok b : Outcome SeriesError Bytes)) (f : Unit → Edit β) :
    (overwrite o w >>= f).run s = (f ()).run { s with bytes := b } := by
  have hover : (overwrite o w).run s = (.ok (), { s with bytes := b }) := by
    simp only [overwrite, h]
  show (bind (overwrite o w) f).run s = _
  simp only [bind, hover]

end Edit

namespace Series

/-- The series is replaced by the one answered with, if there is one. -/
def replacedBy (s : Series) : Outcome SeriesError Series → Outcome SeriesError Unit × Series
  | .ok s' => (.ok (), s')
  | .error e => (.error e, s)
  | .fault x => (.fault x, s)

variable {s : Series} {m : Message}

/-- In a series in shape the fields of the headers are there to be overwritten, so that no payload
is left behind without them. -/
theorem Shaped.extend_eq (h : s.Shaped) (payload : Bytes) (current : UInt32) :
    (Edit.extend payload current).run s = s.replacedBy (s.append payload current) := by
  unfold Edit.extend
  rw [Edit.run_series]
  by_cases hroom : s.bytes.length + payload.length < wordBound
  case neg =>
    unfold append
    simp only [hroom, ↓reduceIte]
    rfl
  obtain ⟨k, p, old, rfl, -⟩ := h
  have happend := append_series k p old payload current
  rw [if_pos (by simpa [Nat.add_assoc] using hroom)] at happend
  rw [happend]
  simp only [append, hroom, ↓reduceIte] at happend ⊢
  obtain ⟨b, hlength, happend⟩ := Outcome.bind_eq_ok_iff.mp happend
  obtain ⟨b', hcurrent, happend⟩ := Outcome.bind_eq_ok_iff.mp happend
  rw [Edit.run_change, Edit.run_overwrite hlength, Edit.run_overwrite hcurrent]
  exact Prod.ext rfl (Outcome.ok.inj happend)

/-- An offer leaves the series that the message makes of it, or the series as it was. -/
theorem Shaped.offer_eq (h : s.Shaped) (m : Message) : s.offer m = s.replacedBy (s.add m) := by
  unfold offer Edit.take add
  cases m.position with
  | error e => rfl
  | fault x => rfl
  | ok found =>
    cases m.kind with
    | error e => rfl
    | ok kind =>
      simp only [Outcome.ofExcept_ok, Outcome.mapError_ok, Outcome.ok_bind, Edit.run_read_ok,
        Edit.run_series]
      by_cases hkind : kind ≠ s.kind
      · simp only [if_pos hkind]
        rfl
      by_cases hcomplete : s.isComplete
      · simp only [if_neg hkind, if_pos hcomplete]
        rfl
      simp only [if_neg hkind, if_neg hcomplete]
      cases next? s.current with
      | none => rfl
      | some expected =>
        by_cases hdue : found.current ≠ expected
        · simp only [if_pos hdue]
          rfl
        simp only [if_neg hdue]
        cases m.payload with
        | error e => rfl
        | fault x => rfl
        | ok payload => exact h.extend_eq payload found.current

theorem Shaped.offer (h : s.Shaped) (m : Message) : (s.offer m).2.Shaped := by
  have htaking := h.taking_add m
  rw [h.offer_eq]
  cases hadd : s.add m with
  | ok s' =>
    rw [hadd] at htaking
    exact htaking.shaped
  | error e => exact h
  | fault x => exact h

theorem Shaped.offerAll (h : s.Shaped) (offered : List Message) : (s.offerAll offered).Shaped := by
  induction offered generalizing s with
  | nil => exact h
  | cons m offered ih => exact ih (h.offer m)

end Series

/-! ## What is admitted -/

/-- The position of the message can be read, and its index is below its total. -/
structure Message.Placed (m : Message) : Prop where
  header : 20 ≤ m.bytes.length
  below : m.bytes.field 16 < m.bytes.field 12

namespace Series

/-- The message is a fragment of the kind of the series. -/
structure Belongs (s : Series) (m : Message) : Prop extends m.Placed where
  kind : m.kind = .ok s.kind

/-- The message is the fragment that the series waits for. -/
structure Awaits (s : Series) (m : Message) : Prop extends s.Belongs m where
  incomplete : s.current.toNat + 1 ≠ s.total.toNat
  due : m.bytes.field 16 = s.current.toNat + 1

/-- The message is the fragment that the series waits for, with a payload that can be read and for
which there is room. -/
structure Admits (s : Series) (m : Message) : Prop extends s.Awaits m where
  covers : 20 ≤ m.bytes.field 4
  held : m.bytes.field 4 ≤ m.bytes.length
  room : s.bytes.length + (m.bytes.field 4 - 20) < wordBound

/-- Why the series refuses the message. Each reason counts only where those before it do not
hold. -/
inductive Refuses (s : Series) (m : Message) : SeriesError → Prop
  | header (short : m.bytes.length < 20) : Refuses s m (.malformed (.truncated 20 m.bytes.length))
  | index (header : 20 ≤ m.bytes.length) (beyond : m.bytes.field 12 ≤ m.bytes.field 16) :
    Refuses s m (.malformed
      (.badPosition (UInt32.ofNat (m.bytes.field 16)) (UInt32.ofNat (m.bytes.field 12))))
  | kind {found : Kind} (placed : m.Placed) (kind : m.kind = .ok found) (differs : found ≠ s.kind) :
    Refuses s m (.wrongKind s.kind found)
  | complete (belongs : s.Belongs m) (complete : s.current.toNat + 1 = s.total.toNat) :
    Refuses s m .complete
  | sequence (belongs : s.Belongs m) (incomplete : s.current.toNat + 1 ≠ s.total.toNat)
    (differs : m.bytes.field 16 ≠ s.current.toNat + 1) :
    Refuses s m (.outOfSequence ⟨s.total, s.current + 1⟩
      ⟨UInt32.ofNat (m.bytes.field 12), UInt32.ofNat (m.bytes.field 16)⟩)
  | underflow (awaits : s.Awaits m) (under : m.bytes.field 4 < 20) :
    Refuses s m (.malformed (.payloadUnderflow (UInt32.ofNat (m.bytes.field 4)) 20))
  | payload (awaits : s.Awaits m) (covers : 20 ≤ m.bytes.field 4)
    (short : m.bytes.length < m.bytes.field 4) :
    Refuses s m (.malformed (.truncated (m.bytes.field 4) m.bytes.length))
  | room (awaits : s.Awaits m) (covers : 20 ≤ m.bytes.field 4)
    (held : m.bytes.field 4 ≤ m.bytes.length)
    (exceeds : wordBound ≤ s.bytes.length + (m.bytes.field 4 - 20)) :
    Refuses s m (.malformed (.tooLarge (s.bytes.length + (m.bytes.field 4 - 20))))

variable {s : Series} {m : Message}

theorem admits_or_refuses (s : Series) (hf : m.isFragment) :
    s.Admits m ∨ ∃ e, s.Refuses m e := by
  obtain ⟨k, hk⟩ := Message.isFragment_iff.mp hf
  have hkind := Message.kind_of_key? hk
  by_cases hheader : 20 ≤ m.bytes.length
  case neg => exact .inr ⟨_, .header (Nat.not_le.mp hheader)⟩
  by_cases hbelow : m.bytes.field 16 < m.bytes.field 12
  case neg => exact .inr ⟨_, .index hheader (Nat.not_lt.mp hbelow)⟩
  by_cases hown : k.kind = s.kind
  case neg => exact .inr ⟨_, .kind ⟨hheader, hbelow⟩ hkind hown⟩
  have hbelongs : s.Belongs m := ⟨⟨hheader, hbelow⟩, hown ▸ hkind⟩
  by_cases hcomplete : s.current.toNat + 1 = s.total.toNat
  · exact .inr ⟨_, .complete hbelongs hcomplete⟩
  by_cases hdue : m.bytes.field 16 = s.current.toNat + 1
  case neg => exact .inr ⟨_, .sequence hbelongs hcomplete hdue⟩
  have hawaits : s.Awaits m := ⟨hbelongs, hcomplete, hdue⟩
  by_cases hcovers : 20 ≤ m.bytes.field 4
  case neg => exact .inr ⟨_, .underflow hawaits (Nat.not_le.mp hcovers)⟩
  by_cases hheld : m.bytes.field 4 ≤ m.bytes.length
  case neg => exact .inr ⟨_, .payload hawaits hcovers (Nat.not_le.mp hheld)⟩
  by_cases hroom : s.bytes.length + (m.bytes.field 4 - 20) < wordBound
  · exact .inl ⟨hawaits, hcovers, hheld, hroom⟩
  · exact .inr ⟨_, .room hawaits hcovers hheld (Nat.not_lt.mp hroom)⟩

end Series

/-! ## What is read of a fragment -/

namespace Message

variable {m : Message} {k : Key}

theorem exists_key?_of_position {p : Position} (h : m.position = .ok p) :
    ∃ k, m.key? = some k := by
  obtain ⟨e, he⟩ | hlacks | hk := m.header_cases
  · rw [position_of_error he] at h
    cases h
  · have hfault := isFault_position_iff.mpr hlacks
    rw [h] at hfault
    cases hfault
  · exact hk

theorem position_of_placed (hk : m.key? = some k) (h : m.Placed) :
    m.position = .ok ⟨UInt32.ofNat (m.bytes.field 12), UInt32.ofNat (m.bytes.field 16)⟩ := by
  rw [position_of_key? hk, Position.decode_eq h.header, if_pos h.below]
  rfl

theorem Placed.toNat_index (h : m.Placed) :
    (UInt32.ofNat (m.bytes.field 16)).toNat = m.bytes.field 16 :=
  UInt32.toNat_ofNat_of_lt' (Bytes.field_lt (by decide) (by have := h.header; omega))

/-- With a key, the payload is what stands behind the position, up to the declared length. -/
theorem payload_eq_field (hk : m.key? = some k) :
    m.payload =
      if m.bytes.field 4 < 20 then
        .error (.payloadUnderflow (UInt32.ofNat (m.bytes.field 4)) 20)
      else if m.bytes.length < m.bytes.field 4 then
        .error (.truncated (m.bytes.field 4) m.bytes.length)
      else .ok ((m.bytes.take (m.bytes.field 4)).drop 20) := by
  obtain ⟨h, hh, hf, -⟩ := key?_eq_some_iff.mp hk
  have hfield : m.bytes.field 4 = h.length.toNat :=
    Bytes.field_eq_of_word? (Header.of_decode hh).2
  rw [payload_of_header hh hf, hfield, UInt32.ofNat_toNat]
  rfl

theorem payload_eq_ok_iff (hk : m.key? = some k) {payload : Bytes} :
    m.payload = .ok payload ↔ 20 ≤ m.bytes.field 4 ∧ m.bytes.field 4 ≤ m.bytes.length ∧
      (m.bytes.take (m.bytes.field 4)).drop 20 = payload := by
  rw [payload_eq_field hk]
  by_cases hcovers : m.bytes.field 4 < 20
  · simp [hcovers, Nat.not_le.mpr hcovers]
  by_cases hheld : m.bytes.length < m.bytes.field 4
  · simp [hcovers, hheld, Nat.not_le.mpr hheld]
  · simp [hcovers, hheld, Nat.not_lt.mp hcovers, Nat.not_lt.mp hheld]

theorem length_of_payload (hk : m.key? = some k) {payload : Bytes} (h : m.payload = .ok payload) :
    payload.length = m.bytes.field 4 - 20 := by
  obtain ⟨-, hheld, rfl⟩ := (payload_eq_ok_iff hk).mp h
  rw [List.length_drop, List.length_take, Nat.min_eq_left hheld]

end Message

/-! ## What an offer comes to -/

namespace Series

variable {s : Series} {m : Message} {k : Key}

theorem isComplete_iff : s.isComplete ↔ s.current.toNat + 1 = s.total.toNat := by
  simp [isComplete, next?_eq_some_iff]

/-- While a fragment is missing, there is an index that follows. -/
theorem Shaped.next?_current (hs : s.Shaped) (h : s.current.toNat + 1 ≠ s.total.toNat) :
    next? s.current = some (s.current + 1) := by
  obtain ⟨k, p, payload, rfl, hlt⟩ := hs
  have hbound := p.total.toNat_lt
  have hlt' : p.current.toNat + 1 < wordBound := by
    change p.current.toNat + 1 ≠ p.total.toNat at h
    unfold wordBound
    omega
  exact if_pos hlt'

theorem Shaped.toNat_current_add_one (hs : s.Shaped) (h : s.current.toNat + 1 ≠ s.total.toNat) :
    (s.current + 1).toNat = s.current.toNat + 1 :=
  (next?_eq_some_iff.mp (hs.next?_current h)).symm

/-- With the kind of the series and a position, the checks that are left are those of the index and
of the payload. -/
theorem Belongs.add_eq (h : s.Belongs m) (hs : s.Shaped) (hk : m.key? = some k) :
    s.add m =
      if s.current.toNat + 1 = s.total.toNat then .error .complete
      else if m.bytes.field 16 ≠ s.current.toNat + 1 then
        .error (.outOfSequence ⟨s.total, s.current + 1⟩
          ⟨UInt32.ofNat (m.bytes.field 12), UInt32.ofNat (m.bytes.field 16)⟩)
      else (do s.append (← m.payload.mapError .malformed) (UInt32.ofNat (m.bytes.field 16))) := by
  unfold add
  rw [Message.position_of_placed hk h.toPlaced, h.kind, Outcome.mapError_ok, Outcome.ok_bind,
    Outcome.ofExcept_ok, Outcome.mapError_ok, Outcome.ok_bind, if_neg (not_not_intro rfl)]
  by_cases hcomplete : s.current.toNat + 1 = s.total.toNat
  · rw [if_pos hcomplete, if_pos (isComplete_iff.mpr hcomplete)]
  have hindex : UInt32.ofNat (m.bytes.field 16) ≠ s.current + 1 ↔
      m.bytes.field 16 ≠ s.current.toNat + 1 := by
    rw [ne_eq, ← UInt32.toNat_inj, h.toNat_index, hs.toNat_current_add_one hcomplete]
  rw [if_neg hcomplete, if_neg (mt isComplete_iff.mp hcomplete), hs.next?_current hcomplete]
  simp only [hindex]

/-- The fragment that the series waits for is taken if its payload is. -/
theorem Awaits.add_eq (h : s.Awaits m) (hs : s.Shaped) (hk : m.key? = some k) :
    s.add m =
      (do s.append (← m.payload.mapError .malformed) (UInt32.ofNat (m.bytes.field 16))) := by
  rw [h.toBelongs.add_eq hs hk, if_neg h.incomplete, if_neg (not_not_intro h.due)]

/-- What is refused leaves the series as it was, with the cause of the first check that fails. -/
theorem Refuses.offer_eq {e : SeriesError} (h : s.Refuses m e) (hs : s.Shaped)
    (hk : m.key? = some k) : s.offer m = (.error e, s) := by
  have hposition := Message.position_of_key? hk
  have hpayload := Message.payload_eq_field hk
  have hadd : s.add m = .error e := by
    cases h with
    | header short =>
      rw [Position.decode_of_short short] at hposition
      unfold add
      rw [hposition]
      rfl
    | index header beyond =>
      rw [Position.decode_eq header, if_neg (Nat.not_lt.mpr beyond)] at hposition
      unfold add
      rw [hposition]
      rfl
    | kind placed kind differs =>
      unfold add
      rw [Message.position_of_placed hk placed, kind, Outcome.mapError_ok, Outcome.ok_bind,
        Outcome.ofExcept_ok, Outcome.mapError_ok, Outcome.ok_bind, if_pos differs]
    | complete belongs complete => rw [belongs.add_eq hs hk, if_pos complete]
    | sequence belongs incomplete differs =>
      rw [belongs.add_eq hs hk, if_neg incomplete, if_pos differs]
    | underflow awaits under =>
      rw [awaits.add_eq hs hk, hpayload, if_pos under]
      rfl
    | payload awaits covers short =>
      rw [awaits.add_eq hs hk, hpayload, if_neg (Nat.not_lt.mpr covers), if_pos short]
      rfl
    | room awaits covers held exceeds =>
      have hread := (Message.payload_eq_ok_iff hk).mpr ⟨covers, held, rfl⟩
      rw [awaits.add_eq hs hk, hread, Outcome.mapError_ok, Outcome.ok_bind]
      unfold append
      simp only [Message.length_of_payload hk hread, if_neg (Nat.not_lt.mpr exceeds)]
  rw [hs.offer_eq, hadd]
  rfl

theorem Shaped.exists_append_eq (hs : s.Shaped) {payload : Bytes}
    (hroom : s.bytes.length + payload.length < wordBound) (current : UInt32) :
    ∃ s', s.append payload current = .ok s' := by
  obtain ⟨k, p, old, rfl, -⟩ := hs
  rw [Key.bytes_series, Key.length_fragment, Nat.add_assoc, ← List.length_append] at hroom
  exact ⟨_, (append_series k p old payload current).trans (if_pos hroom)⟩

theorem Admits.exists_offer_eq (h : s.Admits m) (hs : s.Shaped) (hk : m.key? = some k) :
    ∃ payload s', m.payload = .ok payload ∧ s.append payload (s.current + 1) = .ok s' ∧
      s.offer m = (.ok (), s') := by
  have hpayload := (Message.payload_eq_ok_iff hk).mpr ⟨h.covers, h.held, rfl⟩
  have hroom : s.bytes.length + ((m.bytes.take (m.bytes.field 4)).drop 20).length < wordBound := by
    rw [Message.length_of_payload hk hpayload]
    exact h.room
  have hindex : UInt32.ofNat (m.bytes.field 16) = s.current + 1 := by
    rw [← UInt32.toNat_inj, h.toNat_index, h.due, hs.toNat_current_add_one h.incomplete]
  obtain ⟨s', happend⟩ := hs.exists_append_eq hroom (s.current + 1)
  have hadd := h.toAwaits.add_eq hs hk
  rw [hpayload, hindex, Outcome.mapError_ok, Outcome.ok_bind, happend] at hadd
  refine ⟨_, s', hpayload, happend, ?_⟩
  rw [hs.offer_eq, hadd]
  rfl

/-- An offer comes to what the series admits or refuses, and to nothing else. -/
theorem Shaped.offer_cases (hs : s.Shaped) (hk : m.key? = some k) :
    (s.Admits m ∧ (s.offer m).1 = .ok ()) ∨ ∃ e, s.Refuses m e ∧ s.offer m = (.error e, s) := by
  obtain h | ⟨e, h⟩ := s.admits_or_refuses (Message.isFragment_iff.mpr ⟨k, hk⟩)
  · obtain ⟨-, s', -, -, hoffer⟩ := h.exists_offer_eq hs hk
    exact .inl ⟨h, by rw [hoffer]⟩
  · exact .inr ⟨e, h, h.offer_eq hs hk⟩

theorem Shaped.offer_eq_ok_iff (hs : s.Shaped) (hk : m.key? = some k) :
    (s.offer m).1 = .ok () ↔ s.Admits m := by
  constructor
  · intro hoffer
    obtain ⟨h, -⟩ | ⟨e, -, he⟩ := hs.offer_cases hk
    · exact h
    · rw [he] at hoffer
      cases hoffer
  · intro h
    obtain ⟨-, s', -, -, hoffer⟩ := h.exists_offer_eq hs hk
    rw [hoffer]

/-- What is refused is so for the reason that is answered. -/
theorem Shaped.offer_eq_error_iff (hs : s.Shaped) (hk : m.key? = some k) {e : SeriesError} :
    (s.offer m).1 = .error e ↔ s.Refuses m e := by
  constructor
  · intro hoffer
    obtain ⟨-, hok⟩ | ⟨e', h, he⟩ := hs.offer_cases hk
    · rw [hok] at hoffer
      cases hoffer
    · rw [he] at hoffer
      cases hoffer
      exact h
  · intro h
    rw [h.offer_eq hs hk]

theorem Shaped.offer_eq_self (hs : s.Shaped) (hk : m.key? = some k)
    (h : (s.offer m).1 ≠ .ok ()) : (s.offer m).2 = s := by
  obtain ⟨-, hok⟩ | ⟨e, -, he⟩ := hs.offer_cases hk
  · exact absurd hok h
  · rw [he]

/-- Whatever is offered is admitted, or is not accepted and leaves the series as it was. -/
theorem Shaped.admits_or_offer_eq_self (hs : s.Shaped) (m : Message) :
    (∃ k, m.key? = some k ∧ s.Admits m) ∨ (s.offer m).1 ≠ .ok () ∧ (s.offer m).2 = s := by
  have hoffer := hs.offer_eq m
  cases hadd : s.add m with
  | ok s' =>
    obtain ⟨p, hp, -⟩ := Outcome.bind_eq_ok_iff.mp hadd
    obtain ⟨k, hk⟩ := Message.exists_key?_of_position (Outcome.mapError_eq_ok_iff.mp hp)
    exact .inl ⟨k, hk, (hs.offer_eq_ok_iff hk).mp (by rw [hoffer, hadd]; rfl)⟩
  | error e =>
    rw [hoffer, hadd]
    exact .inr ⟨nofun, rfl⟩
  | fault x =>
    rw [hoffer, hadd]
    exact .inr ⟨nofun, rfl⟩

end Series

/-! ## What plays no part -/

namespace Message

/-- Two fragments of one kind in one place of their series, with the same payload if either has
one that can be read. -/
structure Alike (m m' : Message) : Prop where
  placed : m.Placed
  placed' : m'.Placed
  kind : m'.kind = m.kind
  index : m'.bytes.field 16 = m.bytes.field 16
  payload : ∀ x, m'.payload = .ok x ↔ m.payload = .ok x

/-- The same bytes but for the transaction, the number of fragments, and what stands behind the
declared length; the position is in order in both or in neither. -/
structure Relabelled (m m' : Message) : Prop where
  placed : m'.Placed ↔ m.Placed
  front : m'.bytes.take 8 = m.bytes.take 8
  index : (m'.bytes.drop 16).take 4 = (m.bytes.drop 16).take 4
  payload : (m'.bytes.take (m.bytes.field 4)).drop 20 = (m.bytes.take (m.bytes.field 4)).drop 20

variable {m m' : Message} {k : Key}

theorem Alike.symm (h : m.Alike m') : m'.Alike m :=
  ⟨h.placed', h.placed, h.kind.symm, h.index.symm, fun x => (h.payload x).symm⟩

/-- A field in front of the transaction is that of the first eight bytes. -/
private theorem field_eq_of_take_eq {b b' : Bytes} (h : b'.take 8 = b.take 8) {o : Nat}
    (ho : o + 4 ≤ 8) : b'.field o = b.field o := by
  have hfront : ∀ b : Bytes, b.field o = littleEndian (((b.take 8).drop o).take 4) := by
    intro b
    rw [List.drop_take, List.take_take, Nat.min_eq_left (by omega)]
    rfl
  rw [hfront, hfront, h]

theorem kind_eq_field (h : m.Placed) :
    m.kind = .ok (Kind.ofCode (UInt32.ofNat (m.bytes.field 0))) := by
  have := h.header
  unfold kind header
  rw [Header.decode_eq, if_neg (by omega), if_neg (by omega)]
  rfl

/-- The transaction, the number of fragments and the bytes behind the declared length are not what
fragments are told apart by. -/
theorem Relabelled.alike (h : m.Relabelled m') (hk : m.key? = some k) (hp : m.Placed) :
    m.Alike m' := by
  have hp' := h.placed.mpr hp
  have hcode := field_eq_of_take_eq h.front (o := 0) (by decide)
  have hdeclared := field_eq_of_take_eq h.front (o := 4) (by decide)
  have hkind : m'.kind = m.kind := by rw [kind_eq_field hp, kind_eq_field hp', hcode]
  have hf' : m'.isFragment := by
    have hf := isFragment_iff.mpr ⟨k, hk⟩
    unfold isFragment at hf ⊢
    rw [hkind]
    exact hf
  obtain ⟨k', hk'⟩ := isFragment_iff.mp hf'
  refine ⟨hp, hp', hkind, congrArg littleEndian h.index, fun x => ?_⟩
  -- Where the length covers the headers, equal slices hold equally many bytes of what is declared.
  have hlength := congrArg List.length h.payload
  simp only [List.length_drop, List.length_take] at hlength
  have hheader := hp.header
  have hheader' := hp'.header
  rw [payload_eq_ok_iff hk, payload_eq_ok_iff hk', hdeclared, h.payload]
  constructor
  · rintro ⟨hcovers, hheld, hx⟩
    exact ⟨hcovers, by omega, hx⟩
  · rintro ⟨hcovers, hheld, hx⟩
    exact ⟨hcovers, by omega, hx⟩

end Message

namespace Series

variable {s : Series} {m m' : Message} {k k' : Key}

/-- What is admitted is so whichever of two fragments that are alike it is. -/
theorem Admits.of_alike (h : s.Admits m) (hk : m.key? = some k) (hk' : m'.key? = some k')
    (halike : m.Alike m') : s.Admits m' := by
  have hpayload := (Message.payload_eq_ok_iff hk).mpr ⟨h.covers, h.held, rfl⟩
  have hpayload' := (halike.payload _).mpr hpayload
  have hlength : m'.bytes.field 4 - 20 = m.bytes.field 4 - 20 :=
    (Message.length_of_payload hk' hpayload').symm.trans (Message.length_of_payload hk hpayload)
  obtain ⟨hcovers, hheld, -⟩ := (Message.payload_eq_ok_iff hk').mp hpayload'
  exact {
    toPlaced := halike.placed'
    kind := halike.kind.trans h.kind
    incomplete := h.incomplete
    due := halike.index.trans h.due
    covers := hcovers
    held := hheld
    room := by rw [hlength]; exact h.room }

/-- Fragments that are alike meet with the same, and leave the same series. -/
theorem Shaped.offer_of_alike (hs : s.Shaped) (hk : m.key? = some k) (halike : m.Alike m') :
    ((s.offer m').1 = .ok () ↔ (s.offer m).1 = .ok ()) ∧ (s.offer m').2 = (s.offer m).2 := by
  have hf' : m'.isFragment := by
    have hf := Message.isFragment_iff.mpr ⟨k, hk⟩
    unfold Message.isFragment at hf ⊢
    rw [halike.kind]
    exact hf
  obtain ⟨k', hk'⟩ := Message.isFragment_iff.mp hf'
  have hadmits : s.Admits m' ↔ s.Admits m :=
    ⟨fun h => h.of_alike hk' hk halike.symm, fun h => h.of_alike hk hk' halike⟩
  refine ⟨by rw [hs.offer_eq_ok_iff hk, hs.offer_eq_ok_iff hk', hadmits], ?_⟩
  by_cases h : s.Admits m
  · obtain ⟨payload, s', hpayload, happend, hoffer⟩ := h.exists_offer_eq hs hk
    obtain ⟨payload', s'', hpayload', happend', hoffer'⟩ := (hadmits.mpr h).exists_offer_eq hs hk'
    rw [(halike.payload payload).mpr hpayload] at hpayload'
    cases hpayload'
    rw [happend] at happend'
    cases happend'
    rw [hoffer, hoffer']
  · rw [hs.offer_eq_self hk (mt (hs.offer_eq_ok_iff hk).mp h),
      hs.offer_eq_self hk' (mt (hs.offer_eq_ok_iff hk').mp (mt hadmits.mp h))]

/-- Relabelled fragments meet with the same, and leave the same series. -/
theorem Shaped.offer_of_relabelled (hs : s.Shaped) (hk : m.key? = some k)
    (h : m.Relabelled m') :
    ((s.offer m').1 = .ok () ↔ (s.offer m).1 = .ok ()) ∧ (s.offer m').2 = (s.offer m).2 := by
  by_cases hp : m.Placed
  · exact hs.offer_of_alike hk (h.alike hk hp)
  · obtain ⟨-, -, hadmits⟩ | ⟨hne, hself⟩ := hs.admits_or_offer_eq_self m
    · exact absurd hadmits.toPlaced hp
    obtain ⟨-, -, hadmits⟩ | ⟨hne', hself'⟩ := hs.admits_or_offer_eq_self m'
    · exact absurd (h.placed.mp hadmits.toPlaced) hp
    exact ⟨iff_of_false hne' hne, hself'.trans hself.symm⟩

/-! ## Series that offers lead to -/

theorem Shaped.offer_keeps (hs : s.Shaped) (m : Message) :
    (s.offer m).2.kind = s.kind ∧ (s.offer m).2.total = s.total := by
  obtain ⟨k, hk, h⟩ | ⟨-, hself⟩ := hs.admits_or_offer_eq_self m
  · obtain ⟨payload, s', -, happend, hoffer⟩ := h.exists_offer_eq hs hk
    rw [hoffer]
    obtain ⟨k', p, old, rfl, -⟩ := hs
    rw [append_series] at happend
    split at happend
    · cases happend
      exact ⟨rfl, rfl⟩
    · cases happend
  · rw [hself]
    exact ⟨rfl, rfl⟩

theorem Shaped.offerAll_keeps (hs : s.Shaped) (offered : List Message) :
    (s.offerAll offered).kind = s.kind ∧ (s.offerAll offered).total = s.total := by
  induction offered generalizing s with
  | nil => exact ⟨rfl, rfl⟩
  | cons m offered ih =>
    obtain ⟨hkind, htotal⟩ := ih (hs.offer m)
    obtain ⟨hkind', htotal'⟩ := hs.offer_keeps m
    exact ⟨hkind.trans hkind', htotal.trans htotal'⟩

/-- A series starts with a fragment that has index zero. -/
theorem exists_carries_of_ofFirst (h : ofFirst m = .ok s) :
    ∃ k p, m.Carries k p m.payloadBytes ∧ p.current = 0 ∧ s = k.series p m.payloadBytes := by
  obtain ⟨p, hp, -⟩ := Outcome.bind_eq_ok_iff.mp h
  obtain ⟨k, hk⟩ := Message.exists_key?_of_position (Outcome.mapError_eq_ok_iff.mp hp)
  obtain ⟨e, -, he⟩ | ⟨p, payload, hc, h0, hs⟩ := ofFirst_cases hk
  · rw [h] at he
    cases he
  · rw [h] at hs
    cases hs
    obtain rfl := hc.payload_eq
    exact ⟨k, p, hc, h0, rfl⟩

/-- Whatever was offered since its first fragment, a series accepts the fragments that it admits,
and refuses each of the others for the first reason that there is and without a change. It keeps the
kind and the number of fragments of the first one. Fragments that are alike meet with the same, and
so do those that differ in their transaction, their number of fragments and what stands behind the
declared length. -/
theorem offer_iff_admits {m₀ : Message} {s₀ : Series} (h₀ : ofFirst m₀ = .ok s₀)
    (offered : List Message) {m : Message} (hf : m.isFragment) :
    let s := s₀.offerAll offered
    (m₀.kind = .ok s.kind ∧ ∃ p, m₀.position = .ok p ∧ p.total = s.total) ∧
      ((s.offer m).1 = .ok () ↔ s.Admits m) ∧
      (∀ e, (s.offer m).1 = .error e ↔ s.Refuses m e) ∧
      (s.offer m).1.isFault = false ∧
      ((s.offer m).1 ≠ .ok () → (s.offer m).2 = s) ∧
      ∀ m', m.Alike m' ∨ m.Relabelled m' →
        ((s.offer m').1 = .ok () ↔ (s.offer m).1 = .ok ()) ∧ (s.offer m').2 = (s.offer m).2 := by
  intro s
  obtain ⟨k, hk⟩ := Message.isFragment_iff.mp hf
  obtain ⟨k₀, p, hc, h0, rfl⟩ := exists_carries_of_ofFirst h₀
  have hlt := UInt32.lt_iff_toNat_lt.mp (Message.carries_iff.mp hc).2.1
  have hs₀ : (k₀.series p m₀.payloadBytes).Shaped := ⟨k₀, p, _, rfl, hlt⟩
  obtain ⟨hkind, htotal⟩ := hs₀.offerAll_keeps offered
  have hs : s.Shaped := hs₀.offerAll offered
  refine ⟨⟨?_, p, hc.position, htotal.symm⟩, hs.offer_eq_ok_iff hk, fun e =>
    hs.offer_eq_error_iff hk, ?_, hs.offer_eq_self hk, fun m' halike => ?_⟩
  · rw [Message.kind_of_key? hc.key, hkind]
    rfl
  · obtain ⟨-, hok⟩ | ⟨e, -, he⟩ := hs.offer_cases hk
    · rw [hok]
      rfl
    · rw [he]
      rfl
  · exact halike.elim (hs.offer_of_alike hk) (hs.offer_of_relabelled hk)

/-- A series that was offered an indication with an index that is not due either, and its second
fragment. Its third one may come under another transaction, with another number of fragments and
bytes behind its declared length. -/
theorem offer_iff_admits_relabelled :
    let s₀ := Key.series ⟨.command, 7⟩ ⟨3, 0⟩ [1]
    let foreign : Message := Key.fragment ⟨.indication, 7⟩ ⟨3, 2⟩ [9]
    let s := s₀.offerAll [foreign, Key.fragment ⟨.command, 7⟩ ⟨3, 1⟩ [2]]
    let m : Message := Key.fragment ⟨.command, 7⟩ ⟨3, 2⟩ [3]
    let m' : Message := ⟨(Key.fragment ⟨.command, 8⟩ ⟨9, 2⟩ [3]).bytes ++ [4]⟩
    s₀.Refuses foreign (.wrongKind .command .indication) ∧ s.Admits m ∧
      (s.offer m').1 = .ok () ∧ (s.offer m').2 = (s.offer m).2 := by
  intro s₀ foreign s m m'
  have h₀ : ofFirst (Key.fragment ⟨.command, 7⟩ ⟨3, 0⟩ [1]) = .ok s₀ := rfl
  obtain ⟨-, -, hrefused, -⟩ := offer_iff_admits h₀ [] (m := foreign) rfl
  obtain ⟨-, hadmitted, -, -, -, halike⟩ := offer_iff_admits h₀
    [foreign, Key.fragment ⟨.command, 7⟩ ⟨3, 1⟩ [2]] (m := m) rfl
  have hoffer : (s.offer m).1 = .ok () := by decide
  have hrelabelled : m.Relabelled m' :=
    ⟨iff_of_true ⟨by decide, by decide⟩ ⟨by decide, by decide⟩, rfl, rfl, rfl⟩
  obtain ⟨hsame, hseries⟩ := halike m' (.inr hrelabelled)
  exact ⟨(hrefused _).mp rfl, hadmitted.mp hoffer, hsame.mpr hoffer, hseries⟩

end Series

end Mbim
