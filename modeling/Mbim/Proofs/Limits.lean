import Mbim.Proofs.Message.Building
import Mbim.Proofs.Reassembler.Lifetime
import Mbim.Proofs.Split.Decision
import Mbim.Proofs.Stream.Writing

/-!
# Limits that go together

The limits that are derived from a transfer size leave room for a payload in a transfer, and let a
whole transfer be a message. So what one end of a link can build is written, in frames within the
transfer size, and what comes from such a frame does not break the size cap on its own.

* `Config.Coherent`: such limits; `Config.forTransfer?_eq_some_iff`: just these are derived.
* `Codec.encode_eq_ok_iff`, `Codec.encode_of_build`: which messages are written.
  `Codec.exists_frames`: in which frames.
* `Message.split_ne_limitTooSmall`: the limit is never what stands against splitting.
* `Reassembler.TakesAlone`: what is done with messages that need no series to be there;
  `Reassembler.Sound.takesAlone`: it is done with those within the size cap.
* `Config.coherent_iff`: no other limits do.
* `Config.forTransfer?_fits`: all that the derived limits are good for.
-/

namespace Mbim

/-! ## Derived limits -/

/-- A transfer has room for a payload, and a message of one transfer is within the size cap. -/
structure Config.Coherent (c : Config) : Prop where
  room : overhead < c.maxTransfer.bytes
  within : c.maxTransfer.bytes ≤ c.maxMessage.bytes

variable {c : Config}

theorem Config.forTransfer?_eq_some_iff {transfer : Nat} {cap : Limit} {timeout : Nat} :
    forTransfer? transfer cap timeout = some c ↔
      c.Coherent ∧ c.maxTransfer.bytes = transfer ∧ c.maxMessage = cap ∧ c.timeout = timeout := by
  unfold forTransfer?
  constructor
  · intro h
    split at h
    · cases h
    rename_i hrefused
    obtain ⟨hroom, hwithin⟩ := not_or.mp hrefused
    have hpos : 0 < transfer := Nat.zero_lt_of_lt (Nat.not_le.mp hroom)
    rw [Limit.ofNat?, dif_pos hpos] at h
    cases h
    exact ⟨⟨Nat.not_le.mp hroom, Nat.not_lt.mp hwithin⟩, rfl, rfl, rfl⟩
  · rintro ⟨hc, rfl, rfl, rfl⟩
    rw [if_neg (not_or.mpr ⟨Nat.not_le.mpr hc.room, Nat.not_lt.mpr hc.within⟩), Limit.ofNat?,
      dif_pos c.maxTransfer.pos]
    rfl

/-! ## Writing -/

namespace Codec

variable {c : Codec} {m : Message}

theorem encode_eq_ok_iff (hroom : overhead < c.limit.bytes) (b : Bytes) :
    (c.encode m b).result = .ok () ↔
      m.validate = .ok () ∧ (m.isFragment ∨ m.bytes.length ≤ c.limit.bytes) := by
  have hencoding := c.encoding m b
  generalize c.encode m b = step at hencoding
  cases hencoding with
  | whole valid fits => exact iff_of_true rfl ⟨valid, .inr fits⟩
  | pieces valid _ _ fragment => exact iff_of_true rfl ⟨valid, .inl fragment⟩
  | withheld withheld =>
    refine iff_of_false (by simp) fun ⟨hv, h⟩ => withheld.not_accepted ⟨hv, h.symm.imp_right ?_⟩
    exact fun hf => ⟨hroom, hf⟩

theorem exists_frames (c : Codec) (m : Message) (b : Bytes) :
    ∃ frames : List Message, (c.encode m b).next = b ++ (frames.map Message.bytes).flatten ∧
      ∀ f ∈ frames, f.validate = .ok () ∧ f.bytes.length ≤ c.limit.bytes := by
  have hencoding := c.encoding m b
  generalize c.encode m b = step at hencoding
  cases hencoding with
  | whole valid fits => exact ⟨[m], by simp, by simpa using ⟨valid, fits⟩⟩
  | pieces _ _ _ _ split =>
    have hsplitting := m.splitting c.limit
    rw [← Message.split_of_pos m c.limit.pos, split] at hsplitting
    cases hsplitting with
    | pieces _ _ _ sends => exact ⟨_, congrArg (b ++ ·) sends.encode, sends.valid⟩
  | withheld => exact ⟨[], by simp, by simp⟩

end Codec

theorem Draft.length_message_le {d : Draft} (h : d.payload? = none) (t : UInt32) :
    (d.message t).bytes.length ≤ headerSize + wordSize := by
  cases d with
  | openRequest | openDone | closeDone | hostError | functionError => exact Nat.le_refl 16
  | closeRequest => exact Nat.le_add_right 12 4
  | fragment => cases h

theorem Codec.encode_of_build {c : Codec} (hroom : overhead < c.limit.bytes) {d : Draft}
    {t : UInt32} {m : Message} (hm : d.build t = .ok m) (b : Bytes) :
    (c.encode m b).result = .ok () := by
  obtain ⟨hfits, rfl⟩ := Draft.build_eq_ok_iff.mp hm
  refine (encode_eq_ok_iff hroom b).mpr ⟨Draft.validate_message hfits, ?_⟩
  cases hpayload : d.payload? with
  | some payload =>
    rw [Message.isFragment_of_header (d.header_message t)]
    exact .inl (hfits payload hpayload).1
  | none =>
    refine .inr (Nat.le_trans (Draft.length_message_le hpayload t) (Nat.le_of_lt ?_))
    exact Nat.lt_of_le_of_lt (by decide) hroom

theorem Message.split_ne_limitTooSmall {n : Nat} (hroom : overhead < n) (m : Message)
    (limit minimum : Nat) : m.split n ≠ .error (.limitTooSmall limit minimum) := by
  intro heq
  have hdecided := m.decided n
  rw [heq] at hdecided
  cases hdecided with
  | refused unsplit =>
    cases unsplit with
    | limit zero => exact absurd hroom (zero ▸ Nat.not_lt_zero _)
    | room _ _ _ room => exact Nat.not_le.mpr hroom room

/-! ## Taking what was read -/

namespace Reassembler

variable {r : Reassembler} {m : Message} {k : Key}

/-- A first fragment within the size cap is taken where nothing is left under its key: it is
returned if there are no others, and else starts a series. -/
theorem Sound.push_first (hs : r.Sound) {p : Position} {payload : Bytes}
    (hc : m.Carries k p payload) (h0 : p.current = 0)
    (hfits : overhead + payload.length ≤ r.limit.bytes) (now : Nat)
    (hfree : (r.live now).find? k = none) :
    if p.total = 1 then
      (r.push m now).result = .ok (some (k.fragment .single payload)) ∧
        (r.push m now).next = r.live now
    else
      (r.push m now).result = .ok none ∧
        (r.push m now).next = (r.live now).keep ⟨k, k.series p payload, now⟩ := by
  have haccept : (r.live now).accept m now = _ := accept_first hc hfree h0 now
  rw [without_of_find?_eq_none hfree] at haccept
  have hlast : p.current.toNat + 1 = p.total.toNat ↔ p.total = 1 := by
    rw [h0, ← UInt32.toNat_inj]
    exact eq_comm
  have hcap : overhead + payload.length ≤ (r.live now).limit.bytes := hfits
  rw [hs.push_eq, haccept]
  by_cases hone : p.total = 1
  · rw [if_pos hone, settle_of_last hcap (hlast.mpr hone)]
    exact ⟨rfl, rfl⟩
  · rw [if_neg hone, settle_of_pending hcap fun h => hone (hlast.mp h)]
    exact ⟨rfl, rfl⟩

theorem Sound.find?_live_eq_none (hs : r.Sound) {now : Nat}
    (h : ∀ q, r.find? k = some q → q.isExpired r.timeout now) : (r.live now).find? k = none := by
  cases hfind : (r.live now).find? k with
  | none => rfl
  | some q =>
    obtain ⟨hq, hlive⟩ := hs.find?_live_eq_some_iff.mp hfind
    have hover := of_decide_eq_true (h q hq)
    omega

/-- The reassembler takes the message if it needs no series to be there. A message of a kind without
fragments passes. A first fragment, under whose key nothing but what is overdue is held, is returned
if it is all of its series, and else starts one. -/
structure TakesAlone (r : Reassembler) (m : Message) (now : Nat) : Prop where
  passing : m.isFragment = false →
    (r.push m now).result = .ok (some m) ∧ (r.push m now).next = r.live now
  first : ∀ k p, m.key? = some k → m.position = .ok p → p.current = 0 →
    (∀ q, r.find? k = some q → q.isExpired r.timeout now) →
    ∃ payload, m.payload = .ok payload ∧
      if p.total = 1 then
        (r.push m now).result = .ok (some m) ∧ (r.push m now).next = r.live now
      else
        (r.push m now).result = .ok none ∧
          (r.push m now).next = (r.live now).keep ⟨k, k.series p payload, now⟩

/-- A valid message within the size cap is taken if it needs no series to be there. -/
theorem Sound.takesAlone (hs : r.Sound) (hv : m.validate = .ok ())
    (hle : m.bytes.length ≤ r.limit.bytes) (now : Nat) : r.TakesAlone m now where
  passing hf := by
    refine hs.push_passing hv ?_ now
    rw [← Option.not_isSome_iff_eq_none, Option.isSome_iff_exists, ← Message.isFragment_iff, hf]
    exact Bool.false_ne_true
  first k p hk hp h0 hover := by
    obtain ⟨q, payload, rfl, hcarries⟩ := Message.exists_of_validate hv hk
    rw [hcarries.position] at hp
    cases hp
    rw [k.length_fragment] at hle
    have hpush := hs.push_first hcarries h0 hle now (hs.find?_live_eq_none hover)
    refine ⟨payload, hcarries.payload, ?_⟩
    by_cases hone : p.total = 1
    · have hsingle : p = .single := by
        obtain ⟨total, current⟩ := p
        cases hone
        cases h0
        rfl
      rw [if_pos hone] at hpush ⊢
      rwa [hsingle] at hpush ⊢
    · rwa [if_neg hone] at hpush ⊢

/-- What is read from a frame and needs no series to be there is taken: a transfer is within the
size cap. -/
theorem Reachable.takesAlone_of_decode (hr : Reachable c.maxMessage c.timeout r) (hc : c.Coherent)
    {s : Bytes} (hm : ((Codec.ofConfig c).decode s).result = .ok (some m)) (now : Nat) :
    r.TakesAlone m now := by
  obtain ⟨hv, hle, -⟩ := Codec.exists_of_decode hm
  refine hr.sound.takesAlone hv ?_ now
  rw [hr.limits.1]
  exact Nat.le_trans hle hc.within

theorem Sound.push_first_of_oversized (hs : r.Sound) {p : Position} {payload : Bytes}
    (hc : m.Carries k p payload) (h0 : p.current = 0)
    (hexceeds : r.limit.bytes < overhead + payload.length) (now : Nat)
    (hfree : (r.live now).find? k = none) :
    (r.push m now).result =
      .error (.tooLarge k.transaction (overhead + payload.length) r.limit) := by
  have haccept : (r.live now).accept m now = _ := accept_first hc hfree h0 now
  have hcap : ((r.live now).without k).limit.bytes < overhead + payload.length := hexceeds
  rw [hs.push_eq, haccept, settle_of_oversized hcap]
  rfl

theorem Sound.not_takesAlone_of_oversized (hs : r.Sound) (hk : k.kind.isFragment) {payload : Bytes}
    (hword : overhead + payload.length < wordBound)
    (hexceeds : r.limit.bytes < overhead + payload.length) (hfree : r.find? k = none) (now : Nat) :
    ¬ r.TakesAlone (k.fragment .single payload) now := by
  intro htakes
  have hcarries : (k.fragment .single payload).Carries k .single payload := by
    simpa using Message.carries_fragment hk (p := .single) (by decide) hword []
  have hover : ∀ q, r.find? k = some q → q.isExpired r.timeout now := by simp [hfree]
  obtain ⟨_, -, htaken⟩ := htakes.first k .single hcarries.key hcarries.position rfl hover
  rw [if_pos (by rfl)] at htaken
  have hrefused :=
    hs.push_first_of_oversized hcarries rfl hexceeds now (hs.find?_live_eq_none hover)
  cases htaken.1.symm.trans hrefused

end Reassembler

/-! ## No other limits -/

/-- A transfer without room for a payload leaves a command unwritten. -/
theorem Config.room_of_encode_of_build
    (h : ∀ (d : Draft) t m b, d.build t = .ok m →
      ((Codec.ofConfig c).encode m b).result = .ok ()) : overhead < c.maxTransfer.bytes := by
  have hfits : (Draft.fragment .command [0]).Fits := by
    rintro payload hpayload
    cases hpayload
    exact ⟨rfl, by decide⟩
  have hresult := h _ 0 _ [] (Draft.build_eq_ok_iff.mpr ⟨hfits, rfl⟩)
  have hencoding := (Codec.ofConfig c).encoding ((Draft.fragment .command [0]).message 0) []
  generalize (Codec.ofConfig c).encode _ [] = step at hresult hencoding
  cases hencoding with
  | whole _ fits => exact fits
  | pieces _ _ room => exact room
  | withheld => cases hresult

/-- A transfer beyond the size cap brings a message that is not taken. -/
theorem Config.within_of_takesAlone (hroom : overhead < c.maxTransfer.bytes)
    (hword : c.maxMessage.bytes + 1 < wordBound)
    (h : ∀ s m, ((Codec.ofConfig c).decode s).result = .ok (some m) →
      ∀ now, (Reassembler.ofConfig c).TakesAlone m now) :
    c.maxTransfer.bytes ≤ c.maxMessage.bytes := by
  refine Nat.not_lt.mp fun hexceeds => ?_
  -- One byte more than the size cap, or the headers if they alone exceed it.
  obtain ⟨payload, hlen⟩ : ∃ payload : Bytes,
      payload.length = c.maxMessage.bytes + 1 - overhead :=
    ⟨List.replicate _ 0, List.length_replicate⟩
  have hover : overhead < wordBound := by decide
  have hv : (Key.fragment ⟨.command, 0⟩ .single payload).validate = .ok () :=
    Message.validate_fragment rfl (by decide) (by omega)
  have hle : (Key.fragment ⟨.command, 0⟩ .single payload).bytes.length ≤ c.maxTransfer.bytes := by
    rw [Key.length_fragment]
    omega
  have hdecode := Codec.decode_message (c := Codec.ofConfig c) hv hle []
  have hbeyond : (Reassembler.ofConfig c).limit.bytes < overhead + payload.length := by
    show c.maxMessage.bytes < _
    omega
  exact (Reassembler.sound_new c.maxMessage c.timeout).not_takesAlone_of_oversized rfl (by omega)
    hbeyond rfl 0 (h _ _ (congrArg Step.result hdecode) 0)

/-- Limits go together if and only if all that can be built is written with them, and all that is
read and needs no series to be there is taken. -/
theorem Config.coherent_iff (hword : c.maxMessage.bytes + 1 < wordBound) :
    c.Coherent ↔
      (∀ (d : Draft) t m b, d.build t = .ok m →
        ((Codec.ofConfig c).encode m b).result = .ok ()) ∧
      ∀ s m, ((Codec.ofConfig c).decode s).result = .ok (some m) →
        ∀ now, (Reassembler.ofConfig c).TakesAlone m now := by
  constructor
  · intro hc
    exact ⟨fun d t m b hm => Codec.encode_of_build hc.room hm b,
      fun s m hm now => Reassembler.Reachable.new.takesAlone_of_decode hc hm now⟩
  · rintro ⟨hbuilt, htaken⟩
    have hroom := Config.room_of_encode_of_build hbuilt
    exact ⟨hroom, Config.within_of_takesAlone hroom hword htaken⟩

/-! ## All of it -/

/-- Limits are derived from a transfer size if and only if it leaves room for a payload and is
within the size cap. With them, writing accepts the valid messages of fragment kinds whatever their
length, and of the other kinds those within the transfer size, and so all that can be built; what
is written are frames within the transfer size, and splitting never finds the limit too small. What
is read from a frame, and needs no series to be there, is taken by every reassembler with these
limits. -/
theorem Config.forTransfer?_fits (transfer : Nat) (cap : Limit) (timeout : Nat) :
    ((∃ c, forTransfer? transfer cap timeout = some c) ↔ 20 < transfer ∧ transfer ≤ cap.bytes) ∧
    ∀ c, forTransfer? transfer cap timeout = some c →
      (c.maxTransfer.bytes = transfer ∧ c.maxMessage = cap ∧ c.timeout = timeout) ∧
      (∀ m b, ((Codec.ofConfig c).encode m b).result = .ok () ↔
        m.validate = .ok () ∧ (m.isFragment ∨ m.bytes.length ≤ transfer)) ∧
      (∀ (d : Draft) t m b, d.build t = .ok m →
        ((Codec.ofConfig c).encode m b).result = .ok ()) ∧
      (∀ m b, ∃ frames : List Message,
        ((Codec.ofConfig c).encode m b).next = b ++ (frames.map Message.bytes).flatten ∧
        ∀ f ∈ frames, f.validate = .ok () ∧ f.bytes.length ≤ transfer) ∧
      (∀ (m : Message) limit minimum,
        m.splitWithin c.maxTransfer ≠ .error (.limitTooSmall limit minimum)) ∧
      ∀ s m, ((Codec.ofConfig c).decode s).result = .ok (some m) →
        ∀ r now, Reassembler.Reachable cap timeout r → r.TakesAlone m now := by
  constructor
  · constructor
    · rintro ⟨c, h⟩
      obtain ⟨hc, rfl, rfl, rfl⟩ := forTransfer?_eq_some_iff.mp h
      exact ⟨hc.room, hc.within⟩
    · rintro ⟨hroom, hwithin⟩
      exact ⟨⟨⟨transfer, Nat.zero_lt_of_lt hroom⟩, cap, timeout⟩,
        forTransfer?_eq_some_iff.mpr ⟨⟨hroom, hwithin⟩, rfl, rfl, rfl⟩⟩
  · intro c h
    obtain ⟨hc, rfl, rfl, rfl⟩ := forTransfer?_eq_some_iff.mp h
    have hroom : overhead < (Codec.ofConfig c).limit.bytes := hc.room
    refine ⟨⟨rfl, rfl, rfl⟩, fun m b => Codec.encode_eq_ok_iff hroom b,
      fun d t m b hm => Codec.encode_of_build hroom hm b,
      fun m b => (Codec.ofConfig c).exists_frames m b, fun m limit minimum => ?_,
      fun s m hm r now hr => hr.takesAlone_of_decode hc hm now⟩
    rw [← m.split_of_pos c.maxTransfer.pos]
    exact m.split_ne_limitTooSmall hc.room limit minimum

/-- The smallest transfer that limits are derived from, and a size cap as small. A command with two
bytes of payload exceeds them, and is written all the same; the first of its fragments starts a
series. -/
theorem Config.forTransfer?_fits_smallest :
    let command := Key.fragment ⟨.command, 7⟩ .single [1, 2]
    let first := Key.fragment ⟨.command, 7⟩ ⟨2, 0⟩ [1]
    let cap : Limit := ⟨21, by decide⟩
    ∃ c, forTransfer? 21 cap 100 = some c ∧ forTransfer? 20 cap 100 = none ∧
      (command.bytes.length = 22 ∧ ((Codec.ofConfig c).encode command []).result = .ok ()) ∧
      ((Codec.ofConfig c).encode (.closeDone 7 (.other 0)) []).result = .ok () ∧
      ((Codec.ofConfig c).decode first.bytes).result = .ok (some first) ∧
      (Reassembler.new cap 100).find? ⟨.command, 7⟩ = none ∧
      ((Reassembler.new cap 100).push first 3).result = .ok none := by
  intro command first cap
  obtain ⟨hderived, hfits⟩ := forTransfer?_fits 21 cap 100
  obtain ⟨hrefused, -⟩ := forTransfer?_fits 20 cap 100
  obtain ⟨c, h⟩ := hderived.mpr ⟨by decide, by decide⟩
  obtain ⟨-, hwritten, hbuilt, -, -, htaken⟩ := hfits c h
  have hdecoded : ((Codec.ofConfig c).decode first.bytes).result = .ok (some first) := by
    cases h
    decide
  obtain ⟨-, hfirst⟩ := htaken first.bytes first hdecoded (.new cap 100) 3 .new
  obtain ⟨payload, -, hpush⟩ := hfirst ⟨.command, 7⟩ ⟨2, 0⟩ rfl rfl rfl nofun
  refine ⟨c, h, rfl, ⟨rfl, (hwritten command []).mpr ⟨rfl, .inl rfl⟩⟩,
    hbuilt (.closeDone (.other 0)) 7 _ [] rfl, hdecoded, rfl, ?_⟩
  exact hpush.1

end Mbim
