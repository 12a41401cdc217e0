import Mbim.Proofs.Series.Admission

/-!
# What a series holds

Whatever is offered to a series, it is one fragment that holds the payloads of the fragments that
were accepted, in their order, and the position of the last of them.

* `Series.Holds`: the series has this shape. An offer that is accepted makes its payload the last
  one, and any other changes nothing (`Series.Holds.offer_cases`), so all offers together keep the
  shape (`Series.Holds.offerAll`).
* `Series.Represents`: what the shape comes to: the bytes, what is remembered of them, and the
  message that they are when no fragment is missing.
* `Series.offerAll_represents`: every series is so, whatever was offered to it.
-/

namespace Mbim

namespace Series

/-! ## Accepted messages -/

variable {s : Series} {m : Message} {k : Key} {total : UInt32} {ms : List Message}

theorem accepted_cons_of_ok (h : (s.offer m).1 = .ok ()) (offered : List Message) :
    s.accepted (m :: offered) = m :: (s.offer m).2.accepted offered := by
  simp only [accepted, h]

theorem accepted_cons_of_ne (h : (s.offer m).1 ≠ .ok ()) (offered : List Message) :
    s.accepted (m :: offered) = (s.offer m).2.accepted offered := by
  cases hx : (s.offer m).1 with
  | ok u => exact absurd hx h
  | error e => simp only [accepted, hx]
  | fault x => simp only [accepted, hx]

/-! ## The shape under offers -/

/-- The series of `k` holds the payloads of these messages, which are no more than the first of them
announces. -/
structure Holds (s : Series) (k : Key) (total : UInt32) (ms : List Message) : Prop where
  isFragment : k.kind.isFragment
  shape : s = k.series ⟨total, s.current⟩ (ms.flatMap Message.payloadBytes)
  count : s.current.toNat + 1 = ms.length
  within : ms.length ≤ total.toNat
  word : overhead + (ms.flatMap Message.payloadBytes).length < wordBound
  payloads : ∀ m ∈ ms, m.payload = .ok m.payloadBytes

namespace Holds

theorem total_eq (h : s.Holds k total ms) : s.total = total := by
  rw [h.shape]
  rfl

theorem shaped (h : s.Holds k total ms) : s.Shaped := by
  refine ⟨k, _, _, h.shape, ?_⟩
  have hcount := h.count
  have hwithin := h.within
  show s.current.toNat < total.toNat
  omega

/-- The first fragment is all that a series holds at its start. -/
theorem of_carries {p : Position} (hc : m.Carries k p m.payloadBytes) (h0 : p.current = 0) :
    (k.series p m.payloadBytes).Holds k p.total [m] := by
  obtain ⟨hkind, hlt, hword, -⟩ := Message.carries_iff.mp hc
  have hpos := UInt32.lt_iff_toNat_lt.mp hlt
  refine ⟨hkind, by rw [List.flatMap_singleton]; rfl, ?_, ?_, ?_, ?_⟩
  · show p.current.toNat + 1 = 1
    rw [h0]
    rfl
  · rw [List.length_singleton]
    omega
  · rw [List.flatMap_singleton]
    exact hword
  · intro m' hm'
    rw [List.mem_singleton.mp hm']
    exact hc.payload

/-- A message that is admitted becomes the last one. -/
theorem offer_of_admits (h : s.Holds k total ms) {k' : Key} (hk : m.key? = some k')
    (hadmits : s.Admits m) :
    (s.offer m).1 = .ok () ∧ (s.offer m).2.Holds k total (ms ++ [m]) := by
  obtain ⟨payload, s', hpayload, happend, hoffer⟩ := hadmits.exists_offer_eq h.shaped hk
  obtain rfl := Message.payload_eq_payloadBytes hk hpayload
  have hjoined := append_series k ⟨total, s.current⟩ (ms.flatMap Message.payloadBytes)
    m.payloadBytes (s.current + 1)
  rw [← h.shape, happend] at hjoined
  split at hjoined
  case isFalse => cases hjoined
  rename_i hword
  obtain rfl := Outcome.ok.inj hjoined
  have hcount := h.count
  have hwithin := h.within
  have hincomplete := hadmits.incomplete
  rw [h.total_eq] at hincomplete
  have hall : (ms ++ [m]).flatMap Message.payloadBytes =
      ms.flatMap Message.payloadBytes ++ m.payloadBytes := by
    rw [List.flatMap_append, List.flatMap_singleton]
  rw [hoffer]
  refine ⟨rfl, h.isFragment, by rw [hall]; rfl, ?_, ?_, by rw [hall]; exact hword, ?_⟩
  · show (s.current + 1).toNat + 1 = _
    rw [h.shaped.toNat_current_add_one hadmits.incomplete, hcount, List.length_append]
    rfl
  · rw [List.length_append, List.length_singleton]
    omega
  · intro m' hm'
    obtain hm' | hm' := List.mem_append.mp hm'
    · exact h.payloads m' hm'
    · rw [List.mem_singleton.mp hm']
      exact hpayload

theorem offer_cases (h : s.Holds k total ms) (m : Message) :
    ((s.offer m).1 = .ok () ∧ (s.offer m).2.Holds k total (ms ++ [m])) ∨
      (s.offer m).1 ≠ .ok () ∧ (s.offer m).2 = s := by
  obtain ⟨k', hk, hadmits⟩ | hrefused := h.shaped.admits_or_offer_eq_self m
  · exact .inl (h.offer_of_admits hk hadmits)
  · exact .inr hrefused

/-- Whatever is offered, a series holds those that are accepted. -/
theorem offerAll (h : s.Holds k total ms) (offered : List Message) :
    (s.offerAll offered).Holds k total (ms ++ s.accepted offered) := by
  induction offered generalizing s ms with
  | nil =>
    rw [accepted, List.append_nil]
    exact h
  | cons m offered ih =>
    obtain ⟨hok, hnext⟩ | ⟨hne, hself⟩ := h.offer_cases m
    · rw [accepted_cons_of_ok hok, List.append_cons]
      exact ih hnext
    · rw [accepted_cons_of_ne hne, Series.offerAll, hself]
      exact ih h

end Holds

/-! ## What the shape comes to -/

/-- The series is one fragment, with the header `h` and the place `p` of `first`, that is continued
by `later` and carries the payloads of all. -/
structure Represents (s : Series) (h : Header) (p : Position) (first : Message)
    (later : List Message) (payload : Bytes) : Prop where
  gathered : payload = (first :: later).flatMap Message.payloadBytes
  payloads : ∀ m ∈ first :: later, m.payload = .ok m.payloadBytes
  word : 20 + payload.length < wordBound
  below : later.length < p.total.toNat
  /-- The kind, the transaction and the total of the first one, the index of the last one. -/
  bytes : s.bytes =
    Header.encode ⟨h.kind, UInt32.ofNat (20 + payload.length), h.transaction⟩ ++
      Position.encode ⟨p.total, UInt32.ofNat later.length⟩ ++ payload
  /-- What is remembered of the bytes is what they say. -/
  kind : Message.kind ⟨s.bytes⟩ = .ok s.kind
  position : Position.decode s.bytes = .ok ⟨s.total, s.current⟩
  lt : s.current < s.total
  isComplete : s.isComplete ↔ later.length + 1 = p.total.toNat
  unfinished : later.length + 1 ≠ p.total.toNat →
    s.finish = (.ok (.pending s) : Outcome SeriesError Progress)
  /-- With all fragments, the message is the same bytes in the place of a single fragment. -/
  finished : later.length + 1 = p.total.toNat → ∃ m : Message,
    s.finish = (.ok (.complete m) : Outcome SeriesError Progress) ∧
      m.bytes = Header.encode ⟨h.kind, UInt32.ofNat (20 + payload.length), h.transaction⟩ ++
        Position.encode ⟨1, 0⟩ ++ payload ∧
      m.validate = .ok () ∧ m.payload = .ok payload

theorem Holds.represents {h : Header} {p : Position} {later : List Message}
    (hs : s.Holds h.key p.total (m :: later)) :
    s.Represents h p m later ((m :: later).flatMap Message.payloadBytes) := by
  have hcount : s.current.toNat = later.length := Nat.succ.inj hs.count
  have hwithin : later.length + 1 ≤ p.total.toNat := hs.within
  have hindex : s.current = UInt32.ofNat later.length := by rw [← hcount, UInt32.ofNat_toNat]
  have hlt : s.current < p.total := by
    rw [UInt32.lt_iff_toNat_lt]
    omega
  have hcomplete : s.current.toNat + 1 = p.total.toNat ↔ later.length + 1 = p.total.toNat := by
    rw [hcount]
  obtain ⟨hkind, hshape, -, -, hword, hpayloads⟩ := hs
  generalize hgathered : (m :: later).flatMap Message.payloadBytes = payload at hshape hword
  have htotal : s.total = p.total := by
    rw [hshape]
    rfl
  have hbytes : s.bytes = (h.key.fragment ⟨p.total, s.current⟩ payload).bytes := by
    conv => lhs; rw [hshape]
    rfl
  have hfinish := finish_series (ε := SeriesError) h.key ⟨p.total, s.current⟩ payload
  rw [← hshape] at hfinish
  exact {
    gathered := hgathered.symm
    payloads := hpayloads
    word := hword
    below := hwithin
    bytes := by rw [hbytes, hindex]; rfl
    kind := by
      have hread := h.key.fragment_header ⟨p.total, s.current⟩ payload
      rw [hbytes, Message.kind_of_header hread, hshape]
      rfl
    position := by
      have hread := h.key.decode_fragment (p := ⟨p.total, s.current⟩) hlt payload []
      rw [List.append_nil] at hread
      rw [hbytes, hread, htotal]
    lt := by
      rw [htotal]
      exact hlt
    isComplete := by rw [isComplete_iff, htotal, hcomplete]
    unfinished := fun hne => by rw [hfinish, if_neg (mt hcomplete.mp hne)]
    finished := fun heq => by
      have hcarries := Message.carries_fragment (p := .single) hkind (by decide) hword []
      rw [List.append_nil] at hcarries
      refine ⟨h.key.fragment .single payload, ?_, rfl, ?_, hcarries.payload⟩
      · rw [hfinish, if_pos (hcomplete.mpr heq)]
      · exact Message.validate_fragment hkind (by decide) hword }

/-- Whatever is offered to a series, it is one fragment that represents its first fragment and those
that it accepted, and comes to a valid message when as many are there as the first one announced. -/
theorem offerAll_represents {m₀ : Message} {s₀ : Series} (h₀ : ofFirst m₀ = .ok s₀)
    (offered : List Message) :
    ∃ h p, m₀.header = .ok h ∧ m₀.position = .ok p ∧
      (s₀.offerAll offered).Represents h p m₀ (s₀.accepted offered)
        ((m₀ :: s₀.accepted offered).flatMap Message.payloadBytes) := by
  obtain ⟨k, p, hc, h0, rfl⟩ := exists_carries_of_ofFirst h₀
  obtain ⟨h, hh, -, rfl⟩ := Message.key?_eq_some_iff.mp hc.key
  have hholds := (Holds.of_carries hc h0).offerAll offered
  exact ⟨h, p, hh, hc.position, hholds.represents⟩

/-- A fragment that comes too early, an empty one of another transaction and twice, the last one
with bytes behind its declared length, and one more: two of the five are accepted, and complete the
series. -/
theorem offerAll_represents_repeats :
    let first : Message := ⟨(Key.fragment ⟨.command, 7⟩ ⟨3, 0⟩ [1]).bytes ++ [5]⟩
    let empty : Message := Key.fragment ⟨.command, 9⟩ ⟨4, 1⟩ []
    let last : Message := Key.fragment ⟨.command, 7⟩ ⟨3, 2⟩ [2, 3]
    let trailing : Message := ⟨last.bytes ++ [6]⟩
    let s₀ := Key.series ⟨.command, 7⟩ ⟨3, 0⟩ [1]
    let offered := [last, empty, empty, trailing, last]
    ofFirst first = .ok s₀ ∧ s₀.accepted offered = [empty, trailing] ∧
      ∃ m : Message, (s₀.offerAll offered).finish =
          (.ok (.complete m) : Outcome SeriesError Progress) ∧
        m.validate = .ok () ∧ m.payload = .ok [1, 2, 3] := by
  intro first empty last trailing s₀ offered
  have h₀ : ofFirst first = .ok s₀ := rfl
  have haccepted : s₀.accepted offered = [empty, trailing] := by decide
  obtain ⟨h, p, -, hposition, hrepresents⟩ := offerAll_represents h₀ offered
  cases hposition
  rw [haccepted] at hrepresents
  obtain ⟨m, hfinish, -, hvalid, hpayload⟩ := hrepresents.finished rfl
  exact ⟨h₀, haccepted, m, hfinish, hvalid, hpayload⟩

end Series

end Mbim
