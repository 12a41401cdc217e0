import Mbim.Proofs.Reassembler.Sequence
import Mbim.Split.Basic

/-!
# The pieces of a message

* `Batch.Sends`: a batch goes out as the valid fragments of one series, of bounded size.
* `Message.Splitting`: what splitting any message comes to.
* `Message.splitWithin_fragment`: what splitting a fragment does. Within the limit it stays whole;
  beyond it, and with room for payloads, it becomes all fragments of one series, whose payloads
  together are its own and of which none exceeds the limit.
* `Message.Given`: the pieces in which a message goes out; `Message.Given.exists_fragments`: they
  are all fragments of one series, with its payload. `Reassembler.run_pieces`: they are put
  together.
-/

namespace Mbim

/-! ## Slices -/

/-- The slices, and the bytes behind them, make up the payload. -/
theorem flatten_slices (size count : Nat) (payload : Bytes) :
    (slices size count payload).1.flatten ++ (slices size count payload).2 = payload := by
  induction count generalizing payload with
  | zero => rfl
  | succ count ih =>
    simp only [slices, List.flatten_cons, List.append_assoc, ih, List.take_append_drop]

theorem length_slices (size count : Nat) (payload : Bytes) :
    (slices size count payload).1.length = count := by
  induction count generalizing payload with
  | zero => rfl
  | succ count ih => simp only [slices, List.length_cons, ih]

theorem length_of_mem_slices {size count : Nat} {payload part : Bytes}
    (h : part ∈ (slices size count payload).1) : part.length ≤ size := by
  induction count generalizing payload with
  | zero => cases h
  | succ count ih =>
    simp only [slices, List.mem_cons] at h
    obtain rfl | h := h
    · exact List.length_take_le _ _
    · exact ih h

theorem slices_snd (size count : Nat) (payload : Bytes) :
    (slices size count payload).2 = payload.drop (size * count) := by
  induction count generalizing payload with
  | zero => rfl
  | succ count ih =>
    simp only [slices, ih, List.drop_drop]
    rw [Nat.mul_succ, Nat.add_comm]

/-! ## Fragments of the slices -/

/-- The batch goes out as `ms`, on the wire and as messages: the valid fragments of one series from
the index `first` to the last, with the payloads `parts` and of at most `most` bytes each. -/
structure Batch.Sends (batch : Batch) (k : Key) (total : UInt32) (first : Nat) (ms : List Message)
    (parts : List Bytes) (most : Nat) : Prop where
  fragments : Fragments k total first ms parts
  messages : batch.toMessages = .ok ms
  encode : batch.encode = (ms.map Message.bytes).flatten
  valid : ∀ m ∈ ms, m.validate = .ok () ∧ m.bytes.length ≤ most

/-- One slice more, with its headers, goes out in front. -/
theorem Batch.Sends.cons {batch : Batch} {h : Header} {total : UInt32} {first : Nat}
    {ms : List Message} {parts : List Bytes} {most : Nat}
    (hs : batch.Sends h.key total (first + 1) ms parts most) (hk : h.kind.isFragment)
    (hfirst : first < total.toNat) {part : Bytes} (hword : overhead + part.length < wordBound)
    (hmost : overhead + part.length ≤ most) :
    Batch.Sends
      (⟨{ h with length := UInt32.ofNat (overhead + part.length) }, ⟨total, UInt32.ofNat first⟩,
        part⟩ :: batch)
      h.key total first (h.key.fragment ⟨total, UInt32.ofNat first⟩ part :: ms) (part :: parts)
      most := by
  have hindex : (UInt32.ofNat first).toNat = first :=
    UInt32.toNat_ofNat_of_lt' (Nat.lt_trans hfirst total.toNat_lt)
  have hlt : UInt32.ofNat first < total := by
    rw [UInt32.lt_iff_toNat_lt, hindex]
    exact hfirst
  have hcarries : (h.key.fragment ⟨total, UInt32.ofNat first⟩ part).Carries h.key
      ⟨total, UInt32.ofNat first⟩ part := by
    simpa using Message.carries_fragment (k := h.key) hk hlt hword []
  refine ⟨.cons hindex hcarries hs.fragments, ?_, ?_, ?_⟩
  · have hmessages := hs.messages
    unfold Batch.toMessages at hmessages ⊢
    rw [List.mapM_cons, hmessages]
    simp only [Fragment.toMessage, Message.ofParts?, hword, ↓reduceIte]
    rfl
  · have hencode := hs.encode
    unfold Batch.encode at hencode ⊢
    rw [List.flatMap_cons, hencode]
    rfl
  · intro m hm
    obtain rfl | hm := List.mem_cons.mp hm
    · exact ⟨Message.validate_fragment hk hlt hword, by rw [Key.length_fragment]; exact hmost⟩
    · exact hs.valid m hm

/-- The slices with their headers go out as the fragments of one series. -/
theorem Fragment.series_eq (h : Header) (total : UInt32) (first most : Nat) {parts : List Bytes}
    (hk : h.kind.isFragment) (htotal : first + parts.length = total.toNat)
    (hsize : ∀ part ∈ parts,
      overhead + part.length < wordBound ∧ overhead + part.length ≤ most) :
    ∃ batch ms, Fragment.series h total first parts = .ok batch ∧
      Batch.Sends batch h.key total first ms parts most := by
  induction parts generalizing first with
  | nil => exact ⟨[], [], rfl, .nil (by simpa using htotal), rfl, rfl, by simp⟩
  | cons part parts ih =>
    rw [List.length_cons] at htotal
    obtain ⟨batch, ms, hseries, hsends⟩ := ih (first + 1) (by omega)
      fun p hp => hsize p (List.mem_cons_of_mem _ hp)
    obtain ⟨hword, hmost⟩ := hsize part List.mem_cons_self
    refine ⟨_, _, ?_, hsends.cons hk (by omega) hword hmost⟩
    simp only [Fragment.series, hword, ↓reduceIte, hseries, Except.map]

namespace Message

private theorem le_mul_count {n capacity : Nat} (hc : 0 < capacity) :
    n ≤ capacity * ((n + (capacity - 1)) / capacity) := by
  have := Nat.lt_mul_div_succ (n + (capacity - 1)) hc
  rw [Nat.mul_succ] at this
  omega

private theorem count_le {n capacity : Nat} (hc : 0 < capacity) :
    (n + (capacity - 1)) / capacity ≤ n := by
  obtain rfl | hn := Nat.eq_zero_or_pos n
  · rw [Nat.zero_add]
    exact Nat.le_of_eq (Nat.div_eq_of_lt (by omega))
  · refine Nat.div_le_of_le_mul ?_
    obtain ⟨c, rfl⟩ : ∃ c, capacity = c + 1 := ⟨capacity - 1, by omega⟩
    obtain ⟨l, rfl⟩ : ∃ l, n = l + 1 := ⟨n - 1, by omega⟩
    have := Nat.zero_le (c * l)
    rw [Nat.add_mul, Nat.mul_add]
    omega

/-- A payload is cut into all fragments of one series, none larger than a slice and its headers. -/
theorem cut_eq (h : Header) {payload : Bytes} (capacity : Nat) (hk : h.kind.isFragment)
    (hne : payload ≠ []) (hc : 0 < capacity) (hlen : overhead + payload.length < wordBound) :
    ∃ batch ms total parts, cut h payload capacity = .ok batch ∧
      batch.Sends h.key total 0 ms parts (overhead + capacity) ∧ ms ≠ [] ∧
      parts.flatten = payload := by
  have hreach := le_mul_count (n := payload.length) hc
  have hcount := count_le (n := payload.length) hc
  generalize hn : (payload.length + (capacity - 1)) / capacity = count at hreach hcount
  have hcount_lt : count < wordBound := by omega
  have htotal : (UInt32.ofNat count).toNat = count := UInt32.toNat_ofNat_of_lt' hcount_lt
  have hleft : (slices capacity count payload).2 = [] := by
    rw [slices_snd]
    exact List.drop_eq_nil_of_le hreach
  have hflat := flatten_slices capacity count payload
  rw [hleft, List.append_nil] at hflat
  have hparts := length_slices capacity count payload
  have hsize : ∀ part ∈ (slices capacity count payload).1,
      overhead + part.length < wordBound ∧ overhead + part.length ≤ overhead + capacity := by
    intro part hpart
    have hle : part.length ≤ payload.length := by
      rw [← hflat]
      exact (List.sublist_flatten_of_mem hpart).length_le
    exact ⟨by omega, Nat.add_le_add_left (length_of_mem_slices hpart) overhead⟩
  obtain ⟨batch, ms, hseries, hsends⟩ :=
    Fragment.series_eq h (UInt32.ofNat count) 0 (overhead + capacity) hk (by omega) hsize
  have hpos : 0 < ms.length := by
    have := hsends.fragments.add_length
    have := List.length_pos_iff.mpr hne
    have : count ≠ 0 := by
      rintro rfl
      omega
    omega
  have hbatch : batch ≠ [] := by
    rintro rfl
    cases hsends.messages
    cases hpos
  refine ⟨batch, ms, _, _, ?_, hsends, List.length_pos_iff.mp hpos, hflat⟩
  unfold cut
  simp only [hn, hcount_lt, ↓reduceIte, hseries, Batch.ofSeries, hleft, hbatch, ne_eq,
    not_true_eq_false]

/-- With a header, what is asked is the declared length, the room that the limit leaves, the kind
and whether the payload is there, in this order. -/
theorem splitWithin_of_header {m : Message} {h : Header} (hh : m.header = .ok h) (limit : Limit) :
    m.splitWithin limit =
      if h.length.toNat ≤ limit.bytes then .ok none
      else if limit.bytes ≤ overhead then .error (.limitTooSmall limit.bytes overhead)
      else if h.kind.isFragment then
        if m.bytes.length < h.length.toNat then
          .error (.unreadable (.truncated h.length.toNat m.bytes.length))
        else do return some (← cut h m.payloadBytes (limit.bytes - overhead))
      else .error (.notFragmentable h.kind) := by
  unfold splitWithin
  rw [hh]
  dsimp only
  by_cases hfit : h.length.toNat ≤ limit.bytes
  · rw [if_pos hfit, if_pos hfit]
  by_cases hroom : limit.bytes ≤ overhead
  · rw [if_neg hfit, if_neg hfit, if_pos hroom, if_pos hroom]
  by_cases hf : h.kind.isFragment
  case neg => rw [if_neg hfit, if_neg hfit, if_neg hroom, if_neg hroom, if_neg hf, if_neg hf]
  rw [if_neg hfit, if_neg hfit, if_neg hroom, if_neg hroom, if_pos hf, if_pos hf,
    payload_of_header hh hf, if_neg (by omega), payloadBytes_of_header hh]
  split <;> rfl

/-- What declares more than the limit, has all of it, and is of a fragment kind becomes all
fragments of one series, if the limit leaves room for payloads. -/
theorem exists_sends {m : Message} {h : Header} {limit : Limit} (hh : m.header = .ok h)
    (hf : h.kind.isFragment) (hroom : overhead < limit.bytes)
    (hexceeds : limit.bytes < h.length.toNat) (hheld : h.length.toNat ≤ m.bytes.length) :
    ∃ batch ms total parts, m.splitWithin limit = .ok (some batch) ∧
      batch.Sends h.key total 0 ms parts limit.bytes ∧ ms ≠ [] ∧
      m.payload = .ok parts.flatten := by
  have hpayload : m.payload = .ok m.payloadBytes := by
    rw [payload_of_header hh hf, if_neg (by omega), if_neg (by omega), payloadBytes_of_header hh]
  have hlen : overhead + m.payloadBytes.length = h.length.toNat := by
    rw [payloadBytes_of_header hh, List.length_drop, List.length_take]
    omega
  -- The declared length exceeds the limit, and the limit the headers: there is a payload.
  have hne : m.payloadBytes ≠ [] := List.ne_nil_of_length_pos (by omega)
  have hword : overhead + m.payloadBytes.length < wordBound := by
    rw [hlen]
    exact h.length.toNat_lt
  obtain ⟨batch, ms, total, parts, hcut, hsends, hms, hflat⟩ :=
    cut_eq h (limit.bytes - overhead) hf hne (by omega) hword
  rw [Nat.add_sub_cancel' (by omega)] at hsends
  refine ⟨batch, ms, total, parts, ?_, hsends, hms, by rw [hpayload, hflat]⟩
  rw [splitWithin_of_header hh, if_neg (by omega), if_neg (by omega), if_pos hf,
    if_neg (by omega), hcut]
  rfl

/-- What splitting a message by a limit comes to: it declares a length within the limit and is left
whole, or it is refused, or it is of a fragment kind and becomes all fragments of one series. -/
inductive Splitting (m : Message) (limit : Limit) : Outcome SplitError (Option Batch) → Prop
  | whole {h : Header} (header : m.header = .ok h) (fits : h.length.toNat ≤ limit.bytes) :
    Splitting m limit (.ok none)
  | refused (e : SplitError) : Splitting m limit (.error e)
  | pieces {h : Header} {batch : Batch} {ms : List Message} {total : UInt32} {parts : List Bytes}
    (header : m.header = .ok h) (fragment : h.kind.isFragment)
    (exceeds : limit.bytes < h.length.toNat)
    (sends : batch.Sends h.key total 0 ms parts limit.bytes) (nonempty : ms ≠ [])
    (payload : m.payload = .ok parts.flatten) : Splitting m limit (.ok (some batch))

theorem splitting (m : Message) (limit : Limit) : Splitting m limit (m.splitWithin limit) := by
  cases hh : m.header with
  | error e =>
    have hrefused : m.splitWithin limit = .error (.unreadable e) := by simp only [splitWithin, hh]
    rw [hrefused]
    exact .refused _
  | ok h =>
    have heq := splitWithin_of_header hh limit
    by_cases hfit : h.length.toNat ≤ limit.bytes
    · rw [heq, if_pos hfit]
      exact .whole hh hfit
    by_cases hroom : limit.bytes ≤ overhead
    · rw [heq, if_neg hfit, if_pos hroom]
      exact .refused _
    by_cases hf : h.kind.isFragment
    case neg =>
      rw [heq, if_neg hfit, if_neg hroom, if_neg hf]
      exact .refused _
    by_cases hheld : m.bytes.length < h.length.toNat
    · rw [heq, if_neg hfit, if_neg hroom, if_pos hf, if_pos hheld]
      exact .refused _
    obtain ⟨batch, ms, total, parts, hsplit, hsends, hms, hpayload⟩ :=
      exists_sends hh hf (Nat.not_le.mp hroom) (Nat.not_le.mp hfit) (Nat.not_lt.mp hheld)
    rw [hsplit]
    exact .pieces hh hf (Nat.not_le.mp hfit) hsends hms hpayload

/-- Splitting one fragment by a limit: it fits, or the limit has no room for payloads, or it
becomes all fragments of one series. -/
theorem splitWithin_fragment {k : Key} {p : Position} {payload : Bytes} (hk : k.kind.isFragment)
    (hp : p.current < p.total) (hlen : overhead + payload.length < wordBound) (limit : Limit) :
    (overhead + payload.length ≤ limit.bytes ∧
        (k.fragment p payload).splitWithin limit = .ok none) ∨
      (∃ e, (k.fragment p payload).splitWithin limit = .error e) ∨
      ∃ batch ms total parts, limit.bytes < overhead + payload.length ∧
        (k.fragment p payload).splitWithin limit = .ok (some batch) ∧
        batch.Sends k total 0 ms parts limit.bytes ∧ ms ≠ [] ∧ parts.flatten = payload := by
  have hh := k.fragment_header p payload
  have hpay : (k.fragment p payload).payload = .ok payload := by
    simpa using (carries_fragment hk hp hlen []).payload
  have hsize : (UInt32.ofNat (overhead + payload.length)).toNat = overhead + payload.length :=
    UInt32.toNat_ofNat_of_lt' hlen
  have hsplitting := (k.fragment p payload).splitting limit
  generalize (k.fragment p payload).splitWithin limit = result at hsplitting ⊢
  cases hsplitting with
  | whole header fits =>
    rw [hh] at header
    cases header
    exact .inl ⟨hsize ▸ fits, rfl⟩
  | refused e => exact .inr (.inl ⟨e, rfl⟩)
  | pieces header _ exceeds sends nonempty parts =>
    rw [hh] at header
    cases header
    rw [hpay] at parts
    cases parts
    exact .inr (.inr ⟨_, _, _, _, hsize ▸ exceeds, rfl, sends, nonempty, rfl⟩)

theorem splitWithin_of_validate {m : Message} {limit : Limit} (hv : m.validate = .ok ())
    (hle : m.bytes.length ≤ limit.bytes) : m.splitWithin limit = .ok none := by
  obtain ⟨h, hh, hlen⟩ := exists_header hv
  rw [splitWithin_of_header hh, if_pos (hlen ▸ hle)]

theorem le_of_splitWithin {m : Message} {h : Header} {limit : Limit} (hh : m.header = .ok h)
    (hs : m.splitWithin limit = .ok none) : h.length.toNat ≤ limit.bytes := by
  have hsplitting := m.splitting limit
  rw [hs] at hsplitting
  cases hsplitting with
  | whole header fits =>
    rw [hh] at header
    cases header
    exact fits

theorem exists_key?_of_splitWithin {m : Message} {limit : Limit} {batch : Batch}
    (hs : m.splitWithin limit = .ok (some batch)) : ∃ k, m.key? = some k := by
  have hsplitting := m.splitting limit
  rw [hs] at hsplitting
  cases hsplitting with
  | pieces header fragment => exact ⟨_, key?_of_header header fragment⟩

/-! ## Messages given in pieces -/

/-- The pieces in which a message goes out: itself, if it fits and stands for itself, or the
fragments that it is split into under some limit. -/
inductive Given (m : Message) : List Message → Prop
  | whole (limit : Limit) (fits : m.splitWithin limit = .ok none)
    (single : m.position = .ok .single) : m.Given [m]
  | split (limit : Limit) {batch : Batch} {ms : List Message}
    (split : m.splitWithin limit = .ok (some batch)) (messages : batch.toMessages = .ok ms) :
    m.Given ms

/-- The pieces of a valid message are all fragments of one series, with its payload. -/
theorem Given.exists_fragments {m : Message} {k : Key} {ms : List Message} (hg : m.Given ms)
    (hv : m.validate = .ok ()) (hk : m.key? = some k) :
    ∃ total parts, Fragments k total 0 ms parts ∧ ms ≠ [] ∧
      overhead + parts.flatten.length = m.bytes.length ∧
      overhead + parts.flatten.length < wordBound ∧
      m.collapsed = k.fragment .single parts.flatten := by
  obtain ⟨p, payload, rfl, hc⟩ := exists_of_validate hv hk
  obtain ⟨hf, hp, hlen, -⟩ := carries_iff.mp hc
  cases hg with
  | whole limit _ hsingle =>
    obtain rfl : p = .single := by
      rw [hc.position] at hsingle
      exact (Outcome.ok.inj hsingle)
    exact ⟨1, [payload], .cons rfl hc (.nil rfl), by simp, by simp, by simpa using hlen,
      by simp [Key.collapsed_fragment]⟩
  | split limit hsplit hmessages =>
    obtain ⟨-, hnone⟩ | ⟨e, he⟩ | ⟨batch, ms', total, parts, -, hsome, hsends, hne, hflat⟩ :=
      splitWithin_fragment hf hp hlen limit
    · rw [hnone] at hsplit
      cases hsplit
    · rw [he] at hsplit
      cases hsplit
    · rw [hsome] at hsplit
      cases hsplit
      rw [hsends.messages] at hmessages
      cases hmessages
      subst hflat
      exact ⟨total, parts, hsends.fragments, hne, by simp, hlen, Key.collapsed_fragment ..⟩

end Message

namespace Reassembler

theorem run_pieces {m : Message} {k : Key} {ms : List Message} (hg : m.Given ms)
    (hv : m.validate = .ok ()) (hk : m.key? = some k) {limit : Limit} {timeout : Nat}
    (hcap : m.bytes.length ≤ limit.bytes) (htimeout : 0 < timeout) (now : Nat) :
    ((new limit timeout).run (ms.map fun m => .push m now)).2 = new limit timeout ∧
      ((new limit timeout).run (ms.map fun m => .push m now)).1.map Prod.fst =
        seriesAnswers (ms.length - 1) m.collapsed := by
  obtain ⟨total, parts, hms, hne, hlen, hword, hcollapsed⟩ := hg.exists_fragments hv hk
  have hpushes : pushes (ms.map fun m => .push m now) = ms.map fun m => (m, now) := by
    rw [pushes, List.filterMap_map]
    exact congrFun List.filterMap_eq_map ms
  have hnow : ∀ e ∈ pushes (ms.map fun m => .push m now), e.2 = now := by
    rw [hpushes]
    intro e he
    obtain ⟨m, -, rfl⟩ := List.mem_map.mp he
    rfl
  have hmessages : (pushes (ms.map fun m => .push m now)).map Prod.fst = ms := by
    rw [hpushes, List.map_map]
    exact List.map_id ms
  obtain ⟨hnext, hanswers⟩ := run_fragments limit timeout hms hne hmessages
    (List.pairwise_map.mpr (List.pairwise_map.mpr
      (List.pairwise_of_forall fun _ _ => Nat.le_refl now)))
    (.inr fun e he e' he' => by rw [hnow e he, hnow e' he', Nat.sub_self]; exact htimeout)
    (by omega) hword
  refine ⟨hnext, ?_⟩
  rw [hcollapsed, ← hanswers, answersUnder_run_of_forall]
  intro op hop
  obtain ⟨x, hx, rfl⟩ := List.mem_map.mp hop
  exact hms.key? hx

end Reassembler

end Mbim
