import Mbim.Proofs.Message.Reading
import Mbim.Proofs.Series.Gather

/-!
# Series that can be built

A series comes from a first fragment and the fragments added to it. Fragments of one kind may belong
to different transactions: the series keeps the transaction of the first one.

* `Series.Shaped`: the shape of a fragment whose index is below its total. Every series that can be
  built has it (`Series.Reachable.shaped`).
* `Series.Taking`: what taking a message can come to. It faults if the message lacks a position, and
  only then (`Series.Taking.isFault_iff`); with what is done to finish the series, too
  (`Series.Taking.isFault_finish_iff`).
* `Series.taking_ofFirst`, `Series.Shaped.taking_add`: starting a series and adding to one.
-/

namespace Mbim

namespace Message

/-- The header cannot be read, or is of a kind without fragments, or gives a key. -/
theorem header_cases (m : Message) :
    (∃ e, m.header = .error e) ∨ m.LacksPosition ∨ ∃ k, m.key? = some k := by
  cases hh : m.header with
  | error e => exact .inl ⟨e, rfl⟩
  | ok h =>
    cases hf : h.kind.isFragment with
    | false => exact .inr (.inl ⟨h, hh, hf⟩)
    | true => exact .inr (.inr ⟨h.key, key?_of_header hh hf⟩)

theorem position_of_error {m : Message} {e : DecodeError} (he : m.header = .error e) :
    m.position = .error e := by
  simp [position, fragmentKind, kind, he, Except.map]

theorem not_lacksPosition_of_error {m : Message} {e : DecodeError} (he : m.header = .error e) :
    ¬ m.LacksPosition := by
  rintro ⟨h, hh, -⟩
  rw [he] at hh
  cases hh

theorem not_lacksPosition_of_key? {m : Message} {k : Key} (hk : m.key? = some k) :
    ¬ m.LacksPosition := by
  obtain ⟨h, hh, hf, -⟩ := key?_eq_some_iff.mp hk
  exact not_lacksPosition hh hf

end Message

namespace Series

/-- What the operations on series build from messages. -/
inductive Reachable : Series → Prop
  | first {m : Message} {s : Series} (taken : ofFirst m = .ok s) : Reachable s
  | next {s s' : Series} {m : Message} (reached : Reachable s) (taken : s.add m = .ok s') :
    Reachable s'
  | unfinished {s s' : Series} (reached : Reachable s)
    (pending : s.finish = (.ok (.pending s') : Outcome SeriesError Progress)) : Reachable s'

/-- The series has the shape of one fragment, in a place that there is. -/
def Shaped (s : Series) : Prop :=
  ∃ (k : Key) (p : Position) (payload : Bytes),
    s = k.series p payload ∧ p.current.toNat < p.total.toNat

/-- What taking a message comes to: a fault if it has no position, else a cause or a series. -/
inductive Taking (m : Message) : Outcome SeriesError Series → Prop
  | faulted (f : Fault) (lacks : m.LacksPosition) : Taking m (.fault f)
  | refused (e : SeriesError) (placed : ¬ m.LacksPosition) : Taking m (.error e)
  | taken {s : Series} (placed : ¬ m.LacksPosition) (shaped : s.Shaped) : Taking m (.ok s)

variable {m : Message} {s : Series}

/-- A series in shape is finished without a fault, and as it is if fragments are missing. -/
theorem Shaped.finish_cases {ε : Type} (h : s.Shaped) :
    (∃ x, s.finish = (.ok (.complete x) : Outcome ε Progress)) ∨
      s.finish = (.ok (.pending s) : Outcome ε Progress) := by
  obtain ⟨k, p, payload, rfl, -⟩ := h
  rw [finish_series]
  split
  · exact .inl ⟨_, rfl⟩
  · exact .inr rfl

/-! ## Taking a message -/

/-- Whatever starts by asking for the position faults where there is none. -/
private theorem taking_of_lacksPosition (h : m.LacksPosition)
    (f : Position → Outcome SeriesError Series) :
    Taking m (do f (← m.position.mapError .malformed)) := by
  have hfault := Message.isFault_position_iff.mpr h
  cases hp : m.position with
  | ok p => rw [hp] at hfault; cases hfault
  | error e => rw [hp] at hfault; cases hfault
  | fault x => exact .faulted x h

/-- Whatever starts by asking for the position is refused where the header cannot be read. -/
private theorem taking_of_error {e : DecodeError} (he : m.header = .error e)
    (f : Position → Outcome SeriesError Series) :
    Taking m (do f (← m.position.mapError .malformed)) := by
  rw [Message.position_of_error he]
  exact .refused _ (Message.not_lacksPosition_of_error he)

theorem taking_ofFirst (m : Message) : Taking m (ofFirst m) := by
  obtain ⟨e, he⟩ | hlacks | ⟨k, hk⟩ := m.header_cases
  · exact taking_of_error he _
  · exact taking_of_lacksPosition hlacks _
  · have hplaced := Message.not_lacksPosition_of_key? hk
    obtain ⟨e, -, he⟩ | ⟨p, payload, hc, -, hs⟩ := ofFirst_cases hk
    · rw [he]
      exact .refused e hplaced
    · rw [hs]
      have hlt := (Message.carries_iff.mp hc).2.1
      exact .taken hplaced ⟨k, p, payload, rfl, UInt32.lt_iff_toNat_lt.mp hlt⟩

/-- A message that does not belong to a series in shape is refused. -/
private theorem exists_error_of_kind_or_complete {k : Key} (hk : m.key? = some k)
    (h : k.kind ≠ s.kind ∨ s.isComplete) : ∃ e, s.add m = .error e := by
  obtain ⟨e, he⟩ | ⟨p, hp⟩ := Message.position_cases hk
  · exact ⟨.malformed e, by simp [add, he]⟩
  · by_cases hkind : k.kind = s.kind
    · have hcomplete := h.resolve_left (not_not_intro hkind)
      exact ⟨.complete, by simp [add, hp, Message.kind_of_key? hk, hkind, hcomplete]⟩
    · exact ⟨.wrongKind s.kind k.kind, by simp [add, hp, Message.kind_of_key? hk, hkind]⟩

theorem Shaped.taking_add (h : s.Shaped) (m : Message) : Taking m (s.add m) := by
  obtain ⟨e, he⟩ | hlacks | ⟨k', hk⟩ := m.header_cases
  · exact taking_of_error he _
  · exact taking_of_lacksPosition hlacks _
  · have hplaced := Message.not_lacksPosition_of_key? hk
    obtain ⟨k, p, payload, rfl, hlt⟩ := h
    by_cases hforeign : k'.kind ≠ k.kind ∨ (k.series p payload).isComplete
    · obtain ⟨e, he⟩ := exists_error_of_kind_or_complete (s := k.series p payload) hk hforeign
      rw [he]
      exact .refused e hplaced
    · rw [not_or, Decidable.not_not, isComplete_series] at hforeign
      obtain ⟨hkind, hopen⟩ := hforeign
      have hinc : p.current.toNat + 1 < p.total.toNat := by omega
      obtain ⟨e, -, he⟩ | ⟨q, more, -, hdue, -, ha⟩ := add_cases payload hk hkind hinc
      · rw [he]
        exact .refused e hplaced
      · rw [ha]
        refine .taken hplaced ⟨k, _, _, rfl, ?_⟩
        show q.current.toNat < p.total.toNat
        omega

namespace Taking

variable {x : Outcome SeriesError Series}

/-- Taking a message faults if it has no position, and only then. -/
theorem isFault_iff (h : Taking m x) : x.isFault ↔ m.LacksPosition := by
  cases h with
  | faulted f lacks => simpa using lacks
  | refused e placed => simpa using placed
  | taken placed shaped => simpa using placed

/-- Finishing the series adds no fault. -/
theorem isFault_finish_iff (h : Taking m x) :
    (do (← x).finish : Outcome SeriesError Progress).isFault ↔ m.LacksPosition := by
  rw [Outcome.isFault_bind_iff, h.isFault_iff, or_iff_left]
  rintro ⟨s, rfl, hfault⟩
  cases h with
  | taken placed shaped =>
    obtain ⟨y, hy⟩ | hy := shaped.finish_cases (ε := SeriesError)
    · rw [hy] at hfault
      cases hfault
    · rw [hy] at hfault
      cases hfault

theorem shaped (h : Taking m (.ok s)) : s.Shaped := by
  cases h with
  | taken _ shaped => exact shaped

end Taking

theorem Reachable.shaped (h : s.Reachable) : s.Shaped := by
  induction h with
  | @first m s taken =>
    have := taking_ofFirst m
    rw [taken] at this
    exact this.shaped
  | @next s s' m reached taken ih =>
    have := ih.taking_add m
    rw [taken] at this
    exact this.shaped
  | unfinished reached pending ih =>
    obtain ⟨y, hy⟩ | hy := ih.finish_cases (ε := SeriesError)
    · rw [hy] at pending
      cases pending
    · rw [hy] at pending
      cases pending
      exact ih

end Series

end Mbim
