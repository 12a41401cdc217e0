import Mbim.Proofs.Faults
import Mbim.Proofs.Message.Format
import Mbim.Proofs.Split.Tiling

/-!
# What decides a split

Whether a message is left whole, is split or is refused, and why, can be told from its header, the
limit and the number of its bytes. What the payload holds plays no part.

* `Message.Fits`, `Message.Divides`, `Message.Unsplit`: what is left whole, what is split, and what
  is refused and why. There is nothing else (`Message.fits_or_divides_or_unsplit`).
* `Message.split_of_fits`, `Message.exists_split_of_divides`, `Message.split_of_unsplit`: what
  splitting comes to in each case (`Message.Decided`).
* `Message.split_decided`: all of it, with the causes that splitting never ends in.
-/

namespace Mbim

namespace Message

/-! ## The cases -/

/-- The message declares no more than `n` bytes. -/
structure Fits (m : Message) (n : Nat) : Prop where
  limit : 0 < n
  header : 12 ≤ m.bytes.length
  within : m.bytes.field 4 ≤ n

/-- The message is of a fragment kind, declares more than `n` bytes and has all of them, and `n`
leaves room for a payload. -/
structure Divides (m : Message) (n : Nat) : Prop where
  room : 20 < n
  fragment : m.isFragment
  exceeds : n < m.bytes.field 4
  held : m.bytes.field 4 ≤ m.bytes.length

/-- Why the message is neither split by `n` nor left whole. Each reason counts only where those
before it do not hold. -/
inductive Unsplit (m : Message) (n : Nat) : SplitError → Prop
  | limit (zero : n = 0) : Unsplit m n (.limitTooSmall 0 20)
  | empty (limit : 0 < n) (none : m.bytes.length = 0) : Unsplit m n (.unreadable .empty)
  | header (limit : 0 < n) (some : m.bytes.length ≠ 0) (short : m.bytes.length < 12) :
    Unsplit m n (.unreadable (.truncated 12 m.bytes.length))
  | room (limit : 0 < n) (header : 12 ≤ m.bytes.length) (exceeds : n < m.bytes.field 4)
    (room : n ≤ 20) : Unsplit m n (.limitTooSmall n 20)
  | kind {k : Kind} (header : 12 ≤ m.bytes.length) (exceeds : n < m.bytes.field 4) (room : 20 < n)
    (kind : m.kind = .ok k) (whole : k.isFragment = false) : Unsplit m n (.notFragmentable k)
  | payload (header : 12 ≤ m.bytes.length) (exceeds : n < m.bytes.field 4) (room : 20 < n)
    (fragment : m.isFragment) (short : m.bytes.length < m.bytes.field 4) :
    Unsplit m n (.unreadable (.truncated (m.bytes.field 4) m.bytes.length))

variable {m : Message} {n : Nat}

/-- Twelve bytes are a header, and the declared length is the number in its field. -/
theorem exists_header_of_le (hb : 12 ≤ m.bytes.length) :
    ∃ h, m.header = .ok h ∧ h.length.toNat = m.bytes.field 4 := by
  have hdecode : m.header = _ := Header.decode_eq m.bytes
  rw [if_neg (by omega), if_neg (by omega)] at hdecode
  exact ⟨_, hdecode, UInt32.toNat_ofNat_of_lt' (Bytes.field_lt (by decide) (by omega))⟩

/-- A message of a fragment kind has a header. -/
theorem header_le_of_isFragment (hf : m.isFragment) : 12 ≤ m.bytes.length := by
  obtain ⟨k, hk⟩ := isFragment_iff.mp hf
  obtain ⟨h, hh, -⟩ := key?_eq_some_iff.mp hk
  exact (Header.of_decode hh).1

/-- With a header, the kind tells whether the message is a fragment. -/
theorem isFragment_of_header {h : Header} (hh : m.header = .ok h) :
    m.isFragment = h.kind.isFragment := by
  unfold isFragment
  rw [kind_of_header hh]

/-- A message is left whole, split or refused. -/
theorem fits_or_divides_or_unsplit (m : Message) (n : Nat) :
    m.Fits n ∨ m.Divides n ∨ ∃ e, m.Unsplit n e := by
  rcases Nat.eq_zero_or_pos n with hzero | hlimit
  · exact .inr (.inr ⟨_, .limit hzero⟩)
  by_cases hempty : m.bytes.length = 0
  · exact .inr (.inr ⟨_, .empty hlimit hempty⟩)
  by_cases hheader : 12 ≤ m.bytes.length
  case neg => exact .inr (.inr ⟨_, .header hlimit hempty (Nat.not_le.mp hheader)⟩)
  by_cases hwithin : m.bytes.field 4 ≤ n
  · exact .inl ⟨hlimit, hheader, hwithin⟩
  have hexceeds := Nat.not_le.mp hwithin
  by_cases hroom : 20 < n
  case neg => exact .inr (.inr ⟨_, .room hlimit hheader hexceeds (Nat.not_lt.mp hroom)⟩)
  by_cases hfragment : m.isFragment
  case neg =>
    obtain ⟨h, hh, -⟩ := exists_header_of_le hheader
    rw [isFragment_of_header hh, Bool.not_eq_true] at hfragment
    exact .inr (.inr ⟨_, .kind hheader hexceeds hroom (kind_of_header hh) hfragment⟩)
  by_cases hheld : m.bytes.field 4 ≤ m.bytes.length
  · exact .inr (.inl ⟨hroom, hfragment, hexceeds, hheld⟩)
  · exact .inr (.inr ⟨_, .payload hheader hexceeds hroom hfragment (Nat.not_le.mp hheld)⟩)

/-! ## What splitting comes to -/

theorem split_of_fits (h : m.Fits n) : m.split n = .ok none := by
  obtain ⟨hd, hh, hlength⟩ := exists_header_of_le h.header
  rw [split_of_pos m h.limit, splitWithin_of_header hh, hlength, if_pos h.within]

theorem exists_split_of_divides (h : m.Divides n) : ∃ batch, m.split n = .ok (some batch) := by
  obtain ⟨hd, hh, hlength⟩ := exists_header_of_le (header_le_of_isFragment h.fragment)
  have hlimit : 0 < n := Nat.zero_lt_of_lt h.room
  have hf : hd.kind.isFragment := isFragment_of_header hh ▸ h.fragment
  have hroom : overhead < (⟨n, hlimit⟩ : Limit).bytes := h.room
  obtain ⟨batch, -, -, -, hsplit, -⟩ :=
    exists_sends hh hf hroom (hlength ▸ h.exceeds) (hlength ▸ h.held)
  exact ⟨batch, by rw [split_of_pos m hlimit, hsplit]⟩

theorem split_of_unsplit {e : SplitError} (h : m.Unsplit n e) : m.split n = .error e := by
  have hdecode : m.header = _ := Header.decode_eq m.bytes
  cases h with
  | limit zero =>
    rw [zero]
    rfl
  | empty limit none =>
    rw [if_pos none] at hdecode
    simp only [split_of_pos m limit, splitWithin, hdecode]
  | header limit some short =>
    rw [if_neg some, if_pos short] at hdecode
    simp only [split_of_pos m limit, splitWithin, hdecode]
  | room limit header exceeds room =>
    obtain ⟨hd, hh, hlength⟩ := exists_header_of_le header
    rw [split_of_pos m limit, splitWithin_of_header hh, hlength, if_neg (Nat.not_le.mpr exceeds),
      if_pos (show n ≤ overhead from room)]
    rfl
  | kind header exceeds room kind whole =>
    obtain ⟨hd, hh, hlength⟩ := exists_header_of_le header
    rw [kind_of_header hh] at kind
    cases kind
    rw [split_of_pos m (Nat.zero_lt_of_lt room), splitWithin_of_header hh, hlength,
      if_neg (Nat.not_le.mpr exceeds), if_neg (Nat.not_le.mpr (show overhead < n from room)),
      if_neg (by rw [whole]; exact Bool.false_ne_true)]
  | payload header exceeds room fragment short =>
    obtain ⟨hd, hh, hlength⟩ := exists_header_of_le header
    rw [isFragment_of_header hh] at fragment
    rw [split_of_pos m (Nat.zero_lt_of_lt room), splitWithin_of_header hh, hlength,
      if_neg (Nat.not_le.mpr exceeds), if_neg (Nat.not_le.mpr (show overhead < n from room)),
      if_pos fragment, if_pos short]

/-- What splitting by `n` comes to, with the reason for it. -/
inductive Decided (m : Message) (n : Nat) : Outcome SplitError (Option Batch) → Prop
  | whole (fits : m.Fits n) : Decided m n (.ok none)
  | pieces {batch : Batch} (divides : m.Divides n) : Decided m n (.ok (some batch))
  | refused {e : SplitError} (unsplit : m.Unsplit n e) : Decided m n (.error e)

theorem decided (m : Message) (n : Nat) : m.Decided n (m.split n) := by
  rcases m.fits_or_divides_or_unsplit n with hfits | hdivides | ⟨e, hunsplit⟩
  · rw [split_of_fits hfits]
    exact .whole hfits
  · obtain ⟨batch, hbatch⟩ := exists_split_of_divides hdivides
    rw [hbatch]
    exact .pieces hdivides
  · rw [split_of_unsplit hunsplit]
    exact .refused hunsplit

/-- Splitting by `n` is decided by the limit, the header, the kind and the number of bytes, in this
order: it is refused with a cause if and only if that is the first one there is, leaves the message
whole if and only if it declares no more than `n` bytes, and makes fragments of it if and only if
nothing stands against it. There are never too many fragments, none is too large, and no payload
falls short of the headers. A number that is not zero is a limit, and splits as such. -/
theorem split_decided (m : Message) (n : Nat) :
    (∀ e, m.split n = .error e ↔ m.Unsplit n e) ∧
      (m.split n = .ok none ↔ m.Fits n) ∧
      ((∃ batch, m.split n = .ok (some batch)) ↔ m.Divides n) ∧
      (m.split n).isFault = false ∧
      (∀ count, m.split n ≠ .error (.indexOverflow count)) ∧
      (∀ length, m.split n ≠ .error (.unreadable (.tooLarge length))) ∧
      (∀ declared minimum,
        m.split n ≠ .error (.unreadable (.payloadUnderflow declared minimum))) ∧
      ∀ limit : Limit, m.split limit.bytes = m.splitWithin limit := by
  have hdecided := m.decided n
  have herror : ∀ e, m.split n = .error e ↔ m.Unsplit n e := by
    refine fun e => ⟨fun he => ?_, split_of_unsplit⟩
    rw [he] at hdecided
    cases hdecided with
    | refused unsplit => exact unsplit
  refine ⟨herror, ⟨fun hnone => ?_, split_of_fits⟩, ⟨?_, exists_split_of_divides⟩,
    m.isFault_split n, ?_, ?_, ?_, fun limit => m.split_of_pos limit.pos⟩
  · rw [hnone] at hdecided
    cases hdecided with
    | whole fits => exact fits
  · rintro ⟨batch, hbatch⟩
    rw [hbatch] at hdecided
    cases hdecided with
    | pieces divides => exact divides
  · intro count h
    cases (herror _).mp h
  · intro length h
    cases (herror _).mp h
  · intro declared minimum h
    cases (herror _).mp h

/-- An open request cannot be split by ten bytes; the limit is what is wrong first. -/
example : (openRequest 7 4096).split 10 = .error (.limitTooSmall 10 20) := by decide

end Message

end Mbim
