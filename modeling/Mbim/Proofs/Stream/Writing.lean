import Mbim.Proofs.Message.Reading
import Mbim.Proofs.Split.Tiling
import Mbim.Proofs.Stream.Canonical

/-!
# All of a message or nothing

A message is written with all its bytes, whole or in fragments, or the bytes to send stay as they
are. Which of them happens is decided by the message and the transfer size, whatever was written
before.

* `Codec.Withholds`: why a message is not written.
* `Codec.Encoding`, `Codec.encoding`: what writing a message comes to.
* `Codec.encode_all_or_nothing`: what is accepted and what is written of it, and what a refusal
  leaves.
-/

namespace Mbim

namespace Codec

/-- Why the codec does not write the message. Each reason counts only where those before it do not
hold. -/
inductive Withholds (c : Codec) (m : Message) : SplitError → Prop
  | invalid {e : DecodeError} (invalid : m.validate = .error e) : Withholds c m (.unreadable e)
  | room (valid : m.validate = .ok ()) (exceeds : c.limit.bytes < m.bytes.length)
    (room : c.limit.bytes ≤ 20) : Withholds c m (.limitTooSmall c.limit.bytes 20)
  | kind {k : Kind} (valid : m.validate = .ok ()) (exceeds : c.limit.bytes < m.bytes.length)
    (room : 20 < c.limit.bytes) (kind : m.kind = .ok k) (whole : k.isFragment = false) :
    Withholds c m (.notFragmentable k)

/-- What writing the message behind the bytes `b` comes to. -/
inductive Encoding (c : Codec) (m : Message) (b : Bytes) :
    Step Bytes (Outcome StreamError Unit) → Prop
  | whole (valid : m.validate = .ok ()) (fits : m.bytes.length ≤ c.limit.bytes) :
    Encoding c m b ⟨.ok (), b ++ m.bytes, ∅⟩
  | pieces {batch : Batch} (valid : m.validate = .ok ()) (exceeds : c.limit.bytes < m.bytes.length)
    (room : 20 < c.limit.bytes) (fragment : m.isFragment)
    (split : m.split c.limit.bytes = .ok (some batch)) :
    Encoding c m b ⟨.ok (), b ++ batch.encode, written m batch c.limit⟩
  | withheld {e : SplitError} {report : Report} (withheld : c.Withholds m e)
    (uncounted : report.counts = 0) : Encoding c m b ⟨.error (.unsplit e), b, report⟩

variable {c : Codec} {m : Message}

theorem encoding (c : Codec) (m : Message) (b : Bytes) : c.Encoding m b (c.encode m b) := by
  cases hv : m.validate with
  | error e =>
    simp only [encode, hv]
    exact .withheld (.invalid hv) rfl
  | ok u =>
    by_cases hfits : m.bytes.length ≤ c.limit.bytes
    · rw [(encode_message hv hfits b).2]
      exact .whole hv hfits
    obtain ⟨h, hh, hlength⟩ := Message.exists_header hv
    have hexceeds := Nat.not_le.mp hfits
    have hsplit := Message.splitWithin_of_header hh c.limit
    rw [hlength, if_neg hfits] at hsplit
    by_cases hroom : c.limit.bytes ≤ 20
    · rw [if_pos (show c.limit.bytes ≤ overhead from hroom)] at hsplit
      simp only [encode, hv, hsplit]
      exact .withheld (.room hv hexceeds hroom) rfl
    have hover := Nat.not_le.mp hroom
    by_cases hf : h.kind.isFragment
    · obtain ⟨batch, -, -, -, hbatch, -⟩ := Message.exists_sends hh hf
        (show overhead < c.limit.bytes from hover) (hlength ▸ hexceeds) (Nat.le_of_eq hlength)
      simp only [encode, hv, hbatch]
      refine .pieces hv hexceeds hover ?_ ?_
      · exact Message.isFragment_iff.mpr ⟨h.key, Message.key?_of_header hh hf⟩
      · rw [Message.split_of_pos m c.limit.pos, hbatch]
    · rw [if_neg (show ¬ c.limit.bytes ≤ overhead from hroom), if_neg hf] at hsplit
      simp only [encode, hv, hsplit]
      exact .withheld (.kind hv hexceeds hover (Message.kind_of_header hh) (by simpa using hf)) rfl

theorem Withholds.not_accepted {e : SplitError} (h : c.Withholds m e) :
    ¬ (m.validate = .ok () ∧
      (m.bytes.length ≤ c.limit.bytes ∨ 20 < c.limit.bytes ∧ m.isFragment)) := by
  rintro ⟨hv, hfits | ⟨hroom, hfragment⟩⟩
  · cases h with
    | invalid invalid =>
      rw [hv] at invalid
      cases invalid
    | room _ exceeds => exact Nat.not_le.mpr exceeds hfits
    | kind _ exceeds => exact Nat.not_le.mpr exceeds hfits
  · cases h with
    | invalid invalid =>
      rw [hv] at invalid
      cases invalid
    | room _ _ room => exact Nat.not_le.mpr hroom room
    | kind _ _ _ kind whole =>
      simp only [Message.isFragment, kind] at hfragment
      rw [whole] at hfragment
      cases hfragment

/-- Writing accepts the valid messages within the transfer size, and those of fragment kinds if a
transfer has room for a payload. Of what is accepted all is appended, the message itself if it is
within the transfer size, and nothing is counted then; else the fragments in order, each with a
payload and within the transfer size, and they are counted. A refusal appends and counts nothing;
it is one to split the message, and does not end the use of the stream. -/
theorem encode_all_or_nothing (c : Codec) (m : Message) (b : Bytes) :
    let write := c.encode m b
    (write.result = .ok () ↔ m.validate = .ok () ∧
        (m.bytes.length ≤ c.limit.bytes ∨ 20 < c.limit.bytes ∧ m.isFragment)) ∧
      (write.result = .ok () → m.bytes.length ≤ c.limit.bytes →
        write.next = b ++ m.bytes ∧ write.report.counts = 0) ∧
      (write.result = .ok () → c.limit.bytes < m.bytes.length →
        ∃ batch, m.split c.limit.bytes = .ok (some batch) ∧
          write.next = b ++ batch.flatMap Fragment.encode ∧
          (∀ f ∈ batch, 21 ≤ f.encode.length ∧ f.encode.length ≤ c.limit.bytes) ∧
          ∀ counter, write.report.counts.get counter =
            if counter = .outbound then batch.length else 0) ∧
      (write.result ≠ .ok () → ∃ e, c.Withholds m e ∧ write.result = .error (.unsplit e) ∧
        write.next = b ∧ write.report.counts = 0 ∧
        (StreamError.unsplit e).category = "fragmentation" ∧
        (StreamError.unsplit e).toTransport.kind = .invalidInput ∧
        (StreamError.unsplit e).shouldDisconnect = false) := by
  intro write
  have hencoding : c.Encoding m b write := c.encoding m b
  generalize write = step at hencoding
  cases hencoding with
  | whole valid fits =>
    refine ⟨iff_of_true rfl ⟨valid, .inl fits⟩, fun _ _ => ⟨rfl, rfl⟩, fun _ hexceeds => ?_,
      fun hne => absurd rfl hne⟩
    exact absurd fits (Nat.not_le.mpr hexceeds)
  | @pieces batch valid exceeds room fragment split =>
    refine ⟨iff_of_true rfl ⟨valid, .inr ⟨room, fragment⟩⟩, fun _ hfits => ?_, fun _ _ => ?_,
      fun hne => absurd rfl hne⟩
    · exact absurd hfits (Nat.not_le.mpr exceeds)
    · exact ⟨batch, split, rfl, fun f hf => Message.length_encode_of_split split hf,
        fun counter => Counts.get_single .outbound counter batch.length⟩
  | @withheld e report withheld uncounted =>
    refine ⟨iff_of_false (by simp) withheld.not_accepted, fun hok => ?_, fun hok => ?_,
      fun _ => ⟨e, withheld, rfl, rfl, uncounted, rfl, rfl, rfl⟩⟩
    · cases hok
    · cases hok

/-- A command that needs two transfers of 22 bytes, behind other bytes; and an open request, which
is of a kind that is never split, by a codec whose transfers are too small for it. -/
theorem encode_all_or_nothing_narrow :
    let command := Key.fragment ⟨.command, 7⟩ ⟨9, 4⟩ [1, 2, 3]
    let wide : Codec := ⟨⟨22, by decide⟩⟩
    let narrow : Codec := ⟨⟨15, by decide⟩⟩
    let refused := narrow.encode (.openRequest 7 4096) [0xaa]
    ((wide.encode command [0xaa]).result = .ok () ∧ 22 < command.bytes.length ∧
      (wide.encode command [0xaa]).next =
        [0xaa] ++ (Key.fragment ⟨.command, 7⟩ ⟨2, 0⟩ [1, 2]).bytes ++
          (Key.fragment ⟨.command, 7⟩ ⟨2, 1⟩ [3]).bytes ∧
      ∀ counter, (wide.encode command [0xaa]).report.counts.get counter =
        if counter = .outbound then 2 else 0) ∧
    refused.result ≠ .ok () ∧ refused.next = [0xaa] ∧ refused.report.counts = 0 ∧
      refused.result = .error (.unsplit (.limitTooSmall 15 20)) := by
  intro command wide narrow refused
  obtain ⟨haccepted, -, hpieces, -⟩ := encode_all_or_nothing wide command [0xaa]
  have hok : (wide.encode command [0xaa]).result = .ok () :=
    haccepted.mpr ⟨rfl, .inr ⟨by decide, rfl⟩⟩
  obtain ⟨batch, hbatch, hnext, -, hcounts⟩ := hpieces hok (by decide)
  have hsplit : command.split 22 = .ok (some [⟨⟨.command, 22, 7⟩, ⟨2, 0⟩, [1, 2]⟩,
      ⟨⟨.command, 21, 7⟩, ⟨2, 1⟩, [3]⟩]) := by decide
  cases hbatch.symm.trans hsplit
  obtain ⟨-, -, -, hrefused⟩ := encode_all_or_nothing narrow (.openRequest 7 4096) [0xaa]
  have hne : refused.result ≠ .ok () := by decide
  obtain ⟨e, -, -, hkept, huncounted, -⟩ := hrefused hne
  exact ⟨⟨hok, by decide, hnext, hcounts⟩, hne, hkept, huncounted, by decide⟩

end Codec

end Mbim
