import Mathlib.Algebra.Order.BigOperators.Group.List
import Mathlib.Algebra.Order.Ring.Nat
import Mbim.Proofs.Reassembler.Slice

/-!
# What a reassembler holds

The key of a partial message, the fields kept beside its bytes and the headers inside its bytes say
the same thing, whatever has been pushed and whatever the clock reads.

* `Partial.Consistent`: the fields agree with the bytes, more fragments are due, and the bytes are
  within the size cap. Sound partials are consistent (`Partial.Sound.consistent`).
* `Reassembler.held`: the bytes of all partial messages.
* `Reassembler.Sound.liesInFragment`: what makes a push fail lies in its fragment, or is the cap.
* `Reassembler.run_consistent`: what every run leaves is consistent, bounded by the number of
  partial messages, and never refuses a fragment for the state of its series.
-/

namespace Mbim

namespace Partial

/-- The key, the fields of the series and its bytes agree; at least one fragment is due, and the
bytes are within the size cap. -/
structure Consistent (limit : Limit) (p : Partial) : Prop where
  isFragment : p.key.kind.isFragment
  kind : p.series.kind = p.key.kind
  /-- The bytes start with the header of the key, which declares their number. -/
  header : ∃ h, Header.decode p.series.bytes = .ok h ∧ h.key = p.key ∧
    h.length.toNat = p.series.bytes.length
  /-- Behind it stand the number of fragments and the index of the last one taken. -/
  position : Position.decode p.series.bytes = .ok ⟨p.series.total, p.series.current⟩
  incomplete : p.series.current.toNat + 1 < p.series.total.toNat
  covers : overhead ≤ p.series.bytes.length
  fits : p.series.bytes.length ≤ limit.bytes

theorem Sound.consistent {limit : Limit} {p : Partial} (h : p.Sound limit) :
    p.Consistent limit := by
  obtain ⟨hkind, q, payload, hseries, hinc, hfits, hword⟩ := h
  have hlength : (UInt32.ofNat (overhead + payload.length)).toNat = overhead + payload.length :=
    UInt32.toNat_ofNat_of_lt' hword
  have hlt : q.current < q.total := UInt32.lt_iff_toNat_lt.mpr (by omega)
  have hheader : Header.decode (p.key.fragment q payload).bytes = _ :=
    p.key.fragment_header q payload
  have hposition := p.key.decode_fragment hlt payload []
  rw [List.append_nil] at hposition
  rw [← p.key.bytes_series, ← hseries] at hheader hposition
  have hsize : p.series.bytes.length = overhead + payload.length := by
    rw [hseries, p.key.bytes_series, Key.length_fragment]
  constructor
  case isFragment => exact hkind
  case kind => rw [hseries]; rfl
  case header => exact ⟨_, hheader, rfl, by rw [hsize]; exact hlength⟩
  case position => rw [hposition, hseries]; rfl
  case incomplete => rw [hseries]; exact hinc
  case covers => omega
  case fits => omega

end Partial

namespace Reassembler

variable {r : Reassembler}

/-- The bytes of all partial messages. -/
def held (r : Reassembler) : Nat := (r.partials.map fun p => p.series.bytes.length).sum

theorem held_le {limit : Limit} (h : ∀ p ∈ r.partials, p.Consistent limit) :
    r.held ≤ r.size * limit.bytes := by
  have hsum := List.sum_le_card_nsmul (r.partials.map fun p => p.series.bytes.length) limit.bytes
    (by
      intro n hn
      obtain ⟨p, hp, rfl⟩ := List.mem_map.mp hn
      exact (h p hp).fits)
  rw [List.length_map, nsmul_eq_mul] at hsum
  exact hsum

/-- A fragment is refused for what it is, never for the state of its series. -/
theorem Sound.liesInFragment (hs : r.Sound) {m : Message} {now : Nat} {e : SeriesError}
    (h : (r.push m now).result = .error (.fragment e)) : e.LiesInFragment := by
  rw [hs.push_eq] at h
  simp only [Step.after] at h
  have hlive := hs.live now
  cases hk : m.key? with
  | none =>
    obtain ⟨hd, -, ha⟩ | ⟨cause, -, ha⟩ := accept_of_key?_eq_none (r := r.live now) hk now
    · rw [ha] at h
      cases h
    · rw [ha] at h
      cases h
      trivial
  | some k =>
    have hhandled := hlive.handled hk now
    generalize (r.live now).accept m now = step at h hhandled
    cases hhandled with
    | refused hin => cases h; exact hin
    | broken hin => cases h; exact hin
    | oversized => cases h
    | last => cases h
    | pending => cases h

/-- Whatever comes in and whatever the clock reads: a reassembler holds one partial message for each
key, each of them consistent and incomplete, and all of them bounded by the size cap. No push meets
a series of another kind or one that is complete. -/
theorem run_consistent (limit : Limit) (timeout : Nat) (ops : List Op) :
    let r := ((new limit timeout).run ops).2
    (r.partials.map Partial.key).Nodup ∧ (∀ p ∈ r.partials, p.Consistent limit) ∧
      r.held ≤ r.size * limit.bytes ∧
      ∀ m now, (r.push m now).result ≠ .error (.fragment .complete) ∧
        ∀ expected found,
          (r.push m now).result ≠ .error (.fragment (.wrongKind expected found)) := by
  intro r
  have hreached : Reachable limit timeout r := Reachable.new.run ops
  have hs := hreached.sound
  have hconsistent : ∀ p ∈ r.partials, p.Consistent limit := by
    intro p hp
    have hp := (hs.sound p hp).consistent
    rw [hreached.limits.1] at hp
    exact hp
  refine ⟨hs.nodup, hconsistent, held_le hconsistent, fun m now => ⟨fun h => ?_, ?_⟩⟩
  · exact hs.liesInFragment h
  · intro expected found h
    exact hs.liesInFragment h

/-- Two fragments of three and a series of another kind under the same transaction id. -/
example :
    let r := ((new ⟨64, by decide⟩ 100).run
      [.push (Key.fragment ⟨.command, 7⟩ ⟨3, 0⟩ [1, 2]) 0,
        .push (Key.fragment ⟨.indication, 7⟩ ⟨2, 0⟩ []) 5,
        .push (Key.fragment ⟨.command, 7⟩ ⟨3, 1⟩ [3]) 9]).2
    r.size = 2 ∧ r.held = 43 := by
  decide

end Reassembler

end Mbim
