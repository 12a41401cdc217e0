import Mbim.Proofs.Wire.Field
import Mbim.Wire.Buffer

/-!
# Headers and positions, written and read

What is written at the end of a buffer is read back from it, whatever stands in front and behind.
What is read is what was written, but for headers of no known kind: their code is lost, and written
as that of `Kind.invalid`.

* `Header.put_eq`, `Position.put_eq`: a header and a position are written as twelve and eight bytes.
* `Header.encode_eq_take_iff`, `Position.encode_eq_of_decode`: when writing gives the bytes that were
  read.
* `decode_encode_surrounded`: all of it.
-/

namespace Mbim

theorem wordBytes_inj {v w : UInt32} : wordBytes v = wordBytes w ↔ v = w := by
  refine ⟨fun h => ?_, congrArg wordBytes⟩
  have hword (u : UInt32) : Bytes.word? ([] ++ (wordBytes u ++ [])) 0 = some u :=
    Bytes.word?_append rfl (by decide) u []
  rw [← Option.some.injEq, ← hword v, h, hword w]

namespace Header

variable {b : Bytes} {h : Header}

theorem put_eq (h : Header) (b : Bytes) : h.put b = b ++ h.encode := by
  simp only [put, Bytes.put, encode, List.append_assoc]

/-- Writing a header gives the bytes that it was read from, unless its kind is not known and the
code was another one than is written. -/
theorem encode_eq_take_iff (hd : decode b = .ok h) :
    h.encode = b.take headerSize ↔ h.kind ≠ .invalid ∨ rawKind? b = some Kind.invalid.code := by
  obtain ⟨code, c, hcode, rfl⟩ := exists_words_of_decode hd
  have hraw : rawKind? (wordBytes code ++ (wordBytes h.length ++ (wordBytes h.transaction ++ c))) =
      some code := Bytes.word?_append (a := []) (o := kindOffset) rfl (by decide) code _
  have htake : (wordBytes code ++ (wordBytes h.length ++ (wordBytes h.transaction ++ c))).take
      headerSize = wordBytes code ++ wordBytes h.length ++ wordBytes h.transaction := by
    rw [← List.append_assoc, ← List.append_assoc]
    exact List.take_left' rfl
  rw [hraw, htake, encode, List.append_left_inj, List.append_left_inj, wordBytes_inj,
    Option.some.injEq]
  constructor
  · rintro rfl
    by_cases hk : h.kind = .invalid
    · exact .inr (congrArg Kind.code hk)
    · exact .inl hk
  · rintro (hk | rfl)
    · exact (Kind.eq_code_of_ofCode hcode.symm hk).symm
    · rw [hcode, Kind.ofCode_code]

end Header

namespace Position

variable {b : Bytes} {p : Position}

theorem put_eq (p : Position) (b : Bytes) : p.put b = b ++ p.encode := by
  simp only [put, Bytes.put, encode, List.append_assoc]

theorem encode_eq_of_decode (hd : decode b = .ok p) :
    p.encode = (b.drop headerSize).take positionSize := by
  obtain ⟨-, a, c, rfl, ha⟩ := exists_of_decode hd
  rw [List.drop_left' ha, List.take_left' (length_encode p)]

end Position

/-- For any bytes in front and behind. A header is written as twelve bytes at the end of the buffer,
and read back from them. A position is written as eight, and read back from behind twelve others if
its index is below the total; otherwise it is refused with its two numbers. A header of a known kind
is written as the twelve bytes that it was read from, one of no known kind only if the code was that
of `Kind.invalid`; a position is written as the eight bytes that it was read from. Bytes that end
inside a header or a position are refused, and their number is told. -/
theorem decode_encode_surrounded :
    (∀ h : Header, h.encode.length = 12 ∧ (∀ front, h.put front = front ++ h.encode) ∧
        ∀ behind, Header.decode (h.encode ++ behind) = .ok h) ∧
      (∀ p : Position, p.encode.length = 8 ∧ (∀ front, p.put front = front ++ p.encode) ∧
        ∀ twelve behind : Bytes, twelve.length = 12 →
          Position.decode (twelve ++ p.encode ++ behind) =
            if p.current < p.total then .ok p else .error (.badPosition p.current p.total)) ∧
      (∀ b h, Header.decode b = .ok h →
        (h.kind ≠ .invalid → h.encode = b.take 12) ∧
          (h.kind = .invalid → (h.encode = b.take 12 ↔ rawKind? b = some Kind.invalid.code))) ∧
      (∀ b p, Position.decode b = .ok p → p.encode = (b.drop 12).take 8) ∧
      (∀ b : Bytes, b ≠ [] → b.length < 12 → Header.decode b = .error (.truncated 12 b.length)) ∧
      ∀ b : Bytes, b.length < 20 → Position.decode b = .error (.truncated 20 b.length) := by
  refine ⟨fun h => ⟨rfl, h.put_eq, h.decode_append⟩,
    fun p => ⟨rfl, p.put_eq, fun twelve behind htwelve => ?_⟩, fun b h hd => ?_,
    fun b p hd => Position.encode_eq_of_decode hd, fun b hne hb => Header.decode_of_short hne hb,
    fun b hb => Position.decode_of_short hb⟩
  · rw [List.append_assoc, Position.decode_append htwelve]
  · have htake := Header.encode_eq_take_iff hd
    exact ⟨fun hk => htake.mpr (.inl hk), fun hk => htake.trans (or_iff_right fun hne => hne hk)⟩

/-- A header with a code that no kind has is written with another one; a position whose index
reaches the total is written and not read back; nineteen bytes hold no position. -/
theorem decode_encode_surrounded_unknown :
    let unknown : Bytes := wordBytes 0x55 ++ wordBytes 12 ++ wordBytes 7 ++ [9]
    let close : Bytes := Header.encode ⟨.closeRequest, 12, 7⟩
    Header.decode unknown = .ok ⟨.invalid, 12, 7⟩ ∧
      Header.encode ⟨.invalid, 12, 7⟩ ≠ unknown.take 12 ∧
      Header.decode (close ++ [9]) = .ok ⟨.closeRequest, 12, 7⟩ ∧
      Header.encode ⟨.closeRequest, 12, 7⟩ = (close ++ [9]).take 12 ∧
      Position.decode (close ++ Position.encode ⟨2, 2⟩ ++ [9]) = .error (.badPosition 2 2) ∧
      Position.decode (close ++ Position.encode ⟨2, 1⟩ ++ [9]) = .ok ⟨2, 1⟩ ∧
      Position.encode ⟨2, 1⟩ = ((close ++ Position.encode ⟨2, 1⟩ ++ [9]).drop 12).take 8 ∧
      Header.decode (close.take 11) = .error (.truncated 12 11) ∧
      Position.decode (close ++ [2, 0, 0, 0, 1, 0, 0]) = .error (.truncated 20 19) := by
  intro unknown close
  obtain ⟨-, hposition, hheader, hback, hshort, hcut⟩ := decode_encode_surrounded
  have hunknown : Header.decode unknown = .ok ⟨.invalid, 12, 7⟩ := rfl
  have hclose : Header.decode (close ++ [9]) = .ok ⟨.closeRequest, 12, 7⟩ := rfl
  have hplaced := (hposition ⟨2, 1⟩).2.2 close [9] rfl
  rw [if_pos (by decide)] at hplaced
  refine ⟨hunknown, fun heq => ?_, hclose, (hheader _ _ hclose).1 (by decide),
    (hposition ⟨2, 2⟩).2.2 close [9] rfl, hplaced, hback _ _ hplaced, ?_, ?_⟩
  · exact absurd (((hheader _ _ hunknown).2 rfl).mp heq) (by decide)
  · exact hshort (close.take 11) (by decide) (by decide)
  · exact hcut _ (by decide)

end Mbim
