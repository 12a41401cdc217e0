import Mbim.Proofs.Message.Format
import Mbim.Proofs.Stream.Frames

/-!
# Progress of decoding

The number of bytes that are there and the length that they declare decide whether decoding waits,
refuses the length, or takes a frame off. Only waiting is given up when more bytes come. A frame
that is taken off holds at least a header, so there are only so many of them.

* `Codec.Decoding`, `Codec.decoding`: what decoding comes to, in these two numbers.
* `Codec.decodeTimes_of_frame`: a length that is refused is refused forever.
* `Codec.exists_decodeTimes_ends`: decoding again and again comes to an end.
* `Codec.decodeEnd_of_result_ne`, `Codec.decodeEnd_eq_none_iff`: the end of the stream.
* `Codec.decode_progress`: all of it.
-/

namespace Mbim

namespace Codec

variable {c : Codec} {b : Bytes}

/-! ## The two numbers -/

/-- What decoding the bytes comes to, by their number and the length that they declare. -/
inductive Decoding (c : Codec) (b : Bytes) :
    Step Bytes (Outcome StreamError (Option Message)) → Prop
  | waits (short : b.length < 12 ∨ 12 ≤ b.field 4 ∧ b.field 4 ≤ c.limit.bytes ∧
      b.length < b.field 4) : Decoding c b ⟨.ok none, b, ∅⟩
  | refused {e : FrameError} (header : 12 ≤ b.length)
    (outside : b.field 4 < 12 ∨ c.limit.bytes < b.field 4) :
    Decoding c b ⟨.error (.frame e), b, .told (.frameRejected e)⟩
  | whole (covers : 12 ≤ b.field 4) (fits : b.field 4 ≤ c.limit.bytes)
    (whole : b.field 4 ≤ b.length) :
    Decoding c b (received (b.take (b.field 4)) (b.drop (b.field 4)))

/-- The length in a header, and what the codec says of it. -/
theorem declaredLength_eq (hb : 12 ≤ b.length) :
    c.declaredLength b =
      if b.field 4 < 12 then .error (.undersized (UInt32.ofNat (b.field 4)) 12)
      else if c.limit.bytes < b.field 4 then
        .error (.oversized (UInt32.ofNat (b.field 4)) c.limit.bytes)
      else .ok (some (b.field 4)) := by
  have hword : b.word? lengthOffset = some (UInt32.ofNat (b.field 4)) :=
    Bytes.word?_eq_field (o := 4) (by decide) (by omega)
  have hdeclared : (UInt32.ofNat (b.field 4)).toNat = b.field 4 :=
    UInt32.toNat_ofNat_of_lt' (Bytes.field_lt (by decide) (by omega))
  unfold declaredLength
  rw [if_neg (show ¬ b.length < headerSize from Nat.not_lt.mpr hb), hword]
  dsimp only
  rw [hdeclared]
  rfl

theorem decoding (c : Codec) (b : Bytes) : c.Decoding b (c.decode b) := by
  by_cases hshort : b.length < 12
  · have hnone : c.declaredLength b = .ok none := by
      unfold declaredLength
      rw [if_pos (show b.length < headerSize from hshort)]
    simp only [decode, hnone]
    exact .waits (.inl hshort)
  have hheader := Nat.not_lt.mp hshort
  have hdeclared := c.declaredLength_eq hheader
  by_cases hunder : b.field 4 < 12
  · rw [if_pos hunder] at hdeclared
    simp only [decode, hdeclared]
    exact .refused hheader (.inl hunder)
  rw [if_neg hunder] at hdeclared
  by_cases hover : c.limit.bytes < b.field 4
  · rw [if_pos hover] at hdeclared
    simp only [decode, hdeclared]
    exact .refused hheader (.inr hover)
  rw [if_neg hover] at hdeclared
  by_cases hpart : b.length < b.field 4
  · simp only [decode, hdeclared, if_pos hpart]
    exact .waits (.inr ⟨Nat.not_lt.mp hunder, Nat.not_lt.mp hover, hpart⟩)
  · have hwhole := Nat.not_lt.mp hpart
    have htake := decode_frame (isFrame_take hdeclared hwhole) (b.drop (b.field 4))
    rw [List.take_append_drop] at htake
    rw [htake]
    exact .whole (Nat.not_lt.mp hunder) (Nat.not_lt.mp hover) hwhole

/-! ## One decoding -/

theorem answer_ne_none (found : Except DecodeError Message) : answer found ≠ .ok none := by
  cases found <;> exact nofun

theorem answer_ne_frame (found : Except DecodeError Message) (e : FrameError) :
    answer found ≠ .error (.frame e) := by
  cases found <;> exact nofun

theorem decode_eq_none_iff : (c.decode b).result = .ok none ↔
    b.length < 12 ∨ 12 ≤ b.field 4 ∧ b.field 4 ≤ c.limit.bytes ∧ b.length < b.field 4 := by
  have hdecoding := c.decoding b
  generalize c.decode b = read at hdecoding
  cases hdecoding with
  | waits short => exact iff_of_true rfl short
  | refused header outside => exact iff_of_false nofun (by omega)
  | whole covers fits whole => exact iff_of_false (answer_ne_none _) (by omega)

theorem decode_eq_frame_iff : (∃ e, (c.decode b).result = .error (.frame e)) ↔
    12 ≤ b.length ∧ (b.field 4 < 12 ∨ c.limit.bytes < b.field 4) := by
  have hdecoding := c.decoding b
  generalize c.decode b = read at hdecoding
  cases hdecoding with
  | waits short => exact iff_of_false (fun ⟨_, he⟩ => by cases he) (by omega)
  | refused header outside => exact iff_of_true ⟨_, rfl⟩ ⟨header, outside⟩
  | whole covers fits whole =>
    exact iff_of_false (fun ⟨e, he⟩ => answer_ne_frame _ e he) (by omega)

theorem decode_of_frame {e : FrameError} (h : (c.decode b).result = .error (.frame e)) :
    c.decode b = ⟨.error (.frame e), b, .told (.frameRejected e)⟩ := by
  have hdecoding := c.decoding b
  generalize c.decode b = read at h hdecoding ⊢
  cases hdecoding with
  | waits => cases h
  | refused => cases h; rfl
  | whole => exact absurd h (answer_ne_frame _ e)

/-- Where decoding neither waits nor refuses the length, it takes off as many bytes as it says. -/
theorem decode_next (hwait : (c.decode b).result ≠ .ok none)
    (hframe : ∀ e, (c.decode b).result ≠ .error (.frame e)) :
    12 ≤ b.field 4 ∧ b.field 4 ≤ b.length ∧ (c.decode b).next = b.drop (b.field 4) := by
  have hdecoding := c.decoding b
  generalize c.decode b = read at hwait hframe hdecoding ⊢
  cases hdecoding with
  | waits => exact absurd rfl hwait
  | refused => exact absurd rfl (hframe _)
  | whole covers _ whole => exact ⟨covers, whole, rfl⟩

/-! ## Decoding again and again -/

/-- A length that is refused is refused forever, also when more bytes have come. -/
theorem decodeTimes_of_frame {e : FrameError} (h : (c.decode b).result = .error (.frame e))
    (n : Nat) (x : Bytes) :
    (c.decodeTimes n (b ++ x)).result = List.replicate n (.error (.frame e)) ∧
      (c.decodeTimes n (b ++ x)).next = b ++ x := by
  have hne : (c.decode b).result ≠ .ok none := by
    rw [h]
    exact nofun
  have hstep : c.decode (b ++ x) = ⟨.error (.frame e), b ++ x, .told (.frameRejected e)⟩ := by
    rw [decode_append hne, decode_of_frame h]
  induction n with
  | zero => exact ⟨rfl, rfl⟩
  | succ n ih =>
    obtain ⟨hresult, hnext⟩ := ih
    refine ⟨?_, ?_⟩
    · simp only [decodeTimes, hstep, hresult, List.replicate_succ]
    · simp only [decodeTimes, hstep, hnext]

/-- After this result there is nothing more to decode: more bytes have to come, or the stream is of
no use. -/
def Ends (result : Outcome StreamError (Option Message)) : Prop :=
  result = .ok none ∨ ∃ e, result = .error e ∧ e.shouldDisconnect

/-- Decoding ends, or takes off a header at least. -/
theorem ends_or_goesOn (c : Codec) (b : Bytes) :
    Ends (c.decode b).result ∨
      goesOn (c.decode b).result ∧ (c.decode b).next.length + 12 ≤ b.length := by
  have hdecoding := c.decoding b
  generalize c.decode b = read at hdecoding ⊢
  cases hdecoding with
  | waits => exact .inl (.inl rfl)
  | refused => exact .inl (.inr ⟨_, rfl, rfl⟩)
  | whole covers _ whole =>
    refine .inr ⟨?_, ?_⟩
    · show goesOn (answer _)
      cases Message.parse (b.take (b.field 4)) <;> rfl
    · show (b.drop (b.field 4)).length + 12 ≤ b.length
      rw [List.length_drop]
      omega

/-- Decoding again and again comes to an end, after as many frames as there are headers at most. -/
theorem exists_decodeTimes_ends (c : Codec) (b : Bytes) :
    ∃ n, 12 * n ≤ b.length ∧ (∀ result ∈ (c.decodeTimes n b).result, goesOn result) ∧
      Ends (c.decode (c.decodeTimes n b).next).result := by
  -- Each frame that is taken off leaves fewer bytes, by twelve at least.
  induction hlength : b.length using Nat.strongRecOn generalizing b with
  | ind length ih =>
    subst hlength
    obtain hends | ⟨hgoes, hshorter⟩ := c.ends_or_goesOn b
    · exact ⟨0, Nat.zero_le _, nofun, hends⟩
    · obtain ⟨n, hn, hall, hends⟩ := ih _ (by omega) (c.decode b).next rfl
      refine ⟨n + 1, by omega, ?_, hends⟩
      exact List.forall_mem_cons.mpr ⟨hgoes, hall⟩

/-! ## The end of the stream -/

/-- Where decoding does not wait, the end of the stream plays no part. -/
theorem decodeEnd_of_result_ne (h : (c.decode b).result ≠ .ok none) :
    c.decodeEnd b = c.decode b := read_of_result_ne h true

theorem decodeEnd_eq_none_iff : (c.decodeEnd b).result = .ok none ↔ b = [] := by
  constructor
  · intro hend
    refine Classical.byContradiction fun hb => ?_
    by_cases hwait : (c.decode b).result = .ok none
    · rw [decodeEnd_of_waiting hwait hb] at hend
      cases hend
    · rw [decodeEnd_of_result_ne hwait] at hend
      exact hwait hend
  · rintro rfl
    rfl

/-! ## All of it -/

/-- Decoding waits for the header and for the rest of a frame; it refuses a length that does not
cover the header or exceeds the transfer size; and else it takes off as many bytes as the length
says, and never fewer than a header. Waiting and refusing leave the bytes as they are. Only waiting
is given up when more bytes come: a length is refused forever, and ends the use of the stream. Until
decoding waits or the stream is of no use, there are only so many messages, good or bad, as there is
room for headers. At the end of the stream what would be waited for is refused, but for no bytes. -/
theorem decode_progress (c : Codec) (b : Bytes) :
    let length := b.field 4
    let read := c.decode b
    (read.result = .ok none ↔
        b.length < 12 ∨ 12 ≤ length ∧ length ≤ c.limit.bytes ∧ b.length < length) ∧
      ((∃ e, read.result = .error (.frame e)) ↔
        12 ≤ b.length ∧ (length < 12 ∨ c.limit.bytes < length)) ∧
      (read.result = .ok none → read.next = b) ∧
      (∀ e, read.result = .error (.frame e) → read.next = b ∧
        (StreamError.frame e).shouldDisconnect = true ∧
        ∀ n x, (c.decodeTimes n (b ++ x)).result = List.replicate n (.error (.frame e)) ∧
          (c.decodeTimes n (b ++ x)).next = b ++ x) ∧
      (read.result ≠ .ok none → (∀ e, read.result ≠ .error (.frame e)) →
        12 ≤ length ∧ length ≤ b.length ∧ read.next = b.drop length) ∧
      (read.result ≠ .ok none → ∀ x,
        c.decode (b ++ x) = ⟨read.result, read.next ++ x, read.report⟩) ∧
      (∃ n ≤ b.length / 12, (∀ result ∈ (c.decodeTimes n b).result, goesOn result) ∧
        Ends (c.decode (c.decodeTimes n b).next).result) ∧
      ((c.decodeEnd b).result = .ok none ↔ b = []) ∧
      (read.result ≠ .ok none → c.decodeEnd b = read) ∧
      (read.result = .ok none → b ≠ [] →
        ∃ e, c.decodeEnd b = ⟨.error (.ended e), b, ∅⟩) := by
  intro length read
  obtain ⟨n, hn, hgoes, hends⟩ := c.exists_decodeTimes_ends b
  refine ⟨decode_eq_none_iff, decode_eq_frame_iff, fun hwait => ?_, fun e he => ?_, decode_next,
    fun hne x => decode_append hne x, ⟨n, by omega, hgoes, hends⟩, decodeEnd_eq_none_iff,
    decodeEnd_of_result_ne, fun hwait hb => ⟨_, decodeEnd_of_waiting hwait hb⟩⟩
  · show (c.decode b).next = b
    rw [decode_of_waiting hwait]
  · have hnext : (c.decode b).next = b := by rw [decode_of_frame he]
    exact ⟨hnext, (shouldDisconnect_iff he).mpr hnext, decodeTimes_of_frame he⟩

/-- A close request with the start of a header behind it, and a length that does not cover the
header, by a codec whose transfers are of 64 bytes. -/
theorem decode_progress_refused :
    let c : Codec := ⟨⟨64, by decide⟩⟩
    let whole := (Message.closeRequest 1).bytes ++ [3, 0]
    let short : Bytes := Header.encode ⟨.closeRequest, 11, 1⟩
    (c.decode whole).next = [3, 0] ∧
      c.decode (whole ++ [7]) = ⟨.ok (some (.closeRequest 1)), [3, 0, 7], ∅⟩ ∧
      (c.decodeTimes 3 (short ++ whole)).result =
        List.replicate 3 (.error (.frame (.undersized 11 12))) ∧
      c.decodeEnd short = c.decode short ∧
      ∃ e, c.decodeEnd [3, 0] = ⟨.error (.ended e), [3, 0], ∅⟩ := by
  intro c whole short
  obtain ⟨-, -, -, -, htaken, hmore, -⟩ := c.decode_progress whole
  have hfound : (c.decode whole).result = .ok (some (.closeRequest 1)) := by decide
  have hne : (c.decode whole).result ≠ .ok none := by rw [hfound]; exact nofun
  obtain ⟨-, -, hnext⟩ := htaken hne fun e => by rw [hfound]; exact nofun
  obtain ⟨-, -, -, hforever, -, -, -, -, hend, -⟩ := c.decode_progress short
  have hrefused : (c.decode short).result = .error (.frame (.undersized 11 12)) := by decide
  obtain ⟨-, -, hagain⟩ := hforever _ hrefused
  obtain ⟨-, -, -, -, -, -, -, -, -, hcut⟩ := c.decode_progress [3, 0]
  refine ⟨hnext, (hmore hne [7]).trans (by decide), (hagain 3 whole).1, hend ?_, ?_⟩
  · rw [hrefused]
    exact nofun
  · exact hcut rfl (by decide)

end Codec

end Mbim
