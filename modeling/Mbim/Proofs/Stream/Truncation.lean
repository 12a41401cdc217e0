import Mbim.Proofs.Stream.RoundTrip

/-!
# Streams that break off

A stream that was written may end anywhere. What is read of it are the frames that end before the
cut. Bytes behind them are the start of one more frame, and the end of the stream tells how many
they are and, once the header is whole, how long the frame is.

* `wholeWithin`: the frames that end before the cut; `exists_take_eq`: what stands before the cut.
* `Codec.drain_cut`, `Codec.decodeEnd_take`: what is read before the cut, and at it.
* `Codec.decodeEnd_drain`: any stream that was written, and any cut.
-/

namespace Mbim

/-! ## What stands before the cut -/

/-- The messages that end within the first `n` bytes, if they stand one after the other. -/
def wholeWithin : Nat → List Message → List Message
  | _, [] => []
  | n, m :: ms =>
    if m.bytes.length ≤ n then m :: wholeWithin (n - m.bytes.length) ms else []

theorem wholeWithin_isPrefix (n : Nat) (ms : List Message) : wholeWithin n ms <+: ms := by
  induction ms generalizing n with
  | nil => exact List.prefix_rfl
  | cons m ms ih =>
    unfold wholeWithin
    split
    · exact List.cons_prefix_cons.mpr ⟨rfl, ih _⟩
    · exact List.nil_prefix

/-- What stands before a cut: the messages that end there, and the start of the one behind them, if
any of it stands there. -/
theorem exists_take_eq (n : Nat) (ms : List Message) :
    ∃ left, (ms.map Message.bytes).flatten.take n =
        ((wholeWithin n ms).map Message.bytes).flatten ++ left ∧
      (left = [] ∨ ∃ m k, ms[(wholeWithin n ms).length]? = some m ∧ k < m.bytes.length ∧
        left = m.bytes.take k) := by
  induction ms generalizing n with
  | nil => exact ⟨[], by simp [wholeWithin], .inl rfl⟩
  | cons m ms ih =>
    rw [List.map_cons, List.flatten_cons]
    unfold wholeWithin
    by_cases hm : m.bytes.length ≤ n
    · rw [if_pos hm]
      obtain ⟨left, htake, hleft⟩ := ih (n - m.bytes.length)
      refine ⟨left, ?_, ?_⟩
      · rw [List.take_append, List.take_of_length_le hm, htake, List.map_cons, List.flatten_cons,
          List.append_assoc]
      · obtain rfl | ⟨x, k, hx, hk, rfl⟩ := hleft
        · exact .inl rfl
        · exact .inr ⟨x, k, by simpa using hx, hk, rfl⟩
    · rw [if_neg hm]
      refine ⟨m.bytes.take n, ?_, .inr ⟨m, n, rfl, Nat.not_le.mp hm, rfl⟩⟩
      rw [List.take_append_of_le_length (Nat.le_of_not_le hm)]
      rfl

namespace Codec

variable {c : Codec} {m : Message}

/-! ## What is read -/

theorem drain_cut {ms : List Message} {left : Bytes}
    (hms : ∀ m ∈ ms, m.validate = .ok () ∧ m.bytes.length ≤ c.limit.bytes)
    (hleft : c.decode left = ⟨.ok none, left, ∅⟩) :
    c.drain false ((ms.map Message.bytes).flatten ++ left) =
      ⟨ms.map fun m => ⟨.ok m, ∅⟩, left, false⟩ := by
  have hwait : c.drain false left = ⟨[], left, false⟩ := by
    have hread : c.read false left = _ := hleft
    rw [drain_of_waiting false (by rw [hread]), hread]
  rw [drain_append, drain_messages hms]
  simp [Drained.resume, hwait]

/-- In the header of a frame, its length plays no part in where the stream breaks off. Behind the
header it does. -/
theorem endError_take {f : Bytes} (hf : c.IsFrame f) {n : Nat} (hn : n ≤ f.length) :
    endError (f.take n) =
      if n < headerSize then .midHeader n headerSize else .midFrame n f.length := by
  have hheld : (f.take n).length = n := by rw [List.length_take, Nat.min_eq_left hn]
  unfold endError
  rw [hheld]
  by_cases hheader : n < headerSize
  · rw [if_pos hheader]
    split
    · rw [if_neg (Nat.not_le.mpr hheader)]
    · rfl
  · have hcovers := Nat.not_lt.mp hheader
    obtain ⟨w, hw, hlen⟩ := Option.map_eq_some_iff.mp hf.declared
    have hfield : lengthOffset + wordSize ≤ n := Nat.le_trans (by decide) hcovers
    rw [if_neg hheader, Bytes.word?_take hw hfield]
    dsimp only
    rw [if_pos hcovers, hlen]

theorem decodeEnd_take {f : Bytes} (hf : c.IsFrame f) {n : Nat} (hn : n < f.length)
    (hne : f.take n ≠ []) :
    c.decodeEnd (f.take n) =
      ⟨.error (.ended
        (if n < headerSize then .midHeader n headerSize else .midFrame n f.length)),
        f.take n, ∅⟩ := by
  have hwait : (c.decode (f.take n)).result = .ok none := by rw [decode_take hf hn]
  rw [decodeEnd_of_waiting hwait hne, endError_take hf (Nat.le_of_lt hn)]

/-- Whatever was written, wherever it breaks off: the frames that end before the cut are read, in
order and as they are. If more bytes stand before the cut, the end of the stream is refused, with
their number and, once they hold a header, the length that the frame declares; they are left. -/
theorem decodeEnd_drain {ms : List Message}
    (haccepted : ∀ m ∈ ms, (c.encode m []).result = .ok ()) (cut : Nat) :
    let written := (c.encodeAll ms []).next
    let frames := ms.flatMap c.pieces
    let whole := wholeWithin cut frames
    let left := (written.take cut).drop (whole.map Message.bytes).flatten.length
    written = (frames.map Message.bytes).flatten ∧
      c.drain false (written.take cut) = ⟨whole.map fun m => ⟨.ok m, ∅⟩, left, false⟩ ∧
      (left = [] → c.decodeEnd left = ⟨.ok none, [], ∅⟩) ∧
      (left ≠ [] → ∃ frame h, frames[whole.length]? = some frame ∧ frame.header = .ok h ∧
        c.decodeEnd left =
          ⟨.error (.ended
            (if left.length < headerSize then .midHeader left.length headerSize
            else .midFrame left.length h.length.toNat)), left, ∅⟩) := by
  obtain ⟨hwritten, hvalid⟩ := encodeAll_pieces haccepted []
  rw [List.nil_append] at hwritten
  dsimp only
  rw [hwritten]
  generalize ms.flatMap c.pieces = frames at hvalid ⊢
  obtain ⟨left, htake, hleft⟩ := exists_take_eq cut frames
  rw [htake, List.drop_left]
  have hwhole : ∀ m ∈ wholeWithin cut frames,
      m.validate = .ok () ∧ m.bytes.length ≤ c.limit.bytes :=
    fun m hm => hvalid m ((wholeWithin_isPrefix cut frames).subset hm)
  refine ⟨rfl, ?_⟩
  obtain rfl | ⟨frame, k, hframe, hk, rfl⟩ := hleft
  · exact ⟨drain_cut hwhole c.decode_nil, fun _ => rfl, fun hne => absurd rfl hne⟩
  · obtain ⟨hv, hle⟩ := hvalid frame (List.mem_of_getElem? hframe)
    have hf := isFrame_of_validate hv hle
    refine ⟨drain_cut hwhole (decode_take hf hk), fun hnil => by rw [hnil]; rfl, fun hne => ?_⟩
    cases hh : frame.header with
    | error e => simp [Message.validate, hh] at hv
    | ok h =>
      refine ⟨frame, h, hframe, hh, ?_⟩
      rw [decodeEnd_take hf hk hne, (Message.of_validate hv hh).1, List.length_take,
        Nat.min_eq_left (Nat.le_of_lt hk)]

/-- A command that needs two transfers of 22 bytes, and a close request. -/
def cutShort : List Message := [Key.fragment ⟨.command, 7⟩ .single [1, 2, 3], .closeRequest 8]

/-- Cuts in the payload of the second fragment, in the close request, and in front of it. -/
theorem decodeEnd_drain_cutShort :
    let c : Codec := ⟨⟨22, by decide⟩⟩
    let written := (c.encodeAll cutShort []).next
    let first := Key.fragment ⟨.command, 7⟩ ⟨2, 0⟩ [1, 2]
    let second := Key.fragment ⟨.command, 7⟩ ⟨2, 1⟩ [3]
    (∀ m ∈ cutShort, (c.encode m []).result = .ok ()) ∧ written.length = 55 ∧
      c.drain false (written.take 42) = ⟨[⟨.ok first, ∅⟩], second.bytes.take 20, false⟩ ∧
      c.decodeEnd (second.bytes.take 20) =
        ⟨.error (.ended (.midFrame 20 21)), second.bytes.take 20, ∅⟩ ∧
      c.drain false (written.take 44) = ⟨[⟨.ok first, ∅⟩, ⟨.ok second, ∅⟩], [2], false⟩ ∧
      c.decodeEnd [2] = ⟨.error (.ended (.midHeader 1 12)), [2], ∅⟩ ∧
      c.drain false (written.take 43) = ⟨[⟨.ok first, ∅⟩, ⟨.ok second, ∅⟩], [], false⟩ ∧
      c.decodeEnd [] = ⟨.ok none, [], ∅⟩ := by
  intro c written first second
  have haccepted : ∀ m ∈ cutShort, (c.encode m []).result = .ok () := by decide
  have hwritten : (c.encodeAll cutShort []).next =
      first.bytes ++ second.bytes ++ (Message.closeRequest 8).bytes := by decide
  have hframes : cutShort.flatMap c.pieces = [first, second, .closeRequest 8] := by decide
  have hcut := decodeEnd_drain haccepted
  rw [hframes, hwritten] at hcut
  obtain ⟨-, hpayload, -, hmid⟩ := hcut 42
  obtain ⟨-, hheader, -, hstart⟩ := hcut 44
  obtain ⟨-, hbetween, hend, -⟩ := hcut 43
  obtain ⟨frame, h, hframe, hh, hmid⟩ := hmid (by decide)
  obtain ⟨_, _, -, -, hstart⟩ := hstart (by decide)
  cases hframe
  cases hh
  rw [show written = _ from hwritten]
  exact ⟨haccepted, rfl, hpayload, hmid, hheader, hstart, hbetween, hend rfl⟩

end Codec

end Mbim
