import Mathlib.Data.List.Forall2
import Mbim.Proofs.Fragment.Shape
import Mbim.Proofs.Stream.Chunks

/-!
# Frames

A frame is as many bytes as its length field says, within the transfer size. What else it holds
plays no part in where it ends. So the frames of a stream are taken off one after the other, each
of them a message or not.

* `Codec.IsFrame`: the bytes are one frame. `Codec.received`: what taking a frame off comes to.
* `Codec.decode_frame`, `Codec.decode_take`: decoding takes off the frame in front, and waits while
  it is not whole. `Codec.decode_cases`: there is nothing else that decoding does, but for losing
  the boundary. `Codec.shouldDisconnect_iff`: a failure that takes nothing off ends the use of the
  stream, and no other.
* `Codec.decodeTimes`: decoding some number of times.
* `Overwritten`: bytes outside the length field are replaced, which leaves a frame one
  (`Codec.IsFrame.overwritten`).
* `Codec.decodeTimes_frames`: each frame brings what it holds, whatever the other frames hold, and
  the bytes behind them are left.
-/

namespace Mbim

theorem Bytes.word?_take {b : Bytes} {o n : Nat} {w : UInt32} (h : b.word? o = some w)
    (hn : o + wordSize ≤ n) : word? (b.take n) o = some w := by
  obtain ⟨hbound, hheld⟩ := word?_isSome_iff.mp (Option.isSome_of_eq_some h)
  have hsome : (word? (b.take n) o).isSome := by
    rw [word?_isSome_iff, List.length_take]
    exact ⟨hbound, by omega⟩
  obtain ⟨v, hv⟩ := Option.isSome_iff_exists.mp hsome
  have hwhole := word?_append_of_eq_some hv (b.drop n)
  rw [List.take_append_drop, h] at hwhole
  rw [hv, ← hwhole]

namespace Codec

/-- The bytes are one frame: the length that they declare is their own, covers the header and is
within the transfer size. -/
structure IsFrame (c : Codec) (f : Bytes) : Prop where
  covers : headerSize ≤ f.length
  fits : f.length ≤ c.limit.bytes
  declared : (f.word? lengthOffset).map UInt32.toNat = some f.length

instance (c : Codec) (f : Bytes) : Decidable (c.IsFrame f) :=
  decidable_of_iff (headerSize ≤ f.length ∧ f.length ≤ c.limit.bytes ∧
      (f.word? lengthOffset).map UInt32.toNat = some f.length)
    ⟨fun h => ⟨h.1, h.2.1, h.2.2⟩, fun h => ⟨h.covers, h.fits, h.declared⟩⟩

/-- What decoding answers to a frame that reads like this. -/
def answer : Except DecodeError Message → Outcome StreamError (Option Message)
  | .ok m => .ok (some m)
  | .error e => .error (.malformed e)

/-- The frame is taken off and read, and `rest` is left. -/
def received (f rest : Bytes) : Step Bytes (Outcome StreamError (Option Message)) :=
  ⟨answer (Message.parse f), rest,
    match Message.parse f with
    | .ok _ => ∅
    | .error e => .told (.messageRejected e)⟩

variable {c : Codec} {f b : Bytes}

theorem takeFrame_append_self (f rest : Bytes) :
    takeFrame f.length (f ++ rest) = received f rest := by
  have hle : f.length ≤ (f ++ rest).length := by simp
  unfold takeFrame received
  rw [if_pos hle, List.take_left, List.drop_left]
  cases Message.parse f <;> rfl

/-! ## The frame in front -/

/-- Decoding takes off the frame in front, whatever follows it. -/
theorem decode_frame (hf : c.IsFrame f) (rest : Bytes) : c.decode (f ++ rest) = received f rest := by
  obtain ⟨w, hw, hlen⟩ := Option.map_eq_some_iff.mp hf.declared
  have hcovers := hf.covers
  have hfits := hf.fits
  have hlong : f.length ≤ (f ++ rest).length := by simp
  have hdeclared : c.declaredLength (f ++ rest) = .ok (some f.length) := by
    unfold declaredLength
    rw [if_neg (by omega), Bytes.word?_append_of_eq_some hw rest]
    dsimp only
    rw [if_neg (by omega), if_neg (by omega), hlen]
  unfold decode
  rw [hdeclared]
  dsimp only
  rw [if_neg (by omega), takeFrame_append_self]

theorem isFrame_of_validate {m : Message} (hv : m.validate = .ok ())
    (hle : m.bytes.length ≤ c.limit.bytes) : c.IsFrame m.bytes := by
  obtain ⟨h, hh, hlen⟩ := Message.exists_header hv
  obtain ⟨hcovers, hword⟩ := Header.of_decode hh
  refine ⟨hcovers, hle, ?_⟩
  rw [hword, ← hlen]
  rfl

theorem decode_message {m : Message} (hv : m.validate = .ok ())
    (hle : m.bytes.length ≤ c.limit.bytes) (rest : Bytes) :
    c.decode (m.bytes ++ rest) = ⟨.ok (some m), rest, ∅⟩ := by
  have hparse : Message.parse m.bytes = .ok m := Message.parse_eq_ok_iff.mpr ⟨rfl, hv⟩
  rw [decode_frame (isFrame_of_validate hv hle), received, hparse]
  rfl

/-- Decoding waits while the frame is not whole: else it would have taken it off before its end. -/
theorem decode_take (hf : c.IsFrame f) {n : Nat} (hn : n < f.length) :
    c.decode (f.take n) = ⟨.ok none, f.take n, ∅⟩ := by
  refine decode_of_waiting (Classical.byContradiction fun hne => ?_)
  have hwhole := decode_append hne (f.drop n)
  rw [List.take_append_drop, ← List.append_nil f, decode_frame hf] at hwhole
  have hnext := congrArg (fun step => step.next.length) hwhole
  simp only [received, List.append_nil, List.length_append, List.length_drop, List.length_nil]
    at hnext
  omega

/-- As many bytes as the header in front declares are a frame. -/
theorem isFrame_take {n : Nat} (h : c.declaredLength b = .ok (some n)) (hn : n ≤ b.length) :
    c.IsFrame (b.take n) := by
  have hcovers := headerSize_le_of_declaredLength h
  have hlen : (b.take n).length = n := by rw [List.length_take, Nat.min_eq_left hn]
  unfold declaredLength at h
  split at h
  · cases h
  split at h
  · cases h
  rename_i w hw
  split at h
  · cases h
  split at h
  · cases h
  rename_i hfits
  cases h
  refine ⟨by rw [hlen]; exact hcovers, by rw [hlen]; exact Nat.not_lt.mp hfits, ?_⟩
  have hfield : lengthOffset + wordSize ≤ w.toNat := Nat.le_trans (by decide) hcovers
  rw [Bytes.word?_take hw hfield, hlen]
  rfl

/-- What decoding comes to: the length in front is not that of a frame and nothing is taken off,
or it waits, or a frame is taken off. -/
theorem decode_cases (c : Codec) (b : Bytes) :
    (∃ e, c.decode b = ⟨.error (.frame e), b, .told (.frameRejected e)⟩) ∨
      c.decode b = ⟨.ok none, b, ∅⟩ ∨
      ∃ f rest, c.IsFrame f ∧ b = f ++ rest ∧ c.decode b = received f rest := by
  cases hd : c.declaredLength b with
  | error e => exact .inl ⟨e, by simp [decode, hd]⟩
  | ok found =>
    cases found with
    | none => exact .inr (.inl (by simp [decode, hd]))
    | some n =>
      by_cases hlt : b.length < n
      · exact .inr (.inl (by simp [decode, hd, hlt]))
      · have hf := isFrame_take hd (Nat.not_lt.mp hlt)
        have hdecode := decode_frame hf (b.drop n)
        have hb := (List.take_append_drop n b).symm
        exact .inr (.inr ⟨_, _, hf, hb, by rw [← hdecode, ← hb]⟩)

/-- A failure ends the use of the stream if and only if nothing was taken off. -/
theorem shouldDisconnect_iff {e : StreamError} (h : (c.decode b).result = .error e) :
    e.shouldDisconnect ↔ (c.decode b).next = b := by
  obtain ⟨cause, hd⟩ | hd | ⟨f, rest, hf, rfl, hd⟩ := c.decode_cases b
  · rw [hd] at h ⊢
    cases h
    exact iff_of_true rfl rfl
  · rw [hd] at h
    cases h
  · rw [hd] at h ⊢
    have hcovers := hf.covers
    simp only [received, answer] at h ⊢
    split at h
    · cases h
    · cases h
      refine iff_of_false Bool.false_ne_true fun hrest => ?_
      have hlen := congrArg List.length hrest
      rw [List.length_append] at hlen
      unfold headerSize at hcovers
      omega

/-- A frame that is not a message is taken off all the same, so the stream is still of use. -/
theorem IsFrame.of_answer_error (hf : c.IsFrame f) {e : StreamError}
    (he : answer (Message.parse f) = .error e) :
    e.shouldDisconnect = false ∧ e.toTransport.kind = .invalidData := by
  have hne : f ≠ [] := by
    rintro rfl
    exact absurd hf.covers (by decide)
  have hdecode := decode_frame hf []
  have hread : (c.decode (f ++ [])).result = .error e := by
    rw [hdecode]
    exact he
  have htaken : (c.decode (f ++ [])).next ≠ f ++ [] := by
    rw [hdecode, List.append_nil]
    exact hne.symm
  refine ⟨Bool.eq_false_iff.mpr (mt (shouldDisconnect_iff hread).mp htaken), ?_⟩
  unfold answer at he
  split at he
  · cases he
  · cases he
    rfl

/-! ## All frames -/

/-- Decode `n` times: what each time brings, and what is left. -/
def decodeTimes (c : Codec) : Nat → Bytes → Step Bytes (List (Outcome StreamError (Option Message)))
  | 0, b => ⟨[], b, ∅⟩
  | n + 1, b =>
    let first := c.decode b
    let later := c.decodeTimes n first.next
    ⟨first.result :: later.result, later.next, first.report ++ later.report⟩

theorem decodeTimes_flatten {fs : List Bytes} (hfs : ∀ f ∈ fs, c.IsFrame f) (rest : Bytes) :
    (c.decodeTimes fs.length (fs.flatten ++ rest)).result =
        fs.map (fun f => answer (Message.parse f)) ∧
      (c.decodeTimes fs.length (fs.flatten ++ rest)).next = rest := by
  induction fs with
  | nil => exact ⟨rfl, rfl⟩
  | cons f fs ih =>
    obtain ⟨hresult, hnext⟩ := ih fun f hf => hfs f (List.mem_cons_of_mem _ hf)
    simp only [List.length_cons, List.flatten_cons, List.append_assoc, decodeTimes,
      decode_frame (hfs f List.mem_cons_self), received, hresult, hnext, List.map_cons, and_self]

end Codec

/-! ## Replacing bytes -/

/-- Of the bytes `f`, some outside the length field are replaced in `g`. -/
structure Overwritten (f g : Bytes) : Prop where
  length : g.length = f.length
  field : (g.drop lengthOffset).take wordSize = (f.drop lengthOffset).take wordSize

namespace Codec

variable {c : Codec}

/-- A frame stays one, whatever is replaced outside its length field. -/
theorem IsFrame.overwritten {f g : Bytes} (hf : c.IsFrame f) (h : Overwritten f g) :
    c.IsFrame g := by
  obtain ⟨w, hw, hlen⟩ := Option.map_eq_some_iff.mp hf.declared
  refine ⟨by rw [h.length]; exact hf.covers, by rw [h.length]; exact hf.fits, ?_⟩
  obtain ⟨front, rest, rfl, hfront⟩ := Bytes.exists_of_word? hw
  have hfield : (g.drop lengthOffset).take wordSize = wordBytes w := by
    rw [h.field, List.drop_left' hfront]
    exact List.take_left' rfl
  have hg : g = g.take lengthOffset ++ (wordBytes w ++ (g.drop lengthOffset).drop wordSize) := by
    rw [← hfield, List.take_append_drop, List.take_append_drop]
  have hheld : (g.take lengthOffset).length = lengthOffset := by
    rw [List.length_take, h.length, List.length_append, hfront]
    omega
  have hword : g.word? lengthOffset = some w := by
    rw [hg]
    exact Bytes.word?_append hheld (by decide) w _
  rw [hword, h.length, ← hlen]
  rfl

theorem isFrame_of_overwritten {fs gs : List Bytes} (hfs : ∀ f ∈ fs, c.IsFrame f)
    (h : List.Forall₂ Overwritten fs gs) : ∀ g ∈ gs, c.IsFrame g := by
  induction h with
  | nil => simp
  | cons hfg _ ih =>
    obtain ⟨hf, hrest⟩ := List.forall_mem_cons.mp hfs
    exact List.forall_mem_cons.mpr ⟨hf.overwritten hfg, ih hrest⟩

/-- Frames are taken off one by one, and each brings what it reads as: a message, or a cause that
concerns it alone and does not end the use of the stream. What follows them is left. Replacing bytes
outside the length fields changes what the frames bring in which they are replaced, and nothing
else. -/
theorem decodeTimes_frames {fs : List Bytes} (hfs : ∀ f ∈ fs, c.IsFrame f) (rest : Bytes) :
    let read := c.decodeTimes fs.length (fs.flatten ++ rest)
    read.result = fs.map (fun f => answer (Message.parse f)) ∧ read.next = rest ∧
      (∀ e, .error e ∈ read.result → e.shouldDisconnect = false ∧
        e.toTransport.kind = .invalidData) ∧
      ∀ gs, List.Forall₂ Overwritten fs gs →
        let again := c.decodeTimes gs.length (gs.flatten ++ rest)
        again.next = rest ∧ again.result.length = read.result.length ∧
          ∀ i : Nat, gs[i]? = fs[i]? → again.result[i]? = read.result[i]? := by
  obtain ⟨hresult, hnext⟩ := decodeTimes_flatten hfs rest
  dsimp only
  rw [hresult]
  refine ⟨rfl, hnext, fun e he => ?_, fun gs hgs => ?_⟩
  · obtain ⟨f, hf, hanswer⟩ := List.mem_map.mp he
    exact (hfs f hf).of_answer_error hanswer
  · obtain ⟨hagain, hleft⟩ := decodeTimes_flatten (isFrame_of_overwritten hfs hgs) rest
    rw [hagain]
    refine ⟨hleft, by simp [hgs.length_eq], fun i hi => ?_⟩
    rw [List.getElem?_map, List.getElem?_map, hi]

/-- A close request, a frame of no known kind, an open request without its body, a fragment whose
index is not below its total, and a fragment. -/
def mixed : List Bytes :=
  [(Message.closeRequest 1).bytes, Header.encode ⟨.invalid, 12, 2⟩,
    Header.encode ⟨.openRequest, 12, 3⟩, (Key.fragment ⟨.command, 4⟩ ⟨1, 1⟩ []).bytes,
    (Key.fragment ⟨.command, 5⟩ ⟨2, 0⟩ [9]).bytes]

/-- The same frames, with the kind of the first replaced by none, and the position of the fourth by
one that is in order. -/
def replaced : List Bytes :=
  [Header.encode ⟨.invalid, 12, 1⟩, Header.encode ⟨.invalid, 12, 2⟩,
    Header.encode ⟨.openRequest, 12, 3⟩, (Key.fragment ⟨.command, 4⟩ .single []).bytes,
    (Key.fragment ⟨.command, 5⟩ ⟨2, 0⟩ [9]).bytes]

theorem decodeTimes_frames_mixed :
    let c : Codec := ⟨⟨21, by decide⟩⟩
    let read := c.decodeTimes 5 (mixed.flatten ++ [3, 0])
    let again := c.decodeTimes 5 (replaced.flatten ++ [3, 0])
    (∀ f ∈ mixed, c.IsFrame f) ∧ List.Forall₂ Overwritten mixed replaced ∧
      read.result =
        [.ok (some (.closeRequest 1)), .error (.malformed (.unknownKind 0)),
          .error (.malformed (.truncated 16 12)), .error (.malformed (.badPosition 1 1)),
          .ok (some (Key.fragment ⟨.command, 5⟩ ⟨2, 0⟩ [9]))] ∧
      read.next = [3, 0] ∧ again.next = [3, 0] ∧ again.result[0]? ≠ read.result[0]? ∧
      again.result[4]? = read.result[4]? := by
  intro c read again
  have hframes : ∀ f ∈ mixed, c.IsFrame f := by decide
  have hreplaced : List.Forall₂ Overwritten mixed replaced := by
    refine .cons ⟨rfl, rfl⟩ (.cons ⟨rfl, rfl⟩ (.cons ⟨rfl, rfl⟩ (.cons ⟨rfl, rfl⟩ ?_)))
    exact .cons ⟨rfl, rfl⟩ .nil
  obtain ⟨hresult, hnext, -, hothers⟩ := decodeTimes_frames hframes [3, 0]
  obtain ⟨hleft, -, hsame⟩ := hothers replaced hreplaced
  have hread : read.result = _ := hresult
  exact ⟨hframes, hreplaced, hread.trans (by decide), hnext, hleft, by decide, hsame 4 rfl⟩

end Codec

end Mbim
