import Mbim.Proofs.Wire.Field
import Mbim.Stream.Reader

/-!
# Where the chunks of a stream are cut

* `Codec.decode_append`: what decoding finds it finds also when more bytes have come. Only waiting
  is given up for them.
* `Codec.drain_append`: taking off what is whole, and going on when more bytes have come, is taking
  it all off at once.
* `Reader.feedAll_eq_advance`, `Reader.readAll_eq_finish`: reading in chunks is reading when all
  bytes are there, before and after the end of the stream.
* `Reader.readAll_eq_of_flatten_eq`: the cuts between chunks play no part.
-/

namespace Mbim

theorem Bytes.word?_append_of_eq_some {a : Bytes} {o : Nat} {w : UInt32} (h : a.word? o = some w)
    (b : Bytes) : (a ++ b).word? o = some w := by
  have ho := (word?_isSome_iff.mp (Option.isSome_of_eq_some h)).1
  obtain ⟨front, rest, rfl, hfront⟩ := exists_of_word? h
  simpa using word?_append hfront ho w (rest ++ b)

namespace Codec

variable {c : Codec} {a b : Bytes}

/-! ## One message -/

theorem declaredLength_append (h : c.declaredLength a ≠ .ok none) (b : Bytes) :
    c.declaredLength (a ++ b) = c.declaredLength a := by
  unfold declaredLength at h ⊢
  by_cases hshort : a.length < headerSize
  · simp [hshort] at h
  have hlong : ¬ (a ++ b).length < headerSize := by
    rw [List.length_append]
    omega
  rw [if_neg hshort] at h ⊢
  rw [if_neg hlong]
  cases hw : a.word? lengthOffset with
  | none => simp [hw] at h
  | some declared => rw [Bytes.word?_append_of_eq_some hw b]

theorem takeFrame_append {n : Nat} (h : n ≤ a.length) (b : Bytes) :
    takeFrame n (a ++ b) =
      ⟨(takeFrame n a).result, (takeFrame n a).next ++ b, (takeFrame n a).report⟩ := by
  have hle : n ≤ (a ++ b).length := by
    rw [List.length_append]
    omega
  unfold takeFrame
  rw [if_pos h, if_pos hle, List.take_append_of_le_length h, List.drop_append_of_le_length h]
  split <;> rfl

/-- Waiting leaves the bytes as they are, and tells nothing. -/
theorem decode_of_waiting (h : (c.decode b).result = .ok none) : c.decode b = ⟨.ok none, b, ∅⟩ := by
  unfold decode at h ⊢
  split at h
  · cases h
  · rfl
  · split at h
    · rename_i hlt
      rw [if_pos hlt]
    · unfold takeFrame at h
      split at h
      · split at h <;> cases h
      · cases h

/-- What decoding finds it finds also when more bytes have come. -/
theorem decode_append (h : (c.decode a).result ≠ .ok none) (b : Bytes) :
    c.decode (a ++ b) = ⟨(c.decode a).result, (c.decode a).next ++ b, (c.decode a).report⟩ := by
  unfold decode at h ⊢
  have hlen : c.declaredLength (a ++ b) = c.declaredLength a := by
    refine declaredLength_append ?_ b
    intro hnone
    rw [hnone] at h
    exact h rfl
  rw [hlen]
  split
  · rfl
  · rename_i hnone
    exact absurd (by rw [hnone]) h
  · rename_i n hn
    rw [hn] at h
    dsimp only at h
    by_cases hlt : a.length < n
    · rw [if_pos hlt] at h
      exact absurd rfl h
    · rw [if_neg hlt, if_neg (by rw [List.length_append]; omega)]
      exact takeFrame_append (by omega) b

theorem decode_nil (c : Codec) : c.decode [] = ⟨.ok none, [], ∅⟩ := rfl

/-- At the end of the stream, decoding differs only where it would wait. -/
theorem read_of_result_ne (h : (c.decode b).result ≠ .ok none) (ended : Bool) :
    c.read ended b = c.decode b := by
  cases ended with
  | false => rfl
  | true =>
    have hne : b.isEmpty = false := by
      cases b with
      | nil => exact absurd (by rw [decode_nil]) h
      | cons => rfl
    show c.decodeEnd b = _
    unfold decodeEnd
    simp only [hne, Bool.false_eq_true, ↓reduceIte]

/-- Where decoding waits for more bytes, the end of the stream is refused. -/
theorem decodeEnd_of_waiting (h : (c.decode b).result = .ok none) (hb : b ≠ []) :
    c.decodeEnd b = ⟨.error (.ended (endError b)), b, ∅⟩ := by
  have hsome : b.isEmpty = false := by simpa using hb
  unfold decodeEnd
  rw [hsome, decode_of_waiting h]
  rfl

theorem read_append (h : (c.decode a).result ≠ .ok none) (ended : Bool) (b : Bytes) :
    c.read ended (a ++ b) =
      ⟨(c.decode a).result, (c.decode a).next ++ b, (c.decode a).report⟩ := by
  have happend := decode_append h b
  rw [read_of_result_ne (by rw [happend]; exact h), happend]

/-! ## All messages that are whole -/

theorem drain_of_waiting (ended : Bool) (h : (c.read ended b).result = .ok none) :
    c.drain ended b = ⟨[], (c.read ended b).next, false⟩ := by
  rw [drain]
  split <;> simp_all

theorem drain_of_message (ended : Bool) {m : Message}
    (h : (c.read ended b).result = .ok (some m)) :
    c.drain ended b =
      (c.drain ended (c.read ended b).next).cons ⟨.ok m, (c.read ended b).report⟩ := by
  rw [drain]
  split <;> simp_all

theorem drain_of_error (ended : Bool) {e : StreamError} (h : (c.read ended b).result = .error e) :
    c.drain ended b =
      if e.shouldDisconnect then
        ⟨[⟨.error e, (c.read ended b).report⟩], (c.read ended b).next, true⟩
      else (c.drain ended (c.read ended b).next).cons ⟨.error e, (c.read ended b).report⟩ := by
  rw [drain]
  split <;> simp_all

theorem drain_of_fault (ended : Bool) {f : Fault} (h : (c.read ended b).result = .fault f) :
    c.drain ended b = ⟨[⟨.fault f, (c.read ended b).report⟩], (c.read ended b).next, true⟩ := by
  rw [drain]
  split <;> simp_all

end Codec

/-- Go on taking messages off when more bytes have come, unless the stream is of no use. -/
def Drained.resume (c : Codec) (ended : Bool) (more : Bytes) (d : Drained) : Drained :=
  if d.stopped then { d with rest := d.rest ++ more }
  else
    let later := c.drain ended (d.rest ++ more)
    { later with arrivals := d.arrivals ++ later.arrivals }

theorem Drained.resume_cons (c : Codec) (ended : Bool) (more : Bytes) (a : Arrival) (d : Drained) :
    (d.cons a).resume c ended more = (d.resume c ended more).cons a := by
  unfold resume cons
  cases d.stopped <;> rfl

namespace Codec

/-- Taking messages off in two parts is taking them off at once. -/
theorem drain_append (c : Codec) (ended : Bool) (a b : Bytes) :
    c.drain ended (a ++ b) = (c.drain false a).resume c ended b := by
  -- Each message that is found shortens the first part; the rest of it waits for the second.
  induction hn : a.length using Nat.strongRecOn generalizing a with
  | ind n ih =>
    subst hn
    by_cases hwait : (c.decode a).result = .ok none
    · rw [drain_of_waiting false hwait]
      show _ = Drained.resume c ended b ⟨[], (c.decode a).next, false⟩
      rw [decode_of_waiting hwait]
      rfl
    have hread := read_append hwait ended b
    have hlt : goesOn (c.decode a).result → (c.decode a).next.length < a.length :=
      @length_next_lt c false a
    cases hres : (c.decode a).result with
    | ok found =>
      cases found with
      | none => exact absurd hres hwait
      | some m =>
        rw [drain_of_message false hres, drain_of_message ended (by rw [hread, hres]), hread,
          Drained.resume_cons]
        exact congrArg _ (ih _ (hlt (by rw [hres]; rfl)) _ rfl)
    | error e =>
      rw [drain_of_error false hres, drain_of_error ended (by rw [hread, hres]), hread]
      by_cases hd : e.shouldDisconnect
      · rw [if_pos hd, if_pos hd]
        rfl
      · rw [if_neg hd, if_neg hd, Drained.resume_cons]
        exact congrArg _ (ih _ (hlt (by rw [hres]; simpa [goesOn] using hd)) _ rfl)
    | fault f =>
      rw [drain_of_fault false hres, drain_of_fault ended (by rw [hread, hres]), hread]
      rfl

end Codec

namespace Reader

/-! ## Many chunks -/

/-- Chunks arrive, and more may come. -/
def feedAll (r : Reader) : List Bytes → List Arrival × Reader
  | [] => ([], r)
  | chunk :: chunks =>
    ((r.feed chunk).1 ++ ((r.feed chunk).2.feedAll chunks).1, ((r.feed chunk).2.feedAll chunks).2)

/-- Nothing can be taken off where nothing has arrived, and that is no failure. -/
theorem advance_new (c : Codec) (ended : Bool) : (new c).advance ended = ([], new c) := by
  have hread : c.read ended [] = ⟨.ok none, [], ∅⟩ := by
    cases ended <;> rfl
  simp only [advance, new, Bool.false_eq_true, ↓reduceIte]
  rw [Codec.drain_of_waiting ended (by rw [hread]), hread]

/-- What was taken off leaves nothing more to take off. -/
theorem advance_advance (r : Reader) :
    (r.advance false).2.advance false = ([], (r.advance false).2) := by
  obtain ⟨codec, buffer, stopped⟩ := r
  cases stopped with
  | true => rfl
  | false =>
    have hdrain := codec.drain_append false buffer []
    rw [List.append_nil] at hdrain
    simp only [advance, Bool.false_eq_true, ↓reduceIte]
    cases hstopped : (codec.drain false buffer).stopped with
    | true => rfl
    | false =>
      simp only [Drained.resume, hstopped, Bool.false_eq_true, ↓reduceIte, List.append_nil]
        at hdrain
      obtain ⟨harrivals, hrest, hgoes⟩ := Drained.mk.inj hdrain
      rw [List.self_eq_append_right] at harrivals
      simp only [Bool.false_eq_true, ↓reduceIte, harrivals, ← hrest, ← hgoes, hstopped]

/-- Where nothing is left to take off, feeding chunks is feeding all their bytes. -/
theorem feedAll_eq_advance {r : Reader} (h : r.advance false = ([], r)) (chunks : List Bytes) :
    r.feedAll chunks =
      ({ r with buffer := r.buffer ++ chunks.flatten } : Reader).advance false := by
  induction chunks generalizing r with
  | nil =>
    rw [List.flatten_nil, List.append_nil]
    exact h.symm
  | cons chunk chunks ih =>
    have hnext := ih (advance_advance { r with buffer := r.buffer ++ chunk })
    rw [feedAll, feed, hnext, List.flatten_cons, ← List.append_assoc]
    obtain ⟨codec, buffer, stopped⟩ := r
    cases stopped with
    | true => rfl
    | false =>
      simp only [advance, Bool.false_eq_true, ↓reduceIte]
      rw [codec.drain_append false (buffer ++ chunk) chunks.flatten]
      unfold Drained.resume
      cases (codec.drain false (buffer ++ chunk)).stopped <;> simp

theorem readAll_eq_finish (r : Reader) (chunks : List Bytes) :
    r.readAll chunks = ({ r with buffer := r.buffer ++ chunks.flatten } : Reader).finish := by
  induction chunks generalizing r with
  | nil =>
    rw [List.flatten_nil, List.append_nil]
    rfl
  | cons chunk chunks ih =>
    obtain ⟨codec, buffer, stopped⟩ := r
    simp only [readAll, ih, List.flatten_cons, ← List.append_assoc]
    cases stopped with
    | true => rfl
    | false =>
      simp only [feed, finish, advance, Bool.false_eq_true, ↓reduceIte]
      rw [codec.drain_append true (buffer ++ chunk)]
      unfold Drained.resume
      cases (codec.drain false (buffer ++ chunk)).stopped <;> simp

/-- What a stream brings, and what it leaves, does not depend on where its chunks are cut; in
particular it is what the whole stream brings as one chunk. -/
theorem readAll_eq_of_flatten_eq (r : Reader) {chunks chunks' : List Bytes}
    (h : chunks.flatten = chunks'.flatten) :
    r.readAll chunks = r.readAll chunks' ∧ r.readAll chunks = r.readAll [chunks.flatten] := by
  constructor
  · rw [readAll_eq_finish, readAll_eq_finish, h]
  · rw [readAll_eq_finish, readAll_eq_finish, List.flatten_singleton]

/-- A message, a frame of no known kind, and the start of a header: cut everywhere, or between the
frames. -/
theorem readAll_eq_of_flatten_eq_bytewise :
    let stream : Bytes := (Message.closeRequest 1).bytes ++
      Header.encode ⟨.invalid, 12, 2⟩ ++ [2, 0, 0, 0, 12]
    (stream.map fun b => [b]).flatten =
        [stream.take 12, (stream.drop 12).take 12, stream.drop 24].flatten ∧
      (new ⟨⟨64, by decide⟩⟩).readAll (stream.map fun b => [b]) =
        (new ⟨⟨64, by decide⟩⟩).readAll
          [stream.take 12, (stream.drop 12).take 12, stream.drop 24] :=
  ⟨by decide, (readAll_eq_of_flatten_eq _ (by decide)).1⟩

end Reader

end Mbim
