import Mbim.Proofs.Stream.Canonical
import Mbim.Stream.Receiver

/-!
# From one end of a link to the other

* `Codec.exists_pieces`: an accepted message is written as its pieces, and these are such messages.
* `Codec.pieces`: the frames in which a message is written; `Codec.encodeAll_pieces`: what is
  written of many messages.
* `Receiver.receiveAll_eq_deliver`, `Receiver.feedAll_eq`: receiving is reading and then pushing,
  with the end of the stream and before it; `Receiver.receiveAll_eq`: the chunks, and then the end.
* `Receiver.run_accepted`: the pieces of an accepted message answer with it, and leave nothing.
* `Receiver.feedAll_encodeAll`: what one end writes, the other gets, however the stream is cut
  into chunks: each message once, in order, and nothing is left over.
-/

namespace Mbim

namespace Codec

variable {c : Codec} {m : Message}

/-! ## Writing accepted messages -/

/-- A message that is accepted is written as its pieces: itself, or the fragments it is split into.
All of them are valid and within the transfer size. -/
theorem exists_pieces (haccepted : (c.encode m []).result = .ok ()) :
    m.validate = .ok () ∧ ∃ ms : List Message,
      (∀ b, (c.encode m b).result = .ok () ∧
        (c.encode m b).next = b ++ (ms.map Message.bytes).flatten) ∧
      (∀ x ∈ ms, x.validate = .ok () ∧ x.bytes.length ≤ c.limit.bytes) ∧
      (m.splitWithin c.limit = .ok none ∧ ms = [m] ∨
        ∃ batch, m.splitWithin c.limit = .ok (some batch) ∧ batch.toMessages = .ok ms) := by
  cases hv : m.validate with
  | error e => simp [encode, hv] at haccepted
  | ok u =>
    refine ⟨rfl, ?_⟩
    cases hs : m.splitWithin c.limit with
    | error e => simp [encode, hv, hs] at haccepted
    | fault f => simp [encode, hv, hs] at haccepted
    | ok split =>
      cases split with
      | none =>
        obtain ⟨h, hh, hlen⟩ := Message.exists_header hv
        have hle : m.bytes.length ≤ c.limit.bytes := hlen ▸ Message.le_of_splitWithin hh hs
        refine ⟨[m], fun b => ?_, fun x hx => ?_, .inl ⟨rfl, rfl⟩⟩
        · simp [encode_message hv hle b]
        · obtain rfl := List.mem_singleton.mp hx
          exact ⟨hv, hle⟩
      | some batch =>
        have hsplitting := m.splitting c.limit
        rw [hs] at hsplitting
        cases hsplitting with
        | pieces header fragment exceeds sends =>
          refine ⟨_, fun b => ?_, sends.valid, .inr ⟨batch, rfl, sends.messages⟩⟩
          simp [encode, hv, hs, sends.encode]

/-- The frames in which a message is written: itself, or the fragments that it is split into. -/
def pieces (c : Codec) (m : Message) : List Message :=
  match m.splitWithin c.limit with
  | .ok none => [m]
  | .ok (some batch) =>
    match batch.toMessages with
    | .ok ms => ms
    | .error _ => []
  | .error _ => []
  | .fault _ => []

theorem pieces_eq {ms : List Message}
    (hgiven : m.splitWithin c.limit = .ok none ∧ ms = [m] ∨
      ∃ batch, m.splitWithin c.limit = .ok (some batch) ∧ batch.toMessages = .ok ms) :
    c.pieces m = ms := by
  obtain ⟨hwhole, rfl⟩ | ⟨batch, hsplit, hmessages⟩ := hgiven
  · simp [pieces, hwhole]
  · simp [pieces, hsplit, hmessages]

/-- An accepted message is written as its pieces, and these are valid and within the transfer
size. -/
theorem encode_pieces (haccepted : (c.encode m []).result = .ok ()) :
    (∀ b, (c.encode m b).result = .ok () ∧
        (c.encode m b).next = b ++ ((c.pieces m).map Message.bytes).flatten) ∧
      ∀ x ∈ c.pieces m, x.validate = .ok () ∧ x.bytes.length ≤ c.limit.bytes := by
  obtain ⟨-, ms, hwritten, hvalid, hgiven⟩ := exists_pieces haccepted
  rw [pieces_eq hgiven]
  exact ⟨hwritten, hvalid⟩

theorem encodeAll_pieces {ms : List Message}
    (haccepted : ∀ m ∈ ms, (c.encode m []).result = .ok ()) (b : Bytes) :
    (c.encodeAll ms b).next = b ++ ((ms.flatMap c.pieces).map Message.bytes).flatten ∧
      ∀ x ∈ ms.flatMap c.pieces, x.validate = .ok () ∧ x.bytes.length ≤ c.limit.bytes := by
  induction ms generalizing b with
  | nil => exact ⟨(List.append_nil b).symm, by simp⟩
  | cons m ms ih =>
    obtain ⟨hm, hms⟩ := List.forall_mem_cons.mp haccepted
    obtain ⟨hwritten, hvalid⟩ := encode_pieces hm
    obtain ⟨hlater, hlatervalid⟩ := ih hms (b ++ ((c.pieces m).map Message.bytes).flatten)
    refine ⟨?_, ?_⟩
    · simp only [encodeAll, (hwritten b).2, hlater]
      simp
    · intro x hx
      rw [List.flatMap_cons] at hx
      obtain hx | hx := List.mem_append.mp hx
      · exact hvalid x hx
      · exact hlatervalid x hx

/-- What the other end gets of a message: as one fragment, if it was split. -/
def delivered (c : Codec) (m : Message) : Message :=
  match m.splitWithin c.limit with
  | .ok (some _) => m.collapsed
  | _ => m

end Codec

theorem Codec.delivered_eq_self {c : Codec} {m : Message} (hv : m.validate = .ok ())
    (hsingle : m.position = .ok .single) : c.delivered m = m := by
  unfold delivered
  split
  · exact Message.collapsed_eq_self hv hsingle
  · rfl

/-! ## Receiving -/

namespace Reassembler

theorem deliver_append (now : Nat) (r : Reassembler) (as bs : List Arrival) :
    r.deliver now (as ++ bs) =
      let first := r.deliver now as
      let later := first.next.deliver now bs
      ⟨first.result ++ later.result, later.next, first.report ++ later.report⟩ := by
  induction as generalizing r with
  | nil => simp [deliver]
  | cons a as ih =>
    obtain ⟨result, report⟩ := a
    cases result <;> simp only [List.cons_append, deliver, ih, Report.append_assoc]

/-- What the receiving end makes of an answer of the reassembler. -/
def Answer.delivery? : Answer → Option Delivery
  | pushed result => some (.pushed result)
  | swept _ => none

theorem deliver_messages (now : Nat) (r : Reassembler) (ms : List Message) :
    (r.deliver now (ms.map fun m => ⟨.ok m, ∅⟩)).result =
        (r.run (ms.map fun m => .push m now)).1.filterMap (fun a => a.1.delivery?) ∧
      (r.deliver now (ms.map fun m => ⟨.ok m, ∅⟩)).next =
        (r.run (ms.map fun m => .push m now)).2 := by
  induction ms generalizing r with
  | nil => exact ⟨rfl, rfl⟩
  | cons m ms ih =>
    obtain ⟨hr, hn⟩ := ih (r.push m now).next
    simp only [List.map_cons, deliver, run_cons]
    refine ⟨?_, hn⟩
    rw [hr, List.filterMap_cons]
    rfl

end Reassembler

namespace Receiver

/-- Chunks arrive at one clock reading, and more may come. -/
def feedAll (r : Receiver) (now : Nat) : List Bytes → List Delivery × Receiver
  | [] => ([], r)
  | chunk :: chunks =>
    let first := r.feed now chunk
    let later := first.next.feedAll now chunks
    (first.result ++ later.1, later.2)

theorem receiveAll_eq (now : Nat) (r : Receiver) (chunks : List Bytes) :
    (r.receiveAll now chunks).result =
        (r.feedAll now chunks).1 ++ ((r.feedAll now chunks).2.finish now).result ∧
      (r.receiveAll now chunks).next = ((r.feedAll now chunks).2.finish now).next := by
  induction chunks generalizing r with
  | nil => exact ⟨rfl, rfl⟩
  | cons chunk chunks ih =>
    obtain ⟨hr, hn⟩ := ih (r.feed now chunk).next
    simp only [receiveAll, feedAll]
    rw [hr, hn, List.append_assoc]
    exact ⟨rfl, rfl⟩

/-- Receiving a stream is reading it and then pushing what was read. -/
theorem receiveAll_eq_deliver (now : Nat) (r : Receiver) (chunks : List Bytes) :
    r.receiveAll now chunks = r.deliver now (r.reader.readAll chunks) := by
  induction chunks generalizing r with
  | nil => rfl
  | cons chunk chunks ih =>
    simp only [receiveAll, ih, deliver, Reader.readAll]
    rw [Reassembler.deliver_append]
    rfl

theorem feedAll_eq (now : Nat) (r : Receiver) (chunks : List Bytes) :
    r.feedAll now chunks =
      ((r.reassembler.deliver now (r.reader.feedAll chunks).1).result,
        ⟨(r.reader.feedAll chunks).2,
          (r.reassembler.deliver now (r.reader.feedAll chunks).1).next⟩) := by
  induction chunks generalizing r with
  | nil => rfl
  | cons chunk chunks ih =>
    have hlater := ih (r.feed now chunk).next
    simp only [feedAll, Reader.feedAll]
    rw [hlater, Reassembler.deliver_append]
    rfl

end Receiver

/-! ## One message -/

/-- The message that a delivery brings. -/
def Delivery.message? : Delivery → Option Message
  | pushed (.ok found) => found
  | _ => none

/-- Whether a delivery tells of no failure. -/
def Delivery.succeeded : Delivery → Bool
  | pushed (.ok _) => true
  | _ => false

namespace Reassembler

theorem run_passing {m : Message} (hv : m.validate = .ok ()) (hk : m.key? = none) (limit : Limit)
    (timeout now : Nat) :
    ((new limit timeout).run [.push m now]).2 = new limit timeout ∧
      ((new limit timeout).run [.push m now]).1.map Prod.fst = seriesAnswers 0 m := by
  obtain ⟨hresult, hnext⟩ := (sound_new limit timeout).push_passing hv hk now
  rw [live_new] at hnext
  simp only [run_cons, run_nil, step, hresult, hnext, List.map_cons, List.map_nil, true_and]
  rfl

end Reassembler

namespace Receiver

/-- What the receiving end can put together of a message that the sending end accepts: a fragment
has to be within the size cap, and to stand for all of its series unless it is split further. -/
def Restorable (c : Config) (m : Message) : Prop :=
  m.isFragment → m.bytes.length ≤ c.maxMessage.bytes ∧
    (m.position = .ok .single ∨ c.maxTransfer.bytes < m.bytes.length)

instance (c : Config) (m : Message) : Decidable (Restorable c m) :=
  inferInstanceAs (Decidable (m.isFragment → _))

/-- The pieces of an accepted message of a fragment kind, and what they bring. -/
theorem given_of_restorable {c : Config} {m : Message} {k : Key} {ms : List Message}
    (hv : m.validate = .ok ()) (hk : m.key? = some k)
    (hms : m.splitWithin c.maxTransfer = .ok none ∧ ms = [m] ∨
      ∃ batch, m.splitWithin c.maxTransfer = .ok (some batch) ∧ batch.toMessages = .ok ms)
    (hrestorable : Restorable c m) :
    m.Given ms ∧ m.bytes.length ≤ c.maxMessage.bytes ∧
      (Codec.ofConfig c).delivered m = m.collapsed := by
  obtain ⟨hcap, hposition⟩ := hrestorable (Message.isFragment_iff.mpr ⟨k, hk⟩)
  obtain ⟨hwhole, rfl⟩ | ⟨batch, hsplit, hmessages⟩ := hms
  · obtain ⟨h, hh, -⟩ := Message.key?_eq_some_iff.mp hk
    have hlen := (Message.of_validate hv hh).1
    have hle := Message.le_of_splitWithin hh hwhole
    have hsingle : m.position = .ok .single := by
      obtain hp | hlt := hposition
      · exact hp
      · omega
    refine ⟨.whole _ hwhole hsingle, hcap, ?_⟩
    rw [Message.collapsed_eq_self hv hsingle]
    exact Codec.delivered_eq_self hv hsingle
  · refine ⟨.split _ hsplit hmessages, hcap, ?_⟩
    simp [Codec.delivered, Codec.ofConfig, hsplit]

/-- All pieces of an accepted message, pushed at one clock reading. -/
theorem run_accepted {c : Config} {m : Message} {ms : List Message} (htimeout : 0 < c.timeout)
    (hv : m.validate = .ok ())
    (hms : m.splitWithin c.maxTransfer = .ok none ∧ ms = [m] ∨
      ∃ batch, m.splitWithin c.maxTransfer = .ok (some batch) ∧ batch.toMessages = .ok ms)
    (hrestorable : Restorable c m) (now : Nat) :
    ((Reassembler.ofConfig c).run (ms.map fun m => .push m now)).2 = .ofConfig c ∧
      ((Reassembler.ofConfig c).run (ms.map fun m => .push m now)).1.map Prod.fst =
        Reassembler.seriesAnswers (ms.length - 1) ((Codec.ofConfig c).delivered m) := by
  cases hk : m.key? with
  | none =>
    obtain ⟨hwhole, rfl⟩ | ⟨batch, hsplit, -⟩ := hms
    · have hdelivered : (Codec.ofConfig c).delivered m = m := by
        simp [Codec.delivered, Codec.ofConfig, hwhole]
      rw [hdelivered]
      exact Reassembler.run_passing hv hk c.maxMessage c.timeout now
    · obtain ⟨k, hsome⟩ := Message.exists_key?_of_splitWithin hsplit
      rw [hk] at hsome
      cases hsome
  | some k =>
    obtain ⟨hgiven, hcap, hdelivered⟩ := given_of_restorable hv hk hms hrestorable
    rw [hdelivered]
    exact Reassembler.run_pieces hgiven hv hk hcap htimeout now

/-! ## All messages -/

/-- The answers to the pieces of one message bring it once, and tell of no failure. -/
theorem deliveries_seriesAnswers (pending : Nat) (m : Message) :
    (∀ d ∈ (Reassembler.seriesAnswers pending m).filterMap Reassembler.Answer.delivery?,
        d.succeeded) ∧
      ((Reassembler.seriesAnswers pending m).filterMap
        Reassembler.Answer.delivery?).filterMap Delivery.message? = [m] := by
  unfold Reassembler.seriesAnswers
  induction pending with
  | zero => simp [Reassembler.Answer.delivery?, Delivery.succeeded, Delivery.message?]
  | succ pending ih =>
    obtain ⟨hok, hmessages⟩ := ih
    refine ⟨?_, hmessages⟩
    intro d hd
    obtain rfl | hd := List.mem_cons.mp hd
    · rfl
    · exact hok d hd

/-- What is written of accepted messages are valid messages within the transfer size, and pushing
them in order brings each sent message once. -/
theorem exists_pieces_encodeAll {c : Config} (htimeout : 0 < c.timeout) (now : Nat)
    {ms : List Message}
    (haccepted : ∀ m ∈ ms, ((Codec.ofConfig c).encode m []).result = .ok ())
    (hrestorable : ∀ m ∈ ms, Restorable c m) :
    ∃ pieces : List Message,
      (∀ b, ((Codec.ofConfig c).encodeAll ms b).result = ms.map (fun _ => .ok ()) ∧
        ((Codec.ofConfig c).encodeAll ms b).next = b ++ (pieces.map Message.bytes).flatten) ∧
      (∀ x ∈ pieces, x.validate = .ok () ∧ x.bytes.length ≤ c.maxTransfer.bytes) ∧
      ((Reassembler.ofConfig c).run (pieces.map fun x => .push x now)).2 = .ofConfig c ∧
      let received := ((Reassembler.ofConfig c).run (pieces.map fun x => .push x now)).1.filterMap
        fun a => a.1.delivery?
      (∀ d ∈ received, d.succeeded) ∧
        received.filterMap Delivery.message? = ms.map (Codec.ofConfig c).delivered := by
  induction ms with
  | nil => exact ⟨[], fun b => ⟨rfl, (List.append_nil b).symm⟩, by simp, rfl, by simp, rfl⟩
  | cons m ms ih =>
    obtain ⟨pieces, hwritten, hvalid, hend, hok, hmessages⟩ :=
      ih (fun m hm => haccepted m (List.mem_cons_of_mem _ hm))
        fun m hm => hrestorable m (List.mem_cons_of_mem _ hm)
    obtain ⟨hv, own, hown, hownvalid, hgiven⟩ :=
      Codec.exists_pieces (haccepted m List.mem_cons_self)
    obtain ⟨hownend, hanswers⟩ :=
      run_accepted htimeout hv hgiven (hrestorable m List.mem_cons_self) now
    obtain ⟨hownok, hownmessage⟩ :=
      deliveries_seriesAnswers (own.length - 1) ((Codec.ofConfig c).delivered m)
    have hfirst : ((Reassembler.ofConfig c).run (own.map fun x => .push x now)).1.filterMap
        (fun a => a.1.delivery?) =
          (Reassembler.seriesAnswers (own.length - 1)
            ((Codec.ofConfig c).delivered m)).filterMap Reassembler.Answer.delivery? := by
      rw [← hanswers, List.filterMap_map]
      rfl
    refine ⟨own ++ pieces, fun b => ?_, ?_, ?_⟩
    · obtain ⟨hresult, hnext⟩ := hown b
      obtain ⟨hresults, hnexts⟩ := hwritten (b ++ (own.map Message.bytes).flatten)
      simp only [Codec.encodeAll, hresult, hnext, hresults, hnexts]
      simp
    · intro x hx
      obtain hx | hx := List.mem_append.mp hx
      · exact hownvalid x hx
      · exact hvalid x hx
    · rw [List.map_append, Reassembler.run_append, hownend]
      refine ⟨hend, ?_⟩
      dsimp only
      rw [List.filterMap_append, hfirst, List.filterMap_append, hownmessage, hmessages]
      refine ⟨fun d hd => ?_, rfl⟩
      obtain hd | hd := List.mem_append.mp hd
      · exact hownok d hd
      · exact hok d hd

/-- Whatever one end accepts and writes, the other gets, however the stream is cut into chunks.
Nothing fails, each message comes once and in order, as it was sent or, if it was split, as one
fragment, and nothing is left over. The end of the stream brings nothing more. -/
theorem feedAll_encodeAll {c : Config} (htimeout : 0 < c.timeout) (now : Nat) {ms : List Message}
    (haccepted : ∀ m ∈ ms, ((Codec.ofConfig c).encode m []).result = .ok ())
    (hrestorable : ∀ m ∈ ms, Restorable c m) {chunks : List Bytes}
    (hchunks : chunks.flatten = ((Codec.ofConfig c).encodeAll ms []).next) :
    let received := (Receiver.ofConfig c).feedAll now chunks
    let ended := (Receiver.ofConfig c).receiveAll now chunks
    ((Codec.ofConfig c).encodeAll ms []).result = ms.map (fun _ => .ok ()) ∧
      (∀ d ∈ received.1, d.succeeded) ∧
      received.1.filterMap Delivery.message? = ms.map (Codec.ofConfig c).delivered ∧
      (∀ m ∈ ms, m.position = .ok .single → (Codec.ofConfig c).delivered m = m) ∧
      received.2.reader.buffer = [] ∧ received.2.reassembler.size = 0 ∧
      ended.result = received.1 ∧ ended.next = received.2 := by
  obtain ⟨pieces, hwritten, hvalid, hend, hok, hmessages⟩ :=
    exists_pieces_encodeAll htimeout now haccepted hrestorable
  obtain ⟨hresult, hnext⟩ := hwritten []
  have hread : (Reader.new (Codec.ofConfig c)).feedAll chunks =
      (pieces.map fun m => ⟨.ok m, ∅⟩, Reader.new (Codec.ofConfig c)) := by
    rw [Reader.feedAll_eq_advance (Reader.advance_new _ false), hchunks, hnext]
    simp only [Reader.new, Reader.advance, Bool.false_eq_true, ↓reduceIte, List.nil_append,
      Codec.drain_messages (c := Codec.ofConfig c) hvalid]
  obtain ⟨hdelivered, hkept⟩ := Reassembler.deliver_messages now (Reassembler.ofConfig c) pieces
  have hreceived := feedAll_eq now (Receiver.ofConfig c) chunks
  simp only [Receiver.ofConfig, hread, hdelivered, hkept, hend] at hreceived
  have hfinish : (Receiver.ofConfig c).finish now = ⟨[], Receiver.ofConfig c, ∅⟩ := by
    rw [finish, Receiver.ofConfig, Reader.finish, Reader.advance_new]
    rfl
  obtain ⟨hended, hendednext⟩ := receiveAll_eq now (Receiver.ofConfig c) chunks
  dsimp only
  rw [hended, hendednext, Receiver.ofConfig, hreceived]
  refine ⟨hresult, hok, hmessages, fun m hm hsingle => ?_, rfl, rfl, ?_, ?_⟩
  · exact Codec.delivered_eq_self (Codec.exists_pieces (haccepted m hm)).1 hsingle
  · exact (congrArg (_ ++ Step.result ·) hfinish).trans (List.append_nil _)
  · exact congrArg Step.next hfinish

/-- A link whose transfers carry two bytes of payload. -/
def narrow : Config := ⟨⟨22, by decide⟩, ⟨64, by decide⟩, 5000⟩

/-- Messages with one transaction id: a fragment that needs three transfers, a message of a kind
without fragments, and a command that fits. -/
def exchange : List Message :=
  [Key.fragment ⟨.command, 7⟩ ⟨9, 4⟩ [1, 2, 3, 4, 5], .closeRequest 7,
    Key.fragment ⟨.command, 7⟩ .single [6, 7]]

/-- The exchange over the narrow link, cut in a header and in a payload. -/
theorem feedAll_encodeAll_exchange :
    let written := ((Codec.ofConfig narrow).encodeAll exchange []).next
    let received := (Receiver.ofConfig narrow).feedAll 0
      [written.take 5, (written.drop 5).take 57, written.drop 62]
    written.length = 99 ∧
      received.1.filterMap Delivery.message? =
        [Key.fragment ⟨.command, 7⟩ .single [1, 2, 3, 4, 5], .closeRequest 7,
          Key.fragment ⟨.command, 7⟩ .single [6, 7]] ∧
      received.2.reader.buffer = [] ∧ received.2.reassembler.size = 0 := by
  intro written received
  have haccepted : ∀ m ∈ exchange, ((Codec.ofConfig narrow).encode m []).result = .ok () := by
    decide
  have hcut : [written.take 5, (written.drop 5).take 57, written.drop 62].flatten = written := by
    decide
  obtain ⟨-, -, hmessages, -, hbuffer, hsize, -⟩ :=
    feedAll_encodeAll (c := narrow) (by decide) 0 haccepted (by decide) hcut
  refine ⟨by decide, hmessages.trans ?_, hbuffer, hsize⟩
  decide

end Receiver

end Mbim
