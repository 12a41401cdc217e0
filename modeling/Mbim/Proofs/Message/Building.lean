import Mbim.Proofs.Message.Access
import Mbim.Proofs.Message.Format

/-!
# Messages that are built

What is built from parts is a message, and reads as the parts that it was built from. The parts of
two messages are the same if the messages are, but for one thing: a status or a protocol error may
be given as a code that has a name, and reads as that name.

* `CodeTable`, `Settles`: named values with codes of their own, beside all other codes; what a value
  reads as once it is written. `Status.codeTable`, `ProtocolError.codeTable`: the two tables.
* `Draft`: what a message is built from, beside its transaction; `Draft.build`, the message.
* `Draft.build_eq_ok_iff`: which drafts are built, and the bytes of the message.
* `Draft.validate_message`, `Draft.contents_message`: the message is valid, and what it reads as.
  `Draft.message_eq_iff`: when two messages are the same.
* `Draft.build_reads`: all of it.
-/

namespace Mbim

/-! ## Tables of codes -/

/-- Named values with codes, and values that keep any other code; `ofCode` reads a code. -/
structure CodeTable {α : Type} (named : List α) (code : α → UInt32) (other : UInt32 → α)
    (ofCode : UInt32 → α) : Prop where
  /-- A code is read as the first named value that has it, or kept. -/
  read : ∀ c, ofCode c = (named.find? fun a => code a == c).getD (other c)
  /-- No two named values have the same code. -/
  unique : ∀ a ∈ named, ofCode (code a) = a
  code_other : ∀ c, code (other c) = c
  /-- There are no values but these. -/
  complete : ∀ a, a ∈ named ∨ ∃ c, a = other c

/-- What a value reads as once it is written: itself, unless it keeps a code that has a name. -/
inductive Settles {α : Type} (named : List α) (code : α → UInt32) (other : UInt32 → α) :
    α → α → Prop
  | named {a : α} (listed : a ∈ named) : Settles named code other a a
  | renamed {c : UInt32} {a : α} (listed : a ∈ named) (same : code a = c) :
    Settles named code other (other c) a
  | kept {c : UInt32} (unlisted : ∀ a ∈ named, code a ≠ c) :
    Settles named code other (other c) (other c)

theorem CodeTable.settles {α : Type} {named : List α} {code : α → UInt32} {other : UInt32 → α}
    {ofCode : UInt32 → α} (table : CodeTable named code other ofCode) (a : α) :
    Settles named code other a (ofCode (code a)) := by
  rcases table.complete a with hlisted | ⟨c, rfl⟩
  · rw [table.unique a hlisted]
    exact .named hlisted
  rw [table.code_other, table.read]
  cases hfind : named.find? fun a => code a == c with
  | none =>
    refine .kept fun a ha hcode => ?_
    exact List.find?_eq_none.mp hfind a ha (beq_iff_eq.mpr hcode)
  | some a =>
    refine .renamed (List.mem_of_find?_eq_some hfind) ?_
    simpa using List.find?_some hfind

theorem Status.codeTable : CodeTable Status.named Status.code Status.other Status.ofCode where
  read _ := rfl
  unique _ h := Status.ofCode_code h
  code_other _ := rfl
  complete s := by
    cases s with
    | other c => exact .inr ⟨c, rfl⟩
    | _ => exact .inl (by decide)

theorem ProtocolError.codeTable :
    CodeTable ProtocolError.named ProtocolError.code ProtocolError.other ProtocolError.ofCode where
  read _ := rfl
  unique _ h := ProtocolError.ofCode_code h
  code_other _ := rfl
  complete e := by
    cases e with
    | other c => exact .inr ⟨c, rfl⟩
    | _ => exact .inl (by decide)

/-! ## Drafts -/

/-- What a message is built from, beside its transaction. -/
inductive Draft where
  | openRequest (maxControlTransfer : UInt32)
  | closeRequest
  | openDone (status : Status)
  | closeDone (status : Status)
  | hostError (error : ProtocolError)
  | functionError (error : ProtocolError)
  | fragment (kind : Kind) (payload : Bytes)
  deriving DecidableEq

/-- The word that the body holds, if it is one. -/
def Contents.word? : Contents → Option UInt32
  | openRequest maxControlTransfer => some maxControlTransfer
  | openDone status | closeDone status => some status.code
  | hostError error | functionError error => some error.code
  | closeRequest | command _ | commandDone _ | indication _ => none

namespace Draft

/-- The message with these parts. -/
def build (d : Draft) (transaction : UInt32) : Except DecodeError Message :=
  match d with
  | openRequest maxControlTransfer => .ok (.openRequest transaction maxControlTransfer)
  | closeRequest => .ok (.closeRequest transaction)
  | openDone status => .ok (.openDone transaction status)
  | closeDone status => .ok (.closeDone transaction status)
  | hostError error => .ok (.hostError transaction error)
  | functionError error => .ok (.functionError transaction error)
  | fragment kind payload => Message.ofPayload? kind transaction payload

def kind : Draft → Kind
  | openRequest _ => .openRequest
  | closeRequest => .closeRequest
  | openDone _ => .openDone
  | closeDone _ => .closeDone
  | hostError _ => .hostError
  | functionError _ => .functionError
  | fragment kind _ => kind

/-- The word to write, if it is one that is given. -/
def word? : Draft → Option UInt32
  | openRequest maxControlTransfer => some maxControlTransfer
  | openDone status | closeDone status => some status.code
  | hostError error | functionError error => some error.code
  | closeRequest | fragment .. => none

/-- The payload to write, if it is one that is given. -/
def payload? : Draft → Option Bytes
  | fragment _ payload => some payload
  | _ => none

/-- What the message should read as. A code is read as the value with its name. -/
def contents? : Draft → Option Contents
  | openRequest maxControlTransfer => some (.openRequest maxControlTransfer)
  | closeRequest => some .closeRequest
  | openDone status => some (.openDone (.ofCode status.code))
  | closeDone status => some (.closeDone (.ofCode status.code))
  | hostError error => some (.hostError (.ofCode error.code))
  | functionError error => some (.functionError (.ofCode error.code))
  | fragment .command payload => some (.command ⟨.single, payload⟩)
  | fragment .commandDone payload => some (.commandDone ⟨.single, payload⟩)
  | fragment .indication payload => some (.indication ⟨.single, payload⟩)
  | fragment .. => none

/-- A payload goes with a kind that carries one, and the message fits the length field. -/
def Fits (d : Draft) : Prop :=
  ∀ payload, d.payload? = some payload →
    d.kind.isFragment ∧ overhead + payload.length < wordBound

/-- What stands behind the common header. -/
def body (d : Draft) : Bytes :=
  d.word?.elim [] wordBytes ++ d.payload?.elim [] (Position.single.encode ++ ·)

/-- The message that the parts make up. -/
def message (d : Draft) (transaction : UInt32) : Message :=
  ⟨Header.encode ⟨d.kind, UInt32.ofNat (headerSize + d.body.length), transaction⟩ ++ d.body⟩

variable {d d' : Draft} {t t' : UInt32} {m m' : Message} {c : Contents}

/-! ## The message of a draft -/

theorem message_fragment (kind : Kind) (t : UInt32) (payload : Bytes) :
    (fragment kind payload).message t = Key.fragment ⟨kind, t⟩ .single payload := by
  have hsize : headerSize + (fragment kind payload).body.length = overhead + payload.length := by
    simp only [body, word?, payload?, Option.elim, List.nil_append, List.length_append,
      Position.length_encode, overhead, Nat.add_assoc]
  unfold message Key.fragment
  rw [hsize, List.append_assoc]
  rfl

theorem fits_of_payload?_eq_none (h : d.payload? = none) : d.Fits := by
  intro payload hpayload
  rw [h] at hpayload
  cases hpayload

theorem build_of_payload?_eq_none (h : d.payload? = none) (t : UInt32) :
    d.build t = .ok (d.message t) := by
  cases d with
  | openRequest | closeRequest | openDone | closeDone | hostError | functionError => rfl
  | fragment => cases h

/-- The drafts that fit are built, and this is the message. -/
theorem build_eq_ok_iff : d.build t = .ok m ↔ d.Fits ∧ m = d.message t := by
  cases d with
  | openRequest | closeRequest | openDone | closeDone | hostError | functionError =>
    rw [and_iff_right (fits_of_payload?_eq_none rfl), build_of_payload?_eq_none rfl,
      Except.ok.injEq, eq_comm]
  | fragment kind payload =>
    have hfits : (fragment kind payload).Fits ↔
        kind.isFragment ∧ overhead + payload.length < wordBound :=
      ⟨fun h => h payload rfl, fun h _ hpayload => Option.some.inj hpayload ▸ h⟩
    rw [hfits, message_fragment, build, Message.ofPayload?]
    by_cases hf : kind.isFragment
    · rw [if_pos hf]
      by_cases hlen : overhead + payload.length < wordBound
      · rw [Message.ofParts?_eq _ _ hlen]
        simp [hf, hlen, Header.key, eq_comm]
      · simp [Message.ofParts?, hlen]
    · simp [hf]

theorem header_message (d : Draft) (t : UInt32) :
    (d.message t).header = .ok ⟨d.kind, UInt32.ofNat (headerSize + d.body.length), t⟩ :=
  Header.decode_append _ _

theorem kind_message (d : Draft) (t : UInt32) : (d.message t).kind = .ok d.kind :=
  Message.kind_of_header (d.header_message t)

theorem transaction_message (d : Draft) (t : UInt32) : (d.message t).transaction = .ok t := by
  simp [Message.transaction, header_message, Except.map]

theorem validate_message (h : d.Fits) : (d.message t).validate = .ok () := by
  cases d with
  | openRequest | closeRequest | openDone | closeDone | hostError | functionError =>
    exact (Message.validate_eq_ok_iff (header_message _ t)).mpr
      ⟨rfl, ⟨_, rfl, Nat.le_refl _⟩, fun hf => nomatch hf⟩
  | fragment kind payload =>
    obtain ⟨hf, hlen⟩ := h payload rfl
    rw [message_fragment]
    exact Message.validate_fragment hf (by decide) hlen

/-! ## Reading the message -/

theorem bodyWord_message {w : UInt32} (h : d.word? = some w) :
    (d.message t).bodyWord = .ok w := by
  have hword : (d.message t).bytes.word? headerSize = some w := by
    unfold message body
    rw [h]
    exact Bytes.word?_append (Header.length_encode _) (by decide) w _
  unfold Message.bodyWord
  rw [hword]

/-- What a draft that fits should read as. -/
theorem exists_contents? (h : d.Fits) : ∃ c, d.contents? = some c := by
  cases d with
  | openRequest | closeRequest | openDone | closeDone | hostError | functionError =>
    exact ⟨_, rfl⟩
  | fragment kind payload =>
    obtain rfl | rfl | rfl := Kind.isFragment_iff.mp (h payload rfl).1
    all_goals exact ⟨_, rfl⟩

theorem contents_message (h : d.Fits) (hc : d.contents? = some c) :
    (d.message t).contents = .ok c := by
  rw [Message.contents_eq_ok_iff, kind_message]
  cases d with
  | openRequest =>
    cases hc
    exact ⟨rfl, bodyWord_message rfl⟩
  | openDone | closeDone | hostError | functionError =>
    cases hc
    exact ⟨rfl, congrArg (Except.map _) (bodyWord_message rfl)⟩
  | closeRequest =>
    cases hc
    exact ⟨rfl, trivial⟩
  | fragment kind payload =>
    obtain ⟨hf, hlen⟩ := h payload rfl
    have hcarries := Message.carries_fragment (k := ⟨kind, t⟩) hf (p := .single) (by decide)
      hlen []
    rw [List.append_nil, ← message_fragment] at hcarries
    obtain rfl | rfl | rfl := Kind.isFragment_iff.mp hf
    all_goals
      cases hc
      exact ⟨rfl, hcarries.position, hcarries.payload⟩

/-- What is read holds the word and the payload that were given. -/
theorem parts_of_contents? (hc : d.contents? = some c) :
    c.word? = d.word? ∧ c.fragment?.map FragmentBody.payload = d.payload? := by
  cases d with
  | openRequest | closeRequest | openDone | closeDone | hostError | functionError =>
    cases hc
    simp [Contents.word?, word?, Contents.fragment?, payload?]
  | fragment kind payload =>
    cases kind with
    | command | commandDone | indication =>
      cases hc
      exact ⟨rfl, rfl⟩
    | invalid | openRequest | closeRequest | openDone | closeDone | hostError | functionError =>
      cases hc

/-- Two messages are the same if and only if their kinds, their transactions and what they were
given to write are. -/
theorem message_eq_iff (h : d.Fits) (h' : d'.Fits) :
    d.message t = d'.message t' ↔
      d.kind = d'.kind ∧ t = t' ∧ d.word? = d'.word? ∧ d.payload? = d'.payload? := by
  constructor
  · intro heq
    have hkind := d.kind_message t
    have htransaction := d.transaction_message t
    obtain ⟨c, hc⟩ := exists_contents? h
    obtain ⟨c', hc'⟩ := exists_contents? h'
    have hcontents := contents_message (t := t) h hc
    rw [heq, kind_message] at hkind
    rw [heq, transaction_message] at htransaction
    rw [heq, contents_message h' hc'] at hcontents
    cases hcontents
    obtain ⟨hword, hpayload⟩ := parts_of_contents? hc
    obtain ⟨hword', hpayload'⟩ := parts_of_contents? hc'
    exact ⟨(Except.ok.inj hkind).symm, (Except.ok.inj htransaction).symm, hword.symm.trans hword',
      hpayload.symm.trans hpayload'⟩
  · rintro ⟨hkind, rfl, hword, hpayload⟩
    have hbody : d.body = d'.body := by rw [body, body, hword, hpayload]
    rw [message, message, hkind, hbody]

/-! ## Requests that succeeded -/

/-- The status of a success is the one with the code 0. -/
theorem statusResult_ofCode (code : UInt32) :
    Message.statusResult (Status.ofCode code) =
      if code = 0 then .ok () else .error (.status (Status.ofCode code)) := by
  have hsuccess : (Status.ofCode code).isSuccess ↔ code = 0 := by
    rw [Status.isSuccess_iff]
    constructor
    · intro h
      rw [← Status.code_ofCode code, h]
      rfl
    · rintro rfl
      rfl
  simp only [Message.statusResult, hsuccess]

/-- The word that is given is read by the function that expects the kind. -/
theorem wordOfKind_message {w : UInt32} (h : d.word? = some w) :
    (d.message t).wordOfKind d.kind = .ok w :=
  Message.wordOfKind_eq_ok_iff.mpr ⟨kind_message d t, bodyWord_message h⟩

theorem openDoneResult_openDone (t : UInt32) (s : Status) :
    (Message.openDone t s).openDoneResult =
      if s.code = 0 then .ok () else .error (.status (Status.ofCode s.code)) := by
  have hword : (Message.openDone t s).wordOfKind .openDone = .ok s.code :=
    wordOfKind_message (d := openDone s) rfl
  rw [Message.openDoneResult, Message.openDoneStatus, hword]
  exact statusResult_ofCode s.code

theorem closeDoneResult_closeDone (t : UInt32) (s : Status) :
    (Message.closeDone t s).closeDoneResult =
      if s.code = 0 then .ok () else .error (.status (Status.ofCode s.code)) := by
  have hword : (Message.closeDone t s).wordOfKind .closeDone = .ok s.code :=
    wordOfKind_message (d := closeDone s) rfl
  rw [Message.closeDoneResult, Message.closeDoneStatus, hword]
  exact statusResult_ofCode s.code

/-! ## All of it -/

/-- A message of a draft that fits declares its length. -/
theorem exists_length_message (h : d.Fits) :
    ∃ size, (d.message t).length = .ok size ∧ size.toNat = (d.message t).bytes.length := by
  have hh := d.header_message t
  refine ⟨_, ?_, (Message.of_validate (validate_message h) hh).1⟩
  rw [Message.length, hh]
  rfl

/-- A payload goes with no other kind. -/
theorem build_fragment_of_not_isFragment {kind : Kind} (hf : kind.isFragment = false)
    (t : UInt32) (payload : Bytes) :
    (fragment kind payload).build t = .error (.notFragment kind) :=
  if_neg (Bool.eq_false_iff.mp hf)

/-- Whatever fits is built, and a payload is refused with a kind that carries none. What is built is
taken for a message again, declares its length, belongs to the transaction, and reads as the kind
and the values that were given; it is the same as another that is built if and only if the kinds,
the transactions and the values on the wire are. A status or a protocol error reads as itself unless
it keeps a code that has a name, and the answer to a request reads as a success if and only if the
code is 0. -/
theorem build_reads (d : Draft) (t : UInt32) :
    ((∃ m, d.build t = .ok m) ↔ d.Fits) ∧
      (∀ kind payload, d = fragment kind payload → kind.isFragment = false →
        d.build t = .error (.notFragment kind)) ∧
      (∀ m, d.build t = .ok m →
        Message.parse m.bytes = .ok m ∧
          (∃ size, m.length = .ok size ∧ size.toNat = m.bytes.length) ∧
          m.transaction = .ok t ∧ m.kind = .ok d.kind ∧
          (∃ c, d.contents? = some c ∧ m.contents = .ok c) ∧
          ∀ (d' : Draft) t' m', d'.build t' = .ok m' →
            (m = m' ↔
              d.kind = d'.kind ∧ t = t' ∧ d.word? = d'.word? ∧ d.payload? = d'.payload?)) ∧
      (∀ s, Settles Status.named Status.code Status.other s (Status.ofCode s.code) ∧
        (Message.openDone t s).openDoneResult =
          (if s.code = 0 then .ok () else .error (.status (Status.ofCode s.code))) ∧
        (Message.closeDone t s).closeDoneResult =
          (if s.code = 0 then .ok () else .error (.status (Status.ofCode s.code)))) ∧
      ∀ e, Settles ProtocolError.named ProtocolError.code ProtocolError.other e
        (ProtocolError.ofCode e.code) := by
  refine ⟨⟨fun ⟨m, hm⟩ => (build_eq_ok_iff.mp hm).1, fun h => ⟨_, build_eq_ok_iff.mpr ⟨h, rfl⟩⟩⟩,
    ?_, fun m hm => ?_, fun s => ⟨Status.codeTable.settles s, openDoneResult_openDone t s,
      closeDoneResult_closeDone t s⟩, ProtocolError.codeTable.settles⟩
  · rintro kind payload rfl hf
    exact build_fragment_of_not_isFragment hf t payload
  · obtain ⟨h, rfl⟩ := build_eq_ok_iff.mp hm
    obtain ⟨c, hc⟩ := exists_contents? h
    refine ⟨Message.parse_eq_ok_iff.mpr ⟨rfl, validate_message h⟩, exists_length_message h,
      d.transaction_message t, d.kind_message t, ⟨c, hc, contents_message h hc⟩, ?_⟩
    intro d' t' m' hm'
    obtain ⟨h', rfl⟩ := build_eq_ok_iff.mp hm'
    exact message_eq_iff h h'

/-- A kept code that has a name makes up the same message as the name, and reads as it; one without
a name is kept. The kind of an answer carries no payload. -/
theorem build_reads_renamed :
    (∃ m, (openDone (.other 0)).build 7 = .ok m ∧ (openDone .success).build 7 = .ok m ∧
        m.contents = .ok (.openDone .success)) ∧
      Settles Status.named Status.code Status.other (.other 0) .success ∧
      Settles Status.named Status.code Status.other (.other 24) (.other 24) ∧
      (Message.closeDone 7 (.other 0)).closeDoneResult = .ok () ∧
      (fragment .openDone [9]).build 7 = .error (.notFragment .openDone) := by
  obtain ⟨hbuilt, -, hreads, hstatus, -⟩ := build_reads (openDone (.other 0)) 7
  obtain ⟨-, hrefused, -⟩ := build_reads (fragment .openDone [9]) 7
  obtain ⟨m, hm⟩ := hbuilt.mpr (fits_of_payload?_eq_none rfl)
  obtain ⟨-, -, -, -, ⟨c, hc, hcontents⟩, hsame⟩ := hreads m hm
  cases hc
  have hnamed := (hsame (openDone .success) 7 _ rfl).mpr ⟨rfl, rfl, rfl, rfl⟩
  refine ⟨⟨m, hm, ?_, hcontents⟩, (hstatus (.other 0)).1, (hstatus (.other 24)).1,
    (hstatus (.other 0)).2.2, hrefused .openDone [9] rfl rfl⟩
  rw [hnamed]
  rfl

end Draft

end Mbim
