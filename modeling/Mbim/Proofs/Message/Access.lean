import Mbim.Proofs.Message.Reading

/-!
# Two ways to read a body

A body is read as a whole (`Message.contents`), or by the function that expects its kind
(`Message.maxControlTransfer`, `Message.openDoneStatus`, `Message.closeDoneStatus`,
`Message.errorCode`; for a fragment `Message.position` and `Message.payload`). The two ways read the
same from every message, well-formed or not, and fail for the same reason.

* `Message.wordOfKind_of_kind`, `Message.errorCode_of_kind`: the functions that expect a kind.
* `Message.Shows`: what the parts of a body are, by kind; `Message.contents_eq_ok_iff`: the body as
  a whole is read if and only if its parts are.
* `Message.Declines`: why the functions for a kind decline; `Message.contents_eq_error_iff`: the
  body as a whole cannot be read for the same reason.
* `Message.contents_eq_accessors`: all of it.
-/

namespace Mbim

/-- The body of a fragment, if it is that of one. -/
def Contents.fragment? : Contents → Option FragmentBody
  | command body | commandDone body | indication body => some body
  | _ => none

namespace Message

variable {m : Message} {k : Kind} {e : DecodeError}

/-! ## Functions that expect a kind -/

theorem wordOfKind_of_kind (hk : m.kind = .ok k) (expected : Kind) :
    m.wordOfKind expected =
      if k = expected then m.bodyWord else .error (.wrongKind expected k) := by
  unfold wordOfKind expectKind
  rw [hk]
  dsimp only
  by_cases h : k = expected
  · rw [if_pos h, if_pos h]
  · rw [if_neg h, if_neg h]

theorem wordOfKind_of_error (hk : m.kind = .error e) (expected : Kind) :
    m.wordOfKind expected = .error e := by
  unfold wordOfKind expectKind
  rw [hk]

theorem map_wordOfKind_eq_ok_iff {α : Type} {f : UInt32 → α} {a : α} :
    (m.wordOfKind k).map f = .ok a ↔ m.kind = .ok k ∧ m.bodyWord.map f = .ok a := by
  cases hk : m.kind with
  | error e => simp [wordOfKind_of_error hk, Except.map]
  | ok found =>
    rw [wordOfKind_of_kind hk]
    by_cases h : found = k
    · simp [h]
    · simp [h, Except.map]

theorem wordOfKind_eq_ok_iff {w : UInt32} :
    m.wordOfKind k = .ok w ↔ m.kind = .ok k ∧ m.bodyWord = .ok w := by
  have hmap := map_wordOfKind_eq_ok_iff (m := m) (k := k) (f := id) (a := w)
  rwa [Except.map_id] at hmap

theorem errorCode_of_kind (hk : m.kind = .ok k) :
    m.errorCode =
      if k.isError then m.bodyWord.map ProtocolError.ofCode
      else .error (.wrongKind .functionError k) := by
  unfold errorCode
  rw [hk]

theorem errorCode_of_error (hk : m.kind = .error e) : m.errorCode = .error e := by
  unfold errorCode
  rw [hk]

theorem errorCode_eq_ok_iff {error : ProtocolError} :
    m.errorCode = .ok error ↔
      ∃ k, m.kind = .ok k ∧ k.isError ∧ m.bodyWord.map ProtocolError.ofCode = .ok error := by
  cases hk : m.kind with
  | error e => simp [errorCode_of_error hk]
  | ok found =>
    rw [errorCode_of_kind hk]
    by_cases h : found.isError <;> simp [h]

/-- Reading the error fails for reasons of its own, never with an error that a message reports. -/
theorem errorCode_ne_protocol (m : Message) (error : ProtocolError) :
    m.errorCode ≠ .error (.protocol error) := by
  have hheader : Header.decode m.bytes ≠ .error (.protocol error) := by
    unfold Header.decode
    split
    · simp
    · split <;> simp
  have hword : m.bodyWord ≠ .error (.protocol error) := by
    unfold bodyWord
    split <;> simp
  unfold errorCode kind header
  cases hh : Header.decode m.bytes with
  | error e =>
    rw [hh] at hheader
    simpa [Except.map] using hheader
  | ok h =>
    simp only [Except.map]
    split
    · cases hw : m.bodyWord with
      | error e =>
        rw [hw] at hword
        simpa using hword
      | ok w => simp
    · simp

/-! ## The body as a whole -/

/-- The body consists of these parts, if it is that of its kind. -/
def Shows (m : Message) : Contents → Prop
  | .openRequest maxControlTransfer => m.bodyWord = .ok maxControlTransfer
  | .closeRequest => True
  | .openDone status | .closeDone status => m.bodyWord.map Status.ofCode = .ok status
  | .hostError error | .functionError error => m.bodyWord.map ProtocolError.ofCode = .ok error
  | .command body | .commandDone body | .indication body =>
    m.position = .ok body.position ∧ m.payload = .ok body.payload

theorem fragmentBody_eq_ok_iff {body : FragmentBody} :
    m.fragmentBody = .ok body ↔ m.position = .ok body.position ∧ m.payload = .ok body.payload := by
  unfold fragmentBody
  simp only [Outcome.bind_eq_ok_iff, Outcome.pure_eq, Outcome.ok.injEq]
  constructor
  · rintro ⟨position, hposition, payload, hpayload, rfl⟩
    exact ⟨hposition, hpayload⟩
  · rintro ⟨hposition, hpayload⟩
    exact ⟨_, hposition, _, hpayload, rfl⟩

/-- The body as a whole is read if and only if its kind is that of the message and its parts are
there. -/
theorem contents_eq_ok_iff {c : Contents} :
    m.contents = .ok c ↔ m.kind = .ok c.kind ∧ m.Shows c := by
  unfold contents
  constructor
  · intro h
    cases hk : m.kind with
    | error e => simp [hk] at h
    | ok k =>
      rw [hk, Outcome.ofExcept_ok, Outcome.ok_bind] at h
      cases k with
      | invalid => cases h
      | closeRequest =>
        cases h
        exact ⟨rfl, trivial⟩
      | openRequest | openDone | closeDone | hostError | functionError =>
        obtain ⟨w, hw, hc⟩ := Outcome.bind_eq_ok_iff.mp h
        cases hc
        refine ⟨rfl, ?_⟩
        simp only [Shows, Outcome.ofExcept_eq_ok_iff.mp hw, Except.map]
      | command | commandDone | indication =>
        obtain ⟨body, hbody, hc⟩ := Outcome.bind_eq_ok_iff.mp h
        cases hc
        exact ⟨rfl, fragmentBody_eq_ok_iff.mp hbody⟩
  · rintro ⟨hk, hshows⟩
    rw [hk, Outcome.ofExcept_ok, Outcome.ok_bind]
    cases c with
    | closeRequest => rfl
    | openRequest | openDone | closeDone | hostError | functionError =>
      unfold Shows at hshows
      cases hw : m.bodyWord with
      | error e =>
        rw [hw] at hshows
        cases hshows
      | ok w =>
        rw [hw] at hshows
        cases hshows
        rfl
    | command body | commandDone body | indication body =>
      rw [Contents.kind, fragmentBody_eq_ok_iff.mpr hshows]
      rfl

/-! ## Bodies that cannot be read -/

/-- Why the functions that expect the kind decline. Those for a fragment are asked for the position
and then for the payload. -/
inductive Declines (m : Message) : Kind → DecodeError → Prop
  | openRequest {e : DecodeError} (declined : m.maxControlTransfer = .error e) :
    Declines m .openRequest e
  | openDone {e : DecodeError} (declined : m.openDoneStatus = .error e) : Declines m .openDone e
  | closeDone {e : DecodeError} (declined : m.closeDoneStatus = .error e) : Declines m .closeDone e
  | error {k : Kind} {e : DecodeError} (reports : k.isError) (declined : m.errorCode = .error e) :
    Declines m k e
  | position {k : Kind} {e : DecodeError} (fragment : k.isFragment)
    (declined : m.position = .error e) : Declines m k e
  | payload {k : Kind} {p : Position} {e : DecodeError} (fragment : k.isFragment)
    (placed : m.position = .ok p) (declined : m.payload = .error e) : Declines m k e

theorem fragmentBody_eq_error_iff :
    m.fragmentBody = .error e ↔
      m.position = .error e ∨ ∃ p, m.position = .ok p ∧ m.payload = .error e := by
  unfold fragmentBody
  simp [Outcome.bind_eq_error_iff]

/-- What is done with the answer does not change a refusal. -/
private theorem map_eq_error_iff {α β : Type} {x : Except DecodeError α} (f : α → β) :
    x.map f = .error e ↔ x = .error e := by
  cases x <;> simp [Except.map]

/-- The functions for the kinds with one word decline if and only if it is missing. -/
theorem declines_iff_of_word (hk : m.kind = .ok k) (hword : k.minBody? = some 4) :
    m.Declines k e ↔ m.bodyWord = .error e := by
  have hexpected := wordOfKind_of_kind hk k
  rw [if_pos rfl] at hexpected
  have herror := errorCode_of_kind hk
  constructor
  · intro h
    cases h with
    | openRequest declined => rwa [maxControlTransfer, hexpected] at declined
    | openDone declined => rwa [openDoneStatus, hexpected, map_eq_error_iff] at declined
    | closeDone declined => rwa [closeDoneStatus, hexpected, map_eq_error_iff] at declined
    | error reports declined => rwa [herror, if_pos reports, map_eq_error_iff] at declined
    | position fragment | payload fragment =>
      rw [Kind.minBody?_of_isFragment fragment] at hword
      cases hword
  · intro h
    cases k with
    | openRequest => exact .openRequest (by rw [maxControlTransfer, hexpected, h])
    | openDone => exact .openDone (by rw [openDoneStatus, hexpected, map_eq_error_iff, h])
    | closeDone => exact .closeDone (by rw [closeDoneStatus, hexpected, map_eq_error_iff, h])
    | hostError | functionError =>
      exact .error rfl (by rw [herror, if_pos (by rfl), map_eq_error_iff, h])
    | invalid | closeRequest | command | commandDone | indication => cases hword

/-- The functions for a fragment decline if and only if its position or its payload cannot be
read. -/
theorem declines_iff_of_isFragment (hf : k.isFragment) :
    m.Declines k e ↔ m.fragmentBody = .error e := by
  rw [fragmentBody_eq_error_iff]
  constructor
  · intro h
    cases h with
    | openRequest | openDone | closeDone => cases hf
    | error reports =>
      rw [Kind.isError_of_isFragment hf] at reports
      cases reports
    | position _ declined => exact .inl declined
    | payload _ placed declined => exact .inr ⟨_, placed, declined⟩
  · rintro (hposition | ⟨p, hp, hpayload⟩)
    · exact .position hf hposition
    · exact .payload hf hp hpayload

/-- The body of a known kind cannot be read if and only if the functions that expect the kind
decline, and for the same reason. -/
theorem contents_eq_error_iff (hk : m.kind = .ok k) (hknown : k ≠ .invalid) :
    m.contents = .error e ↔ m.Declines k e := by
  unfold contents
  rw [hk, Outcome.ofExcept_ok, Outcome.ok_bind]
  cases k with
  | invalid => exact absurd rfl hknown
  | closeRequest =>
    refine iff_of_false (by simp) fun h => ?_
    cases h <;> contradiction
  | openRequest | openDone | closeDone | hostError | functionError =>
    rw [declines_iff_of_word hk rfl]
    simp [Outcome.bind_eq_error_iff, Outcome.ofExcept_eq_error_iff]
  | command | commandDone | indication =>
    rw [declines_iff_of_isFragment rfl]
    simp [Outcome.bind_eq_error_iff]

/-! ## The two ways agree -/

theorem exists_contents_fragment_iff {body : FragmentBody} :
    (∃ c, m.contents = .ok c ∧ c.fragment? = some body) ↔
      m.isFragment ∧ m.position = .ok body.position ∧ m.payload = .ok body.payload := by
  constructor
  · rintro ⟨c, hc, hbody⟩
    obtain ⟨hk, hshows⟩ := contents_eq_ok_iff.mp hc
    unfold isFragment
    rw [hk]
    cases c with
    | command | commandDone | indication =>
      cases hbody
      exact ⟨rfl, hshows⟩
    | openRequest | closeRequest | openDone | closeDone | hostError | functionError => cases hbody
  · rintro ⟨hf, hparts⟩
    obtain ⟨key, hkey⟩ := isFragment_iff.mp hf
    have hk := kind_of_key? hkey
    obtain hkind | hkind | hkind := Kind.isFragment_iff.mp (isFragment_of_key? hkey)
    all_goals rw [hkind] at hk
    · exact ⟨.command body, contents_eq_ok_iff.mpr ⟨hk, hparts⟩, rfl⟩
    · exact ⟨.commandDone body, contents_eq_ok_iff.mpr ⟨hk, hparts⟩, rfl⟩
    · exact ⟨.indication body, contents_eq_ok_iff.mpr ⟨hk, hparts⟩, rfl⟩

theorem contents_error_iff {error : ProtocolError} :
    m.contents = .ok (.hostError error) ∨ m.contents = .ok (.functionError error) ↔
      m.errorCode = .ok error := by
  rw [contents_eq_ok_iff, contents_eq_ok_iff, errorCode_eq_ok_iff]
  constructor
  · rintro (⟨hk, hw⟩ | ⟨hk, hw⟩)
    · exact ⟨_, hk, rfl, hw⟩
    · exact ⟨_, hk, rfl, hw⟩
  · rintro ⟨k, hk, hreports, hw⟩
    cases k with
    | hostError => exact .inl ⟨hk, hw⟩
    | functionError => exact .inr ⟨hk, hw⟩
    | invalid | openRequest | closeRequest | command | openDone | closeDone | commandDone
    | indication => cases hreports

/-- What an error message reports, or else why the error cannot be read. -/
theorem failure_eq (m : Message) :
    (∀ error, m.failure = .protocol error ↔ m.errorCode = .ok error) ∧
      ∀ e, m.errorCode = .error e → m.failure = e := by
  have hnever := m.errorCode_ne_protocol
  unfold failure
  cases hc : m.errorCode with
  | ok found => simp
  | error e =>
    refine ⟨fun error => iff_of_false ?_ (by simp), fun e' h => Except.error.inj h⟩
    rintro rfl
    exact hnever error hc

/-- Reading the body as a whole gives what the functions that expect its kind give, for every
message: each way answers if and only if the other does, and with the same. If the header is there
and the kind is known, the body as a whole cannot be read if and only if the functions for its kind
decline, with the same cause; those for other kinds name the kind that they found. -/
theorem contents_eq_accessors (m : Message) :
    (∀ size, m.contents = .ok (.openRequest size) ↔ m.maxControlTransfer = .ok size) ∧
      (∀ status, m.contents = .ok (.openDone status) ↔ m.openDoneStatus = .ok status) ∧
      (∀ status, m.contents = .ok (.closeDone status) ↔ m.closeDoneStatus = .ok status) ∧
      (∀ error, m.contents = .ok (.hostError error) ∨ m.contents = .ok (.functionError error) ↔
        m.errorCode = .ok error) ∧
      ((∀ error, m.failure = .protocol error ↔ m.errorCode = .ok error) ∧
        ∀ e, m.errorCode = .error e → m.failure = e) ∧
      (∀ body, (∃ c, m.contents = .ok c ∧ c.fragment? = some body) ↔
        m.isFragment ∧ m.position = .ok body.position ∧ m.payload = .ok body.payload) ∧
      (m.contents = .ok .closeRequest ↔ m.kind = .ok .closeRequest) ∧
      (∀ c, m.contents = .ok c → m.kind = .ok c.kind) ∧
      m.contents.isFault = false ∧
      ∀ h, m.header = .ok h →
        (h.kind ≠ .invalid → ∀ e, m.contents = .error e ↔ m.Declines h.kind e) ∧
        (h.kind ≠ .openRequest →
          m.maxControlTransfer = .error (.wrongKind .openRequest h.kind)) ∧
        (h.kind ≠ .openDone → m.openDoneStatus = .error (.wrongKind .openDone h.kind) ∧
          m.openDoneResult = .error (.wrongKind .openDone h.kind)) ∧
        (h.kind ≠ .closeDone → m.closeDoneStatus = .error (.wrongKind .closeDone h.kind) ∧
          m.closeDoneResult = .error (.wrongKind .closeDone h.kind)) ∧
        (h.kind.isError = false → m.errorCode = .error (.wrongKind .functionError h.kind)) := by
  refine ⟨fun size => ?_, fun status => ?_, fun status => ?_, fun error => contents_error_iff,
    m.failure_eq, fun body => exists_contents_fragment_iff, ?_, fun c hc => ?_,
    m.isFault_contents, fun h hh => ?_⟩
  · rw [contents_eq_ok_iff, maxControlTransfer, wordOfKind_eq_ok_iff]
    rfl
  · rw [contents_eq_ok_iff, openDoneStatus, map_wordOfKind_eq_ok_iff]
    rfl
  · rw [contents_eq_ok_iff, closeDoneStatus, map_wordOfKind_eq_ok_iff]
    rfl
  · rw [contents_eq_ok_iff]
    exact and_iff_left trivial
  · exact (contents_eq_ok_iff.mp hc).1
  · have hk := kind_of_header hh
    refine ⟨fun hknown e => contents_eq_error_iff hk hknown, fun hne => ?_, fun hne => ?_,
      fun hne => ?_, fun hne => ?_⟩
    · rw [maxControlTransfer, wordOfKind_of_kind hk, if_neg hne]
    · rw [openDoneResult, openDoneStatus, wordOfKind_of_kind hk, if_neg hne]
      exact ⟨rfl, rfl⟩
    · rw [closeDoneResult, closeDoneStatus, wordOfKind_of_kind hk, if_neg hne]
      exact ⟨rfl, rfl⟩
    · rw [errorCode_of_kind hk, hne]
      rfl

/-- A command with an index that is not below the total and fewer bytes than it declares: the
position is what is wrong first. And the answer to an open request with half of its status. -/
theorem contents_eq_accessors_torn :
    let command : Message := ⟨Header.encode ⟨.command, 25, 7⟩ ++ Position.encode ⟨2, 5⟩⟩
    let done : Message := ⟨Header.encode ⟨.openDone, 16, 7⟩ ++ [1, 0]⟩
    (command.header = .ok ⟨.command, 25, 7⟩ ∧ command.Declines .command (.badPosition 5 2) ∧
      command.maxControlTransfer = .error (.wrongKind .openRequest .command) ∧
      command.closeDoneResult = .error (.wrongKind .closeDone .command)) ∧
      (done.header = .ok ⟨.openDone, 16, 7⟩ ∧ done.Declines .openDone (.truncated 16 14) ∧
        done.errorCode = .error (.wrongKind .functionError .openDone) ∧
        done.failure = .wrongKind .functionError .openDone) := by
  intro command done
  obtain ⟨-, -, -, -, -, -, -, -, -, hcommand⟩ := contents_eq_accessors command
  obtain ⟨-, -, -, -, ⟨-, hfailure⟩, -, -, -, -, hdone⟩ := contents_eq_accessors done
  obtain ⟨hfails, hopen, -, hclose, -⟩ := hcommand ⟨.command, 25, 7⟩ rfl
  obtain ⟨hfails', -, -, -, herror⟩ := hdone ⟨.openDone, 16, 7⟩ rfl
  refine ⟨⟨rfl, ?_, hopen (by decide), (hclose (by decide)).2⟩,
    rfl, ?_, herror rfl, hfailure _ (herror rfl)⟩
  · exact (hfails (by decide) _).mp rfl
  · exact (hfails' (by decide) _).mp rfl

end Message

end Mbim
