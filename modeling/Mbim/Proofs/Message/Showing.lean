import Mbim.Proofs.Message.Access
import Mbim.Proofs.Text.Lines

/-!
# What a message is shown as

Every message can be shown. What is shown are lines, the same behind any margin, and how many they
are tells how much of the message could be read.

* `DecodeError.oneLine_message`: no cause takes more than a line to tell.
* `IsLine`: a line that can be shown.
* `Message.Dumps`: what is shown, by how much can be read. There is nothing else
  (`Message.exists_dumps`).
* `Message.Dumps.lines`, `Message.Dumps.level`: all that is shown are lines, all that is told are
  warnings.
* `Message.Dumps.eq_of_header_error`, `Message.Dumps.cases_of_header`: what is shown without a header
  and with one. `Message.body_cases`: what is behind the lines of the header.
* `Message.dump_lines`: all of it.
-/

namespace Mbim

/-! ## Texts of one line -/

@[simp] theorem Kind.oneLine_name (k : Kind) : OneLine k.name := by cases k <;> decide

@[simp] theorem Status.oneLine_name (s : Status) : OneLine s.name := by
  cases s with
  | other c =>
    show OneLine "(unknown)"
    decide
  | _ => decide

@[simp] theorem ProtocolError.oneLine_name (e : ProtocolError) : OneLine e.name := by
  cases e with
  | other c =>
    show OneLine "(unknown)"
    decide
  | _ => decide

@[simp] theorem DecodeError.oneLine_message (e : DecodeError) : OneLine e.message := by
  unfold message
  cases e with
  | status s => exact s.oneLine_name
  | _ => simp +decide

/-! ## Lines -/

/-- A line that can be shown: it is not empty, and has no line feed. -/
structure IsLine (line : String) : Prop where
  ne_empty : line ≠ ""
  oneLine : OneLine line

theorem Header.isLine_of_mem_lines {h : Header} {code : UInt32} :
    ∀ line ∈ h.lines code, IsLine line := by
  have hlines : ∀ line ∈ h.lines code, line ≠ "" ∧ OneLine line := by simp +decide [lines]
  exact fun line hline => ⟨(hlines line hline).1, (hlines line hline).2⟩

theorem Contents.isLine_of_mem_lines {c : Contents} : ∀ line ∈ c.lines, IsLine line := by
  have hlines : ∀ line ∈ c.lines, line ≠ "" ∧ OneLine line := by
    cases c <;> simp +decide [lines]
  exact fun line hline => ⟨(hlines line hline).1, (hlines line hline).2⟩

/-- Only the request to close has nothing to show. -/
theorem Contents.lines_eq_nil_iff {c : Contents} : c.lines = [] ↔ c.kind = .closeRequest := by
  cases c <;> simp [lines, kind]

/-- A body that can be read is not shown as one line. -/
theorem Contents.length_lines_ne_one (c : Contents) : c.lines.length ≠ 1 := by
  cases c <;> simp [lines]

namespace Message

variable {m : Message} {d : Dump} {ε : Type}

/-- What is shown, by how much of the message can be read. -/
inductive Dumps (m : Message) : Dump → Prop
  | headless {e : DecodeError} (header : m.header = .error e) :
    Dumps m ⟨[s!"Header: <malformed: {e.message}>"], []⟩
  | unknown {h : Header} {code : UInt32} (header : m.header = .ok h)
    (raw : rawKind? m.bytes = some code) (kind : h.kind = .invalid) :
    Dumps m ⟨h.lines code, [.unknownKindDumped code]⟩
  | bodiless {h : Header} {code : UInt32} {e : DecodeError} (header : m.header = .ok h)
    (raw : rawKind? m.bytes = some code) (kind : h.kind ≠ .invalid) (body : m.contents = .error e) :
    Dumps m ⟨h.lines code ++ [s!"Contents: <malformed: {e.message}>"], []⟩
  | whole {h : Header} {code : UInt32} {c : Contents} (header : m.header = .ok h)
    (raw : rawKind? m.bytes = some code) (kind : h.kind ≠ .invalid) (body : m.contents = .ok c) :
    Dumps m ⟨h.lines code ++ c.lines, []⟩

theorem exists_dumps (m : Message) : ∃ d, (m.dump : Outcome ε Dump) = .ok d ∧ m.Dumps d := by
  cases hh : m.header with
  | error e =>
    refine ⟨_, ?_, .headless hh⟩
    rw [dump, hh]
  | ok h =>
    obtain ⟨code, hraw, -⟩ := Header.exists_rawKind?_of_decode hh
    by_cases hk : h.kind = .invalid
    · refine ⟨_, ?_, .unknown hh hraw hk⟩
      rw [dump, hh, hraw]
      exact if_pos hk
    · have hdump : (m.dump : Outcome ε Dump) =
          (do return ⟨h.lines code ++ (← m.bodyLines), []⟩) := by
        rw [dump, hh, hraw]
        exact if_neg hk
      have hfault := m.isFault_contents
      rw [hdump, bodyLines]
      cases hc : m.contents with
      | error e => exact ⟨_, rfl, .bodiless hh hraw hk hc⟩
      | ok c => exact ⟨_, rfl, .whole hh hraw hk hc⟩
      | fault f => rw [hc] at hfault; cases hfault

/-! ## The lines of a dump -/

theorem Dumps.lines (hd : m.Dumps d) : d.lines ≠ [] ∧ ∀ line ∈ d.lines, IsLine line := by
  have hmalformed (part : String) (hpart : OneLine part) (e : DecodeError) :
      IsLine (part ++ e.message ++ ">") := ⟨by simp, by simp +decide [hpart]⟩
  cases hd with
  | headless =>
    refine ⟨List.cons_ne_nil _ _, fun line hline => ?_⟩
    rw [List.mem_singleton.mp hline]
    exact hmalformed _ (by decide) _
  | unknown => exact ⟨List.cons_ne_nil _ _, Header.isLine_of_mem_lines⟩
  | bodiless =>
    refine ⟨List.cons_ne_nil _ _, List.forall_mem_append.mpr ⟨Header.isLine_of_mem_lines, ?_⟩⟩
    intro line hline
    rw [List.mem_singleton.mp hline]
    exact hmalformed _ (by decide) _
  | whole =>
    exact ⟨List.cons_ne_nil _ _,
      List.forall_mem_append.mpr ⟨Header.isLine_of_mem_lines, Contents.isLine_of_mem_lines⟩⟩

theorem Dumps.level (hd : m.Dumps d) : ∀ event ∈ d.events, event.level = .warn := by
  cases hd with
  | unknown =>
    intro event hevent
    rw [List.mem_singleton.mp hevent]
    rfl
  | headless | bodiless | whole => exact fun event hevent => absurd hevent List.not_mem_nil

theorem Dumps.eq_of_header_error {e : DecodeError} (hd : m.Dumps d) (hh : m.header = .error e) :
    d = ⟨[s!"Header: <malformed: {e.message}>"], []⟩ := by
  cases hd with
  | headless header => rw [Except.error.inj (hh.symm.trans header)]
  | unknown header | bodiless header | whole header => cases hh.symm.trans header

/-- A message with a header is shown as four lines and those of the body, if its kind is known, and
otherwise as four lines with a warning. -/
theorem Dumps.cases_of_header {h : Header} (hd : m.Dumps d) (hh : m.header = .ok h) :
    ∃ code, rawKind? m.bytes = some code ∧
      (h.kind = .invalid ∧ d = ⟨h.lines code, [.unknownKindDumped code]⟩ ∨
        h.kind ≠ .invalid ∧ ∃ body, d = ⟨h.lines code ++ body, []⟩ ∧
          ((∃ e, m.contents = .error e ∧ body = [s!"Contents: <malformed: {e.message}>"]) ∨
            ∃ c, m.contents = .ok c ∧ body = c.lines)) := by
  cases hd with
  | headless header => cases hh.symm.trans header
  | unknown header raw kind =>
    cases hh.symm.trans header
    exact ⟨_, raw, .inl ⟨kind, rfl⟩⟩
  | bodiless header raw kind body =>
    cases hh.symm.trans header
    exact ⟨_, raw, .inr ⟨kind, _, rfl, .inl ⟨_, body, rfl⟩⟩⟩
  | whole header raw kind body =>
    cases hh.symm.trans header
    exact ⟨_, raw, .inr ⟨kind, _, rfl, .inr ⟨_, body, rfl⟩⟩⟩

theorem length_lines_ne_one (h : Header) (code : UInt32) (body : List String) :
    (h.lines code ++ body).length ≠ 1 := by
  simp [Header.lines]

/-- What is shown is one line if and only if there is no header. -/
theorem Dumps.length_eq_one_iff (hd : m.Dumps d) :
    d.lines.length = 1 ↔ ∃ e, m.header = .error e := by
  cases hh : m.header with
  | error e =>
    rw [hd.eq_of_header_error hh]
    exact iff_of_true rfl ⟨e, rfl⟩
  | ok h =>
    refine iff_of_false ?_ (by simp)
    obtain ⟨code, -, ⟨-, rfl⟩ | ⟨-, body, rfl, -⟩⟩ := hd.cases_of_header hh
    · exact length_lines_ne_one h code []
    · exact length_lines_ne_one h code body

/-- Nothing can be wrong with the body of a request to close. -/
theorem kind_ne_closeRequest_of_contents {h : Header} {e : DecodeError} (hh : m.header = .ok h)
    (he : m.contents = .error e) : h.kind ≠ .closeRequest := by
  intro hk
  have hc : m.contents = .ok .closeRequest :=
    contents_eq_ok_iff.mpr ⟨by rw [kind_of_header hh, hk]; rfl, trivial⟩
  cases he.symm.trans hc

/-- The lines behind those of the header: why the body cannot be read, or the body. -/
theorem body_cases {h : Header} (hh : m.header = .ok h) {body : List String}
    (hbody : (∃ e, m.contents = .error e ∧ body = [s!"Contents: <malformed: {e.message}>"]) ∨
      ∃ c, m.contents = .ok c ∧ body = c.lines) :
    (body = [] ↔ h.kind = .closeRequest) ∧
      ((∃ text : String, body = [s!"Contents: <malformed: {text}>"]) ↔ ∃ e, m.contents = .error e) ∧
      (∀ e, m.contents = .error e → body = [s!"Contents: <malformed: {e.message}>"]) ∧
      ∀ c, m.contents = .ok c → c.kind = h.kind ∧ body = c.lines := by
  obtain ⟨e, he, rfl⟩ | ⟨c, hc, rfl⟩ := hbody
  · refine ⟨iff_of_false (List.cons_ne_nil _ _) (kind_ne_closeRequest_of_contents hh he),
      iff_of_true ⟨_, rfl⟩ ⟨e, he⟩, fun e' he' => ?_, fun c hc => ?_⟩
    · rw [Outcome.error.inj (he'.symm.trans he)]
    · cases he.symm.trans hc
  · have hkind : c.kind = h.kind :=
      Except.ok.inj ((contents_eq_ok_iff.mp hc).1.symm.trans (kind_of_header hh))
    refine ⟨hkind ▸ Contents.lines_eq_nil_iff, iff_of_false ?_ ?_, fun e he => ?_,
      fun c' hc' => ?_⟩
    · rintro ⟨text, hlines⟩
      exact c.length_lines_ne_one (by rw [hlines]; rfl)
    · rintro ⟨e, he⟩
      cases hc.symm.trans he
    · cases hc.symm.trans he
    · cases hc.symm.trans hc'
      exact ⟨hkind, rfl⟩

/-- Every message is shown as lines that depend on nothing else, and each of them stands behind the
margin and is ended by a line feed. There is one line if and only if there is no header, and it says
why. Otherwise four lines show the header; these are all, with one warning of the code, if and only
if the kind is not known. For a known kind nothing is told, and what follows is why the body cannot
be read, in one line, or else the body, which has no lines only in a request to close. -/
theorem dump_lines (m : Message) :
    ∃ d : Dump, (m.dump : Outcome ε Dump) = .ok d ∧
      (d.lines ≠ [] ∧ ∀ line ∈ d.lines, IsLine line) ∧
      (∀ margin, (d.render margin).toList =
        d.lines.flatMap fun line => margin.toList ++ (line.toList ++ ['\n'])) ∧
      (∀ event ∈ d.events, event.level = .warn) ∧
      ((∃ text : String, d.lines = [s!"Header: <malformed: {text}>"]) ↔ ∃ e, m.header = .error e) ∧
      (∀ e, m.header = .error e → d = ⟨[s!"Header: <malformed: {e.message}>"], []⟩) ∧
      ∀ h, m.header = .ok h → ∃ code, rawKind? m.bytes = some code ∧
        h.lines code = ["Header:", s!"  length      = {h.length.toNat}",
          s!"  type        = {h.kind.name} (0x{hex8 code})",
          s!"  transaction = {h.transaction.toNat}"] ∧
        (d.lines = h.lines code ∧ d.events = [.unknownKindDumped code] ↔ h.kind = .invalid) ∧
        (h.kind ≠ .invalid → d.events = [] ∧ ∃ body, d.lines = h.lines code ++ body ∧
          (body = [] ↔ h.kind = .closeRequest) ∧
          ((∃ text : String, body = [s!"Contents: <malformed: {text}>"]) ↔ ∃ e, m.contents = .error e) ∧
          (∀ e, m.contents = .error e → body = [s!"Contents: <malformed: {e.message}>"]) ∧
          ∀ c, m.contents = .ok c → c.kind = h.kind ∧ body = c.lines) := by
  obtain ⟨d, hdump, hd⟩ := m.exists_dumps (ε := ε)
  refine ⟨d, hdump, hd.lines, d.toList_render, hd.level, ⟨?_, ?_⟩,
    fun e hh => hd.eq_of_header_error hh, fun h hh => ?_⟩
  · rintro ⟨text, hlines⟩
    exact hd.length_eq_one_iff.mp (by rw [hlines]; rfl)
  · rintro ⟨e, hh⟩
    exact ⟨e.message, by rw [hd.eq_of_header_error hh]⟩
  · obtain ⟨code, hraw, ⟨hk, rfl⟩ | ⟨hk, body, rfl, hbody⟩⟩ := hd.cases_of_header hh
    · exact ⟨code, hraw, rfl, iff_of_true ⟨rfl, rfl⟩ hk, fun hne => absurd hk hne⟩
    · refine ⟨code, hraw, rfl, iff_of_false ?_ hk, fun _ => ⟨rfl, body, rfl, body_cases hh hbody⟩⟩
      rintro ⟨-, hevents⟩
      cases hevents

/-- Two bytes have no header. A code that no kind has is warned of. The answer to an open request
with half of its status has a header, and a line on what is missing. -/
theorem dump_lines_torn :
    let unknown : Message := ⟨wordBytes 0x55 ++ wordBytes 12 ++ wordBytes 7⟩
    let done : Message := ⟨Header.encode ⟨.openDone, 16, 7⟩ ++ [1, 0]⟩
    (∃ d : Dump, dump ⟨[7, 0]⟩ = (.ok d : Outcome Empty Dump) ∧ d.events = [] ∧
        d.lines = ["Header: <malformed: message truncated: need 12 bytes, have 2>"]) ∧
      (∃ d : Dump, unknown.dump = (.ok d : Outcome Empty Dump) ∧
        d.lines = ["Header:", "  length      = 12", "  type        = invalid (0x00000055)",
          "  transaction = 7"] ∧ d.events = [.unknownKindDumped 0x55]) ∧
      ∃ d : Dump, done.dump = (.ok d : Outcome Empty Dump) ∧ d.events = [] ∧
        d.lines = ["Header:", "  length      = 16", "  type        = open-done (0x80000001)",
          "  transaction = 7",
          "Contents: <malformed: message truncated: need 16 bytes, have 14>"] := by
  intro unknown done
  refine ⟨?_, ?_, ?_⟩
  · obtain ⟨d, hdump, -, -, -, -, hheader, -⟩ := dump_lines (ε := Empty) ⟨[7, 0]⟩
    have hd := hheader (.truncated 12 2) rfl
    exact ⟨d, hdump, by rw [hd], by rw [hd]; decide⟩
  · obtain ⟨d, hdump, -, -, -, -, -, hheader⟩ := dump_lines (ε := Empty) unknown
    obtain ⟨code, hcode, -, hwarned, -⟩ := hheader ⟨.invalid, 12, 7⟩ rfl
    cases hcode
    obtain ⟨hlines, hevents⟩ := hwarned.mpr rfl
    exact ⟨d, hdump, hlines.trans (by decide), hevents⟩
  · obtain ⟨d, hdump, -, -, -, -, -, hheader⟩ := dump_lines (ε := Empty) done
    obtain ⟨code, hcode, -, -, hknown⟩ := hheader ⟨.openDone, 16, 7⟩ rfl
    obtain ⟨hevents, body, hlines, -, -, hbody, -⟩ := hknown (by decide)
    cases hcode
    refine ⟨d, hdump, hevents, ?_⟩
    rw [hlines, hbody (.truncated 16 14) rfl]
    decide

end Message

end Mbim
