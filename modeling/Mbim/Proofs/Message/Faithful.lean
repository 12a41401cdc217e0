import Mbim.Proofs.Message.Building
import Mbim.Proofs.Message.Showing

/-!
# What a dump tells

The text of a valid message tells all of the message but the payload of a fragment: two messages
have the same text, behind the same margin, if and only if their headers are the same and their
bodies are the same up to the payload. Names are no help in this, since all codes without a name
share one; it is the codes behind them that tell values apart.

* `Contents.withoutPayload`: a body up to the payload.
* `append_hex8_inj`: a code is known from a line that ends in it.
* `Header.lines_inj`, `Contents.lines_inj`: the header, and what is shown of the body, from the lines.
* `Message.Dumps.eq_of_validate`: what a valid message is shown as.
* `render_dump_faithful`: all of it, with the bytes of messages that have no payload.
-/

namespace Mbim

/-- A body up to the payload. -/
def Contents.withoutPayload : Contents → Contents
  | command body => command { body with payload := [] }
  | commandDone body => commandDone { body with payload := [] }
  | indication body => indication { body with payload := [] }
  | contents => contents

/-! ## Lines -/

/-- A code is known from a text that ends in it, but for what is behind. -/
theorem append_hex8_inj {front front' behind : String} {v w : UInt32}
    (h : front ++ hex8 v ++ behind = front' ++ hex8 w ++ behind) : v = w := by
  have hchars := congrArg String.toList ((String.append_left_inj behind).mp h)
  simp only [String.toList_append] at hchars
  have hlength : (hex8 v).toList.length = (hex8 w).toList.length := by
    rw [String.length_toList, String.length_toList, length_hex8, length_hex8]
  exact hex8_inj.mp (String.toList_inj.mp (List.append_inj' hchars hlength).2)

theorem append_toString_inj {front : String} {v w : UInt32}
    (h : front ++ toString v.toNat = front ++ toString w.toNat) : v = w := by
  apply UInt32.toNat_inj.mp
  apply decimal_inj
  exact (String.append_right_inj front).mp h

theorem Header.lines_inj {h h' : Header} {code code' : UInt32} (hl : h.lines code = h'.lines code') :
    code = code' ∧ h.length = h'.length ∧ h.transaction = h'.transaction := by
  simp only [lines, List.cons.injEq, and_true, true_and] at hl
  obtain ⟨hlength, htype, htransaction⟩ := hl
  exact ⟨append_hex8_inj htype, append_toString_inj hlength, append_toString_inj htransaction⟩

namespace Contents

variable {c c' : Contents}

/-- What is shown of a body is the word in it, or the position. -/
theorem lines_inj (hk : c.kind = c'.kind) (hl : c.lines = c'.lines) :
    c.word? = c'.word? ∧
      c.fragment?.map FragmentBody.position = c'.fragment?.map FragmentBody.position := by
  have hposition {body body' : FragmentBody} (h : (command body).lines = (command body').lines) :
      body.position = body'.position := by
    simp only [lines, List.cons.injEq, and_true, true_and] at h
    rcases body with ⟨⟨total, current⟩, payload⟩
    rcases body' with ⟨⟨total', current'⟩, payload'⟩
    exact congrArg₂ Position.mk (append_toString_inj h.1) (append_toString_inj h.2)
  cases c with
  | openRequest size =>
    cases c' <;> cases hk
    simp only [lines, List.cons.injEq, and_true, true_and] at hl
    exact ⟨congrArg some (append_toString_inj hl), rfl⟩
  | closeRequest =>
    cases c' <;> cases hk
    exact ⟨rfl, rfl⟩
  | openDone | closeDone | hostError | functionError =>
    cases c' <;> cases hk
    simp only [lines, List.cons.injEq, and_true, true_and] at hl
    exact ⟨congrArg some (append_hex8_inj hl), rfl⟩
  | command | commandDone | indication =>
    cases c' <;> cases hk
    exact ⟨rfl, congrArg some (hposition hl)⟩

theorem lines_withoutPayload (c : Contents) : c.withoutPayload.lines = c.lines := by
  cases c <;> rfl

theorem word?_withoutPayload (c : Contents) : c.withoutPayload.word? = c.word? := by
  cases c <;> rfl

end Contents

namespace Message

variable {m m' : Message} {c c' : Contents} {d d' : Dump} {ε : Type}

/-- Values read from words are the same if their codes are. -/
theorem eq_of_read_code_eq {α : Type} {code : α → UInt32} {ofCode : UInt32 → α}
    (hcode : ∀ w, code (ofCode w) = w) {x x' : Except DecodeError UInt32} {a a' : α}
    (h : x.map ofCode = .ok a) (h' : x'.map ofCode = .ok a') (heq : code a = code a') :
    a = a' := by
  cases x with
  | error e => cases h
  | ok w =>
    cases x' with
    | error e => cases h'
    | ok w' =>
      cases h
      cases h'
      rw [hcode, hcode] at heq
      rw [heq]

theorem withoutPayload_eq_of_lines_eq (hc : m.contents = .ok c) (hc' : m'.contents = .ok c')
    (hk : c.kind = c'.kind) (hl : c.lines = c'.lines) : c.withoutPayload = c'.withoutPayload := by
  obtain ⟨hword, hposition⟩ := Contents.lines_inj hk hl
  have hshows := (contents_eq_ok_iff.mp hc).2
  have hshows' := (contents_eq_ok_iff.mp hc').2
  cases c with
  | openRequest size =>
    cases c' <;> cases hk
    exact congrArg Contents.openRequest (Option.some.inj hword)
  | closeRequest =>
    cases c' <;> cases hk
    rfl
  | openDone | closeDone =>
    cases c' <;> cases hk
    have hcode := Option.some.inj hword
    rw [eq_of_read_code_eq Status.code_ofCode hshows hshows' hcode]
  | hostError | functionError =>
    cases c' <;> cases hk
    have hcode := Option.some.inj hword
    rw [eq_of_read_code_eq ProtocolError.code_ofCode hshows hshows' hcode]
  | command | commandDone | indication =>
    cases c' <;> cases hk
    have hsame := Option.some.inj hposition
    simp only [Contents.withoutPayload, hsame]

/-! ## Texts -/

/-- A valid message is shown as the lines of its header and of its body. -/
theorem Dumps.eq_of_validate (hd : m.Dumps d) (hv : m.validate = .ok ()) :
    ∃ h code c, m.header = .ok h ∧ rawKind? m.bytes = some code ∧ h.kind = Kind.ofCode code ∧
      m.contents = .ok c ∧ c.kind = h.kind ∧ d.lines = h.lines code ++ c.lines := by
  obtain ⟨h, hh, -⟩ := exists_header hv
  obtain ⟨-, c, hc⟩ := (validate_iff_of_header hh).mp hv
  have hkind : c.kind = h.kind :=
    Except.ok.inj ((contents_eq_ok_iff.mp hc).1.symm.trans (kind_of_header hh))
  obtain ⟨code, hraw, hcode⟩ := Header.exists_rawKind?_of_decode hh
  refine ⟨h, code, c, hh, hraw, hcode, hc, hkind, ?_⟩
  cases hd with
  | headless header => cases hh.symm.trans header
  | unknown header raw kind =>
    cases hh.symm.trans header
    rw [kind] at hkind
    cases c <;> cases hkind
  | bodiless header raw kind body => cases hc.symm.trans body
  | whole header raw kind body =>
    cases hh.symm.trans header
    cases hraw.symm.trans raw
    cases hc.symm.trans body
    rfl

theorem render_eq_iff_of_validate (margin : String) (hv : m.validate = .ok ())
    (hv' : m'.validate = .ok ()) (hc : m.contents = .ok c) (hc' : m'.contents = .ok c')
    (hd : m.Dumps d) (hd' : m'.Dumps d') :
    d.render margin = d'.render margin ↔
      rawKind? m.bytes = rawKind? m'.bytes ∧ m.length = m'.length ∧
        m.transaction = m'.transaction ∧ c.withoutPayload = c'.withoutPayload := by
  obtain ⟨h, code, _, hh, hraw, hcode, hcontents, hk, hlines⟩ := hd.eq_of_validate hv
  obtain ⟨h', code', _, hh', hraw', hcode', hcontents', hk', hlines'⟩ := hd'.eq_of_validate hv'
  cases hc.symm.trans hcontents
  cases hc'.symm.trans hcontents'
  have hone := fun line hline => (hd.lines.2 line hline).oneLine
  have hone' := fun line hline => (hd'.lines.2 line hline).oneLine
  simp only [Message.length, Message.transaction, hraw, hraw', hh, hh', Except.map,
    Option.some.injEq, Except.ok.injEq]
  constructor
  · intro htext
    have hsame := Dump.lines_eq_of_render_eq hone hone' htext
    rw [hlines, hlines'] at hsame
    obtain ⟨hheader, hbody⟩ := List.append_inj hsame rfl
    obtain ⟨rfl, hlength, htransaction⟩ := Header.lines_inj hheader
    have hkind : c.kind = c'.kind := by rw [hk, hk', hcode, hcode']
    exact ⟨rfl, hlength, htransaction, withoutPayload_eq_of_lines_eq hc hc' hkind hbody⟩
  · rintro ⟨rfl, hlength, htransaction, hbody⟩
    have hheader : h = h' := by
      cases h
      cases h'
      simp only at hcode hcode' hlength htransaction
      rw [hcode, hcode', hlength, htransaction]
    have hsame : d.lines = d'.lines := by
      rw [hlines, hlines', hheader, ← c.lines_withoutPayload, hbody, c'.lines_withoutPayload]
    rw [Dump.render, Dump.render, hsame]

end Message

open Message

theorem Draft.eq_of_render_eq {draft draft' : Draft} {t t' : UInt32} {d d' : Dump}
    (margin : String) (hp : draft.payload? = none) (hp' : draft'.payload? = none)
    (hd : (draft.message t).Dumps d) (hd' : (draft'.message t').Dumps d')
    (htext : d.render margin = d'.render margin) : draft.message t = draft'.message t' := by
  have hfits := fits_of_payload?_eq_none hp
  have hfits' := fits_of_payload?_eq_none hp'
  obtain ⟨c, hc⟩ := exists_contents? hfits
  obtain ⟨c', hc'⟩ := exists_contents? hfits'
  obtain ⟨hraw, -, htransaction, hbody⟩ := (render_eq_iff_of_validate margin
    (validate_message hfits) (validate_message hfits') (contents_message hfits hc)
    (contents_message hfits' hc') hd hd').mp htext
  rw [message_eq_iff hfits hfits']
  refine ⟨?_, ?_, ?_, by rw [hp, hp']⟩
  · obtain ⟨code, hcode, hkind⟩ := Header.exists_rawKind?_of_decode (draft.header_message t)
    obtain ⟨code', hcode', hkind'⟩ := Header.exists_rawKind?_of_decode (draft'.header_message t')
    obtain rfl : code = code' := Option.some.inj (hcode.symm.trans (hraw.trans hcode'))
    exact hkind.trans hkind'.symm
  · rw [transaction_message, transaction_message] at htransaction
    exact Except.ok.inj htransaction
  · rw [← (parts_of_contents? hc).1, ← (parts_of_contents? hc').1, ← c.word?_withoutPayload, hbody,
      c'.word?_withoutPayload]

/-- Whatever the margin: two valid messages have the same text if and only if their codes of the
kind, declared lengths and transactions are the same, and their bodies up to the payload. Messages
that are built without a payload have the same text if and only if they are the same, byte for
byte. -/
theorem render_dump_faithful {ε : Type} (margin : String) :
    (∀ m m' : Message, m.validate = .ok () → m'.validate = .ok () →
      ∃ d d' c c', m.dump = (.ok d : Outcome ε Dump) ∧ m'.dump = (.ok d' : Outcome ε Dump) ∧
        m.contents = .ok c ∧ m'.contents = .ok c' ∧
        (d.render margin = d'.render margin ↔
          rawKind? m.bytes = rawKind? m'.bytes ∧ m.length = m'.length ∧
            m.transaction = m'.transaction ∧ c.withoutPayload = c'.withoutPayload)) ∧
      ∀ (draft draft' : Draft) t t', draft.payload? = none → draft'.payload? = none →
        ∃ m m' d d', draft.build t = .ok m ∧ draft'.build t' = .ok m' ∧
          m.dump = (.ok d : Outcome ε Dump) ∧ m'.dump = (.ok d' : Outcome ε Dump) ∧
          (d.render margin = d'.render margin ↔ m.bytes = m'.bytes) := by
  constructor
  · intro m m' hv hv'
    obtain ⟨d, hdump, hd⟩ := m.exists_dumps (ε := ε)
    obtain ⟨d', hdump', hd'⟩ := m'.exists_dumps (ε := ε)
    obtain ⟨-, -, c, -, -, -, hc, -⟩ := hd.eq_of_validate hv
    obtain ⟨-, -, c', -, -, -, hc', -⟩ := hd'.eq_of_validate hv'
    exact ⟨d, d', c, c', hdump, hdump', hc, hc',
      render_eq_iff_of_validate margin hv hv' hc hc' hd hd'⟩
  · intro draft draft' t t' hp hp'
    obtain ⟨d, hdump, hd⟩ := (draft.message t).exists_dumps (ε := ε)
    obtain ⟨d', hdump', hd'⟩ := (draft'.message t').exists_dumps (ε := ε)
    refine ⟨_, _, d, d', draft.build_of_payload?_eq_none hp t,
      draft'.build_of_payload?_eq_none hp' t', hdump, hdump', fun htext => ?_, fun hbytes => ?_⟩
    · rw [Draft.eq_of_render_eq margin hp hp' hd hd' htext]
    · have heq : draft.message t = draft'.message t' := congrArg Message.mk hbytes
      rw [heq, hdump'] at hdump
      rw [Outcome.ok.inj hdump]

/-- Behind a margin of two lines: commands that differ in their payloads have the same text, while
the codes of two answers tell them apart, though neither has a name. -/
theorem render_dump_faithful_nameless :
    let margin := "mbim\n> "
    let first := Key.fragment ⟨.command, 7⟩ ⟨2, 0⟩ [1]
    let second := Key.fragment ⟨.command, 7⟩ ⟨2, 0⟩ [2]
    let done := Message.openDone 7 (.other 24)
    let done' := Message.openDone 7 (.other 99)
    (first.validate = .ok () ∧ second.validate = .ok () ∧ first ≠ second ∧
        ∃ d d', first.dump = (.ok d : Outcome Empty Dump) ∧
          second.dump = (.ok d' : Outcome Empty Dump) ∧ d.render margin = d'.render margin) ∧
      (Status.other 24).name = (Status.other 99).name ∧
      ∃ d d', done.dump = (.ok d : Outcome Empty Dump) ∧
        done'.dump = (.ok d' : Outcome Empty Dump) ∧ d.render margin ≠ d'.render margin := by
  intro margin first second done done'
  obtain ⟨hvalid, hbuilt⟩ := render_dump_faithful (ε := Empty) margin
  refine ⟨⟨rfl, rfl, by decide, ?_⟩, rfl, ?_⟩
  · obtain ⟨d, d', c, c', hd, hd', hc, hc', hiff⟩ := hvalid first second rfl rfl
    cases hc
    cases hc'
    exact ⟨d, d', hd, hd', hiff.mpr ⟨rfl, rfl, rfl, rfl⟩⟩
  · obtain ⟨m, m', d, d', hm, hm', hd, hd', hiff⟩ :=
      hbuilt (.openDone (.other 24)) (.openDone (.other 99)) 7 7 rfl rfl
    cases hm
    cases hm'
    refine ⟨d, d', hd, hd', fun htext => ?_⟩
    exact absurd (hiff.mp htext) (by decide)

end Mbim
