import Mbim.Proofs.Message.Reading

/-!
# The format of messages

The format is a table with one row for every kind of message: the code of the kind, the fewest bytes
of a body, and whether the body starts with a position. Bytes are taken for a message if they
conform to a row, and otherwise refused for the first reason that there is.

* `littleEndian`, `Bytes.field`: the number in a field. `Header.decode_eq` and `Position.decode_eq`
  say in these terms what is read.
* `Layout`, `layouts`: the table. `Kind.ofCode_cases`: a code has one row, or is that of no kind.
* `Layout.Conforms`, `Refused`: what the format accepts, and what it refuses and why. There is
  nothing else (`conforms_or_refused`).
* `Message.parse_of_conforms`, `Message.parse_of_refused`: bytes are read as the format says.
* `Message.ofParts?_eq`: a fragment is built from its parts in one way.
* `Message.parse_iff_conforms`: all of it.
-/

namespace Mbim

/-! ## Fields as numbers -/

/-- The number that the bytes stand for, the least significant one first. -/
def littleEndian : Bytes → Nat
  | [] => 0
  | b :: bs => b.toNat + 256 * littleEndian bs

/-- The number in the four bytes at offset `o`. -/
def Bytes.field (b : Bytes) (o : Nat) : Nat := littleEndian ((b.drop o).take 4)

theorem littleEndian_wordBytes (w : UInt32) : littleEndian (wordBytes w) = w.toNat := by
  have := w.toNat_lt
  simp only [littleEndian, wordBytes, UInt8.toNat_ofNat']
  omega

theorem Bytes.field_eq_of_word? {b : Bytes} {o : Nat} {w : UInt32} (h : b.word? o = some w) :
    b.field o = w.toNat := by
  obtain ⟨a, c, rfl, ha⟩ := exists_of_word? h
  rw [field, List.drop_left' ha, List.take_left' (length_wordBytes w), littleEndian_wordBytes]

/-- The word at an offset, where the bytes hold all of it. -/
theorem Bytes.word?_eq_field {b : Bytes} {o : Nat} (ho : o + 4 < offsetBound)
    (hb : o + 4 ≤ b.length) : b.word? o = some (UInt32.ofNat (b.field o)) := by
  obtain ⟨w, hw⟩ := Option.isSome_iff_exists.mp (word?_isSome_iff.mpr ⟨ho, hb⟩)
  rw [field_eq_of_word? hw, UInt32.ofNat_toNat, hw]

theorem Bytes.field_lt {b : Bytes} {o : Nat} (ho : o + 4 < offsetBound) (hb : o + 4 ≤ b.length) :
    b.field o < wordBound := by
  have hw := word?_eq_field ho hb
  rw [field_eq_of_word? hw]
  exact UInt32.toNat_lt _

theorem Header.decode_eq (b : Bytes) :
    decode b =
      if b.length = 0 then .error .empty
      else if b.length < 12 then .error (.truncated 12 b.length)
      else .ok ⟨Kind.ofCode (UInt32.ofNat (b.field 0)), UInt32.ofNat (b.field 4),
        UInt32.ofNat (b.field 8)⟩ := by
  by_cases hempty : b.length = 0
  · rw [if_pos hempty, List.eq_nil_of_length_eq_zero hempty]
    rfl
  rw [if_neg hempty]
  have hne : b ≠ [] := fun hnil => hempty (by rw [hnil]; rfl)
  by_cases hshort : b.length < 12
  · rw [if_pos hshort, decode_of_short hne hshort]
  · have hheld := Nat.not_lt.mp hshort
    have hkind : rawKind? b = _ := Bytes.word?_eq_field (o := 0) (by decide) (by omega)
    have hlength : b.word? lengthOffset = _ :=
      Bytes.word?_eq_field (o := 4) (by decide) (by omega)
    have htransaction : b.word? transactionOffset = _ :=
      Bytes.word?_eq_field (o := 8) (by decide) (by omega)
    unfold decode
    rw [if_neg hshort, if_neg (by simpa using hne), hkind, hlength, htransaction]

theorem Position.decode_eq {b : Bytes} (hb : 20 ≤ b.length) :
    decode b =
      if b.field 16 < b.field 12 then
        .ok ⟨UInt32.ofNat (b.field 12), UInt32.ofNat (b.field 16)⟩
      else .error (.badPosition (UInt32.ofNat (b.field 16)) (UInt32.ofNat (b.field 12))) := by
  have htotal : b.word? totalOffset = some (UInt32.ofNat (b.field 12)) :=
    Bytes.word?_eq_field (by decide) (by unfold totalOffset; omega)
  have hcurrent : b.word? currentOffset = some (UInt32.ofNat (b.field 16)) :=
    Bytes.word?_eq_field (by decide) (by unfold currentOffset; omega)
  have hlt : UInt32.ofNat (b.field 16) < UInt32.ofNat (b.field 12) ↔
      b.field 16 < b.field 12 := by
    rw [UInt32.lt_iff_toNat_lt,
      UInt32.toNat_ofNat_of_lt' (Bytes.field_lt (by decide) (by omega)),
      UInt32.toNat_ofNat_of_lt' (Bytes.field_lt (by decide) (by omega))]
  simp only [decode, htotal, hcurrent, hlt]

/-! ## The table -/

/-- What the format says of one kind of message. -/
structure Layout where
  /-- The code of the kind. -/
  code : Nat
  /-- The fewest bytes behind the common header. -/
  body : Nat
  /-- Whether a position stands behind the common header. -/
  positioned : Bool
  deriving DecidableEq

/-- The rows of the format. -/
def layouts : List Layout :=
  [ -- To the function: open, close, command, error.
    ⟨0x00000001, 4, false⟩, ⟨0x00000002, 0, false⟩, ⟨0x00000003, 8, true⟩, ⟨0x00000004, 4, false⟩,
    -- To the host: the answers to the first three, error, indication.
    ⟨0x80000001, 4, false⟩, ⟨0x80000002, 4, false⟩, ⟨0x80000003, 8, true⟩, ⟨0x80000004, 4, false⟩,
    ⟨0x80000007, 8, true⟩]

theorem layouts_eq :
    layouts = Kind.known.map fun k => ⟨k.code.toNat, k.minBody?.getD 0, k.isFragment⟩ := by
  decide

theorem eq_of_code_eq :
    ∀ l ∈ layouts, ∀ l' ∈ layouts, l.code = l'.code → l = l' := by decide

theorem le_body_of_positioned : ∀ l ∈ layouts, l.positioned → 8 ≤ l.body := by decide

/-- A code is that of no kind, and not listed, or of the kind in its row. -/
theorem Kind.ofCode_cases (c : UInt32) :
    (ofCode c = invalid ∧ ∀ l ∈ layouts, l.code ≠ c.toNat) ∨
      ∃ l ∈ layouts, l.code = c.toNat ∧ (ofCode c).minBody? = some l.body ∧
        (ofCode c).isFragment = l.positioned := by
  rw [layouts_eq]
  unfold ofCode
  cases hfind : known.find? fun k => k.code == c with
  | none =>
    refine .inl ⟨rfl, fun l hl => ?_⟩
    obtain ⟨k, hk, rfl⟩ := List.mem_map.mp hl
    have hne := List.find?_eq_none.mp hfind k hk
    exact fun heq => hne (beq_iff_eq.mpr (UInt32.toNat_inj.mp heq))
  | some k =>
    have hcode : k.code = c := by simpa using List.find?_some hfind
    have hknown := List.mem_of_find?_eq_some hfind
    have hbody : k.minBody? = some (k.minBody?.getD 0) := by
      cases hmin : k.minBody? with
      | none =>
        rw [minBody?_eq_none_iff.mp hmin] at hknown
        exact absurd hknown (by decide)
      | some n => rfl
    exact .inr ⟨_, List.mem_map.mpr ⟨k, hknown, rfl⟩, congrArg UInt32.toNat hcode, hbody, rfl⟩

/-- The bytes are one message of the kind in this row. -/
structure Layout.Conforms (l : Layout) (b : Bytes) : Prop where
  header : 12 ≤ b.length
  code : l.code = b.field 0
  length : b.field 4 = b.length
  body : 12 + l.body ≤ b.length
  position : l.positioned → b.field 16 < b.field 12

/-- Why the format refuses the bytes. Each reason counts only where those before it do not hold. -/
inductive Refused (b : Bytes) : DecodeError → Prop
  | empty (none : b.length = 0) : Refused b .empty
  | header (some : b.length ≠ 0) (short : b.length < 12) : Refused b (.truncated 12 b.length)
  | kind (header : 12 ≤ b.length) (unlisted : ∀ l ∈ layouts, l.code ≠ b.field 0) :
    Refused b (.unknownKind (UInt32.ofNat (b.field 0)))
  | length {l : Layout} (header : 12 ≤ b.length) (listed : l ∈ layouts) (code : l.code = b.field 0)
    (differs : b.field 4 ≠ b.length) :
    Refused b (.lengthMismatch (UInt32.ofNat (b.field 4)) b.length)
  | body {l : Layout} (header : 12 ≤ b.length) (listed : l ∈ layouts) (code : l.code = b.field 0)
    (length : b.field 4 = b.length) (short : b.length < 12 + l.body) :
    Refused b (.truncated (12 + l.body) b.length)
  | position {l : Layout} (header : 12 ≤ b.length) (listed : l ∈ layouts)
    (code : l.code = b.field 0) (length : b.field 4 = b.length) (body : 12 + l.body ≤ b.length)
    (positioned : l.positioned) (beyond : b.field 12 ≤ b.field 16) :
    Refused b (.badPosition (UInt32.ofNat (b.field 16)) (UInt32.ofNat (b.field 12)))

theorem conforms_or_refused (b : Bytes) :
    (∃ l ∈ layouts, l.Conforms b) ∨ ∃ e, Refused b e := by
  by_cases hempty : b.length = 0
  · exact .inr ⟨_, .empty hempty⟩
  by_cases hshort : b.length < 12
  · exact .inr ⟨_, .header hempty hshort⟩
  have hheader := Nat.not_lt.mp hshort
  by_cases hlisted : ∃ l ∈ layouts, l.code = b.field 0
  case neg => exact .inr ⟨_, .kind hheader fun l hl hcode => hlisted ⟨l, hl, hcode⟩⟩
  obtain ⟨l, hl, hcode⟩ := hlisted
  by_cases hlength : b.field 4 = b.length
  case neg => exact .inr ⟨_, .length hheader hl hcode hlength⟩
  by_cases hbody : 12 + l.body ≤ b.length
  case neg => exact .inr ⟨_, .body hheader hl hcode hlength (Nat.not_le.mp hbody)⟩
  by_cases hposition : l.positioned ∧ b.field 12 ≤ b.field 16
  · exact .inr ⟨_, .position hheader hl hcode hlength hbody hposition.1 hposition.2⟩
  · exact .inl ⟨l, hl, hheader, hcode, hlength, hbody,
      fun hp => Nat.not_le.mp fun hle => hposition ⟨hp, hle⟩⟩

/-! ## Reading by the table -/

theorem Kind.of_listed {c : UInt32} {l : Layout} (hl : l ∈ layouts) (hcode : l.code = c.toNat) :
    (ofCode c).minBody? = some l.body ∧ (ofCode c).isFragment = l.positioned := by
  obtain ⟨-, hunlisted⟩ | ⟨l', hl', hcode', hkind⟩ := ofCode_cases c
  · exact absurd hcode (hunlisted l hl)
  · rw [eq_of_code_eq l hl l' hl' (hcode.trans hcode'.symm)]
    exact hkind

namespace Message

variable {b : Bytes}

/-- Behind twelve bytes, what is checked is the declared length, the body and the position. -/
theorem validate_eq {l : Layout} (hheader : 12 ≤ b.length) (hl : l ∈ layouts)
    (hcode : l.code = b.field 0) :
    validate ⟨b⟩ =
      if b.field 4 ≠ b.length then .error (.lengthMismatch (UInt32.ofNat (b.field 4)) b.length)
      else if b.length < 12 + l.body then .error (.truncated (12 + l.body) b.length)
      else if l.positioned then (Position.decode b).map fun _ => ()
      else .ok () := by
  have hkind := Bytes.field_lt (b := b) (o := 0) (by decide) (by omega)
  have hlength := Bytes.field_lt (b := b) (o := 4) (by decide) (by omega)
  obtain ⟨hmin, hfragment⟩ := Kind.of_listed (c := UInt32.ofNat (b.field 0)) hl
    (by rw [UInt32.toNat_ofNat_of_lt' hkind, hcode])
  have hh : header ⟨b⟩ = _ := Header.decode_eq b
  rw [if_neg (by omega), if_neg (by omega)] at hh
  unfold validate
  rw [hh]
  simp only [hmin, hfragment, UInt32.toNat_ofNat_of_lt' hlength, lengthMismatch]
  rfl

theorem parse_of_conforms {l : Layout} (hl : l ∈ layouts) (h : l.Conforms b) :
    parse b = .ok ⟨b⟩ := by
  obtain ⟨hheader, hcode, hlength, hbody, hposition⟩ := h
  unfold parse
  rw [validate_eq hheader hl hcode, if_neg (by simpa using hlength),
    if_neg (Nat.not_lt.mpr hbody)]
  by_cases hp : l.positioned
  · have := le_body_of_positioned l hl hp
    rw [if_pos hp, Position.decode_eq (by omega), if_pos (hposition hp)]
    rfl
  · rw [if_neg hp]
    rfl

theorem parse_of_refused {e : DecodeError} (h : Refused b e) : parse b = .error e := by
  have hh : header ⟨b⟩ = _ := Header.decode_eq b
  unfold parse
  cases h with
  | empty none =>
    rw [if_pos none] at hh
    simp only [validate, hh]
    rfl
  | header some short =>
    rw [if_neg some, if_pos short] at hh
    simp only [validate, hh]
    rfl
  | kind header unlisted =>
    rw [if_neg (by omega), if_neg (by omega)] at hh
    have hlt := Bytes.field_lt (b := b) (o := 0) (by decide) (by omega)
    have hinvalid : Kind.ofCode (UInt32.ofNat (b.field 0)) = .invalid := by
      obtain ⟨hk, -⟩ | ⟨l, hl, hcode, -⟩ := Kind.ofCode_cases (UInt32.ofNat (b.field 0))
      · exact hk
      · rw [UInt32.toNat_ofNat_of_lt' hlt] at hcode
        exact absurd hcode (unlisted l hl)
    have hraw : rawKind? b = some (UInt32.ofNat (b.field 0)) :=
      Bytes.word?_eq_field (by decide) (by unfold kindOffset; omega)
    simp only [validate, hh, hinvalid, Kind.minBody?, unknownKind, hraw]
    rfl
  | length header listed code differs =>
    rw [validate_eq header listed code, if_pos differs]
    rfl
  | body header listed code length short =>
    rw [validate_eq header listed code, if_neg (by simpa using length), if_pos short]
    rfl
  | position header listed code length body positioned beyond =>
    have := le_body_of_positioned _ listed positioned
    rw [validate_eq header listed code, if_neg (by simpa using length),
      if_neg (Nat.not_lt.mpr body), if_pos positioned, Position.decode_eq (by omega),
      if_neg (Nat.not_lt.mpr beyond)]
    rfl

/-! ## Fragments from their parts -/

/-- The fragment that parts make up is that of their key in this place. -/
theorem ofParts?_eq (h : Header) (p : Position) {payload : Bytes}
    (hlen : overhead + payload.length < wordBound) :
    ofParts? h p payload = .ok (h.key.fragment p payload) := by
  unfold ofParts?
  rw [if_pos hlen]
  rfl

/-- A message of a fragment kind is built again from its parts. -/
theorem exists_parts {m : Message} (hv : m.validate = .ok ()) (hf : m.isFragment) :
    ∃ h p payload, m.header = .ok h ∧ m.position = .ok p ∧ m.payload = .ok payload ∧
      ofParts? h p payload = .ok m := by
  obtain ⟨k, hk⟩ := isFragment_iff.mp hf
  obtain ⟨p, payload, rfl, hc⟩ := exists_of_validate hv hk
  obtain ⟨-, -, hlen, -⟩ := carries_iff.mp hc
  exact ⟨_, p, payload, k.fragment_header p payload, hc.position, hc.payload, ofParts?_eq _ p hlen⟩

/-- The kind and the transaction of a fragment are its key. -/
theorem key?_of_kind {m : Message} {k : Key} (hf : k.kind.isFragment) (hkind : m.kind = .ok k.kind)
    (htransaction : m.transaction = .ok k.transaction) : m.key? = some k := by
  unfold kind at hkind
  unfold transaction at htransaction
  cases hh : m.header with
  | error e =>
    rw [hh] at hkind
    cases hkind
  | ok h =>
    rw [hh] at hkind htransaction
    have hk : h.kind = k.kind := Except.ok.inj hkind
    have ht : h.transaction = k.transaction := Except.ok.inj htransaction
    refine key?_eq_some_iff.mpr ⟨h, hh, hk ▸ hf, ?_⟩
    rw [Header.key, hk, ht]

/-- A message of a fragment kind is determined by its parts. -/
theorem eq_of_parts {m m' : Message} (hv : m.validate = .ok ()) (hv' : m'.validate = .ok ())
    (hf : m.isFragment) (hkind : m'.kind = m.kind) (htransaction : m'.transaction = m.transaction)
    (hposition : m'.position = m.position) (hpayload : m'.payload = m.payload) : m' = m := by
  obtain ⟨k, hk⟩ := isFragment_iff.mp hf
  obtain ⟨h, hh, -, rfl⟩ := key?_eq_some_iff.mp hk
  have ht : m.transaction = .ok h.transaction := by simp [transaction, hh, Except.map]
  have hk' : m'.key? = some h.key :=
    key?_of_kind (isFragment_of_key? hk) (hkind.trans (kind_of_header hh)) (htransaction.trans ht)
  obtain ⟨p, payload, rfl, hc⟩ := exists_of_validate hv hk
  obtain ⟨p', payload', rfl, hc'⟩ := exists_of_validate hv' hk'
  rw [hc.position, hc'.position] at hposition
  rw [hc.payload, hc'.payload] at hpayload
  cases hposition
  cases hpayload
  rfl

/-- Bytes are taken for a message if and only if they conform to a row of the format, and are
refused with a cause if and only if it is the first that there is. A message of a fragment kind is
built again from its header, its position and its payload. So its kind, its transaction, its
position and its payload determine all of it. -/
theorem parse_iff_conforms (b : Bytes) :
    (∀ m, parse b = .ok m ↔ m = ⟨b⟩ ∧ ∃ l ∈ layouts, l.Conforms b) ∧
      (∀ e, parse b = .error e ↔ Refused b e) ∧
      ∀ m, parse b = .ok m → m.isFragment →
        (∃ h p payload, m.header = .ok h ∧ m.position = .ok p ∧ m.payload = .ok payload ∧
          ofParts? h p payload = .ok ⟨b⟩) ∧
        ∀ b' m', parse b' = .ok m' → m'.kind = m.kind → m'.transaction = m.transaction →
          m'.position = m.position → m'.payload = m.payload → b' = b := by
  refine ⟨fun m => ⟨fun hm => ?_, ?_⟩, fun e => ⟨fun he => ?_, parse_of_refused⟩,
    fun m hm hf => ?_⟩
  · obtain ⟨l, hl, h⟩ | ⟨e, he⟩ := conforms_or_refused b
    · rw [parse_of_conforms hl h] at hm
      cases hm
      exact ⟨rfl, l, hl, h⟩
    · rw [parse_of_refused he] at hm
      cases hm
  · rintro ⟨rfl, l, hl, h⟩
    exact parse_of_conforms hl h
  · obtain ⟨l, hl, h⟩ | ⟨e', he'⟩ := conforms_or_refused b
    · rw [parse_of_conforms hl h] at he
      cases he
    · rw [parse_of_refused he'] at he
      cases he
      exact he'
  · obtain ⟨rfl, hv⟩ := parse_eq_ok_iff.mp hm
    refine ⟨exists_parts hv hf, ?_⟩
    intro b' m' hm' hkind htransaction hposition hpayload
    obtain ⟨rfl, hv'⟩ := parse_eq_ok_iff.mp hm'
    exact congrArg bytes (eq_of_parts hv hv' hf hkind htransaction hposition hpayload)

/-- A fragment, and the same bytes with a length field that says too little and an index that is
not below the total: the length is what is wrong first. -/
theorem parse_iff_conforms_fragment :
    let m := Key.fragment ⟨.command, 7⟩ ⟨3, 1⟩ [9]
    let broken : Bytes := Header.encode ⟨.command, 20, 7⟩ ++ Position.encode ⟨1, 3⟩ ++ [9]
    parse m.bytes = .ok m ∧ m.isFragment ∧
      (∃ l ∈ layouts, l.Conforms m.bytes) ∧ Refused broken (.lengthMismatch 20 21) ∧
      ¬ Refused broken (.badPosition 3 1) ∧
      ∃ h p payload, m.header = .ok h ∧ m.position = .ok p ∧ m.payload = .ok payload ∧
        ofParts? h p payload = .ok m := by
  intro m broken
  obtain ⟨haccepted, -, hparts⟩ := parse_iff_conforms m.bytes
  obtain ⟨-, hrefused, -⟩ := parse_iff_conforms broken
  have hm : parse m.bytes = .ok m := rfl
  have hbroken : parse broken = .error (.lengthMismatch 20 21) := rfl
  refine ⟨hm, rfl, ((haccepted m).mp hm).2, (hrefused _).mp hbroken, ?_, (hparts m hm rfl).1⟩
  rw [← hrefused, hbroken]
  simp

end Message

end Mbim
