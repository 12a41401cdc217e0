import Mbim.Wire.Position

/-!
# Fields inside longer bytes

A field is four bytes at an offset. What stands before and behind it plays no part in reading it,
and overwriting it leaves both as they are.

* `Bytes.word?_append`, `Bytes.setWord?_append`: the field behind `o` bytes.
* `Bytes.exists_of_word?`: a field that can be read splits the bytes. `Bytes.word?_eq_none`: where
  the bytes end too early.
* `Header.decode_words`, `Header.exists_words_of_decode`: the header in front of any bytes, and back.
  `Header.decode_append`, `Header.exists_of_decode`: the same for a header that was written, back
  only for the kinds that have a code.
* `Position.decode_append`, `Position.exists_of_decode`: the same for the position behind twelve
  bytes.
* `Header.decode_of_short`, `Position.decode_of_short`: bytes that end too early.
-/

namespace Mbim

namespace Bytes

/-- No word is read where the bytes end before its field does. -/
theorem word?_eq_none {b : Bytes} {o : Nat} (hb : b.length < o + 4) : b.word? o = none := by
  rw [← Option.not_isSome_iff_eq_none, word?_isSome_iff]
  exact fun h => absurd h.2 (Nat.not_le.mpr hb)

theorem word?_append {a : Bytes} {o : Nat} (ha : a.length = o) (ho : o + wordSize < offsetBound)
    (w : UInt32) (c : Bytes) : (a ++ (wordBytes w ++ c)).word? o = some w := by
  subst ha
  unfold word?
  rw [if_pos ho, List.drop_left]
  exact congrArg some (wordOf_wordBytes w)

/-- Bytes of which a word can be read are those before the word, the word, and a rest. -/
theorem exists_of_word? {b : Bytes} {o : Nat} {w : UInt32} (h : b.word? o = some w) :
    ∃ a c, b = a ++ (wordBytes w ++ c) ∧ a.length = o := by
  have hs := word?_isSome_iff.mp (Option.isSome_of_eq_some h)
  unfold word? at h
  rw [if_pos hs.1] at h
  split at h
  · rename_i b₀ b₁ b₂ b₃ c hd
    cases h
    refine ⟨b.take o, c, ?_, ?_⟩
    · rw [wordBytes_wordOf]
      conv => lhs; rw [← List.take_append_drop o b, hd]
      rfl
    · rw [List.length_take]
      omega
  · cases h

theorem setWord?_append {a v : Bytes} {o : Nat} (ha : a.length = o) (hv : v.length = wordSize)
    (ho : o + wordSize < offsetBound) (w : UInt32) (c : Bytes) :
    (a ++ (v ++ c)).setWord? o w = some (a ++ (wordBytes w ++ c)) := by
  have hle : o + wordSize ≤ (a ++ (v ++ c)).length := by
    simp only [List.length_append]
    omega
  have hdrop : (a ++ (v ++ c)).drop (o + wordSize) = c := by
    rw [← List.append_assoc]
    exact List.drop_left' (by rw [List.length_append, ha, hv])
  unfold setWord?
  rw [if_pos ⟨ho, hle⟩, List.take_left' ha, hdrop, List.append_assoc]

end Bytes

namespace Kind

/-- Only codes outside the table read as `invalid`, so any other kind comes from its own code. -/
theorem eq_code_of_ofCode {c : UInt32} {k : Kind} (h : ofCode c = k) (hk : k ≠ invalid) :
    c = k.code := by
  unfold ofCode at h
  cases hf : known.find? fun k => k.code == c with
  | none => rw [hf] at h; exact absurd h.symm hk
  | some found =>
    rw [hf] at h
    simp only [Option.getD_some] at h
    subst h
    have : found.code = c := by simpa using List.find?_some hf
    exact this.symm

end Kind

namespace Header

theorem decode_words (code length transaction : UInt32) (c : Bytes) :
    decode (wordBytes code ++ (wordBytes length ++ (wordBytes transaction ++ c))) =
      .ok ⟨Kind.ofCode code, length, transaction⟩ := by
  let b := wordBytes code ++ (wordBytes length ++ (wordBytes transaction ++ c))
  have hne : b.isEmpty = false := rfl
  have hkind : rawKind? b = some code :=
    Bytes.word?_append (a := []) (o := kindOffset) rfl (by decide) code _
  have hlength : b.word? lengthOffset = some length :=
    Bytes.word?_append (a := wordBytes code) (o := lengthOffset) rfl (by decide) length _
  have htransaction : b.word? transactionOffset = some transaction := by
    have := Bytes.word?_append (a := wordBytes code ++ wordBytes length)
      (o := transactionOffset) rfl (by decide) transaction c
    rwa [List.append_assoc] at this
  show decode b = _
  simp [decode, hne, hkind, hlength, htransaction]

theorem encode_append (h : Header) (c : Bytes) :
    h.encode ++ c =
      wordBytes h.kind.code ++ (wordBytes h.length ++ (wordBytes h.transaction ++ c)) := by
  simp only [encode, List.append_assoc]

theorem decode_append (h : Header) (c : Bytes) : decode (h.encode ++ c) = .ok h := by
  rw [encode_append, decode_words, Kind.ofCode_code]

theorem exists_words_of_decode {b : Bytes} {h : Header} (hd : decode b = .ok h) :
    ∃ code c, h.kind = Kind.ofCode code ∧
      b = wordBytes code ++ (wordBytes h.length ++ (wordBytes h.transaction ++ c)) := by
  unfold decode at hd
  split at hd
  · cases hd
  · split at hd
    case h_2 => cases hd
    case h_1 code length transaction hcode hlength htransaction =>
      cases hd
      obtain ⟨a₀, c₀, rfl, ha₀⟩ := Bytes.exists_of_word? hcode
      obtain rfl : a₀ = [] := List.eq_nil_of_length_eq_zero ha₀
      obtain ⟨a₁, c₁, h₁, ha₁⟩ := Bytes.exists_of_word? hlength
      obtain ⟨rfl, rfl⟩ := List.append_inj (by simpa using h₁) (by rw [ha₁]; rfl)
      obtain ⟨a₂, c₂, h₂, ha₂⟩ := Bytes.exists_of_word? htransaction
      have h₂ : (wordBytes code ++ wordBytes length) ++ c₁ =
          a₂ ++ (wordBytes transaction ++ c₂) := by
        simpa using h₂
      obtain ⟨rfl, rfl⟩ := List.append_inj h₂ (by rw [ha₂]; rfl)
      exact ⟨code, c₂, rfl, by simp⟩

theorem exists_rawKind?_of_decode {b : Bytes} {h : Header} (hd : decode b = .ok h) :
    ∃ code, rawKind? b = some code ∧ h.kind = Kind.ofCode code := by
  obtain ⟨code, c, hcode, rfl⟩ := exists_words_of_decode hd
  exact ⟨code, Bytes.word?_append (a := []) (o := kindOffset) rfl (by decide) code _, hcode⟩

/-- Bytes that start with the header of a known kind start with what writes that header. -/
theorem exists_of_decode {b : Bytes} {h : Header} (hd : decode b = .ok h)
    (hk : h.kind ≠ .invalid) : ∃ c, b = h.encode ++ c := by
  obtain ⟨code, c, hcode, rfl⟩ := exists_words_of_decode hd
  exact ⟨c, by rw [encode_append, ← Kind.eq_code_of_ofCode hcode.symm hk]⟩

/-- Bytes that end inside a header are refused, and their number is told. -/
theorem decode_of_short {b : Bytes} (hne : b ≠ []) (hb : b.length < 12) :
    decode b = .error (.truncated 12 b.length) := by
  have htransaction : b.word? transactionOffset = none := Bytes.word?_eq_none hb
  unfold decode
  rw [if_neg (by simpa using hne), htransaction]
  split
  · rename_i hnone
    cases hnone
  · rfl

/-- Bytes with a header hold all of it, the declared length in its place. -/
theorem of_decode {b : Bytes} {h : Header} (hd : decode b = .ok h) :
    headerSize ≤ b.length ∧ b.word? lengthOffset = some h.length := by
  unfold decode at hd
  split at hd
  · cases hd
  · split at hd
    case h_2 => cases hd
    case h_1 code length transaction hcode hlength htransaction =>
      cases hd
      exact ⟨(Bytes.word?_isSome_iff.mp (Option.isSome_of_eq_some htransaction)).2, hlength⟩

end Header

namespace Position

/-- The position behind a header is read back if its index is below the number of fragments. -/
theorem decode_append {a : Bytes} (ha : a.length = headerSize) (p : Position) (c : Bytes) :
    decode (a ++ (p.encode ++ c)) =
      if p.current < p.total then .ok p else .error (.badPosition p.current p.total) := by
  have htotal : (a ++ (p.encode ++ c)).word? totalOffset = some p.total := by
    have := Bytes.word?_append (o := totalOffset) ha (by decide) p.total (wordBytes p.current ++ c)
    simpa [encode] using this
  have hcurrent : (a ++ (p.encode ++ c)).word? currentOffset = some p.current := by
    have := Bytes.word?_append (a := a ++ wordBytes p.total) (o := currentOffset)
      (by rw [List.length_append, ha]; rfl) (by decide) p.current c
    simpa [encode] using this
  simp [decode, htotal, hcurrent]

/-- A position is not read from less than twenty bytes. -/
theorem decode_of_short {b : Bytes} (hb : b.length < 20) :
    decode b = .error (.truncated 20 b.length) := by
  have hcurrent : b.word? currentOffset = none :=
    Bytes.word?_eq_none (by unfold currentOffset; omega)
  unfold decode
  rw [hcurrent]
  split
  · rename_i hnone
    cases hnone
  · rfl

/-- Bytes with a position behind a header hold what writes that position. -/
theorem exists_of_decode {b : Bytes} {p : Position} (hd : decode b = .ok p) :
    p.current < p.total ∧ ∃ a c, b = a ++ (p.encode ++ c) ∧ a.length = headerSize := by
  unfold decode at hd
  split at hd
  case h_2 => cases hd
  case h_1 total current htotal hcurrent =>
    split at hd
    case isFalse => cases hd
    case isTrue hlt =>
      cases hd
      refine ⟨hlt, ?_⟩
      obtain ⟨a, c, rfl, ha⟩ := Bytes.exists_of_word? htotal
      obtain ⟨a', c', h', ha'⟩ := Bytes.exists_of_word? hcurrent
      have h' : (a ++ wordBytes total) ++ c = a' ++ (wordBytes current ++ c') := by
        simpa using h'
      obtain ⟨rfl, rfl⟩ := List.append_inj h' (by rw [List.length_append, ha, ha']; rfl)
      exact ⟨a, c', by simp [encode], ha⟩

end Position

end Mbim
