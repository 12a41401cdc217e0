/-!
# Bytes and 32-bit words

Every integer field of a control message is a 32-bit word, least significant byte first.

* `Bytes.word?` reads the word at an offset, `Bytes.setWord?` overwrites it; both succeed on the
  same offsets: the field has to end inside the bytes, and its end has to be a 64-bit offset
  (`Bytes.word?_isSome_iff`).
* `wordBytes` gives the four bytes of a word and `wordOf` the word of four bytes.
-/

namespace Mbim

/-- Bytes as they stand on the wire. -/
abbrev Bytes := List UInt8

/-- Bytes in a word. -/
def wordSize : Nat := 4

/-- Offsets lie below this bound, and so does the end of every field. -/
def offsetBound : Nat := 0x10000000000000000

/-- Sizes that a word can hold lie below this bound. -/
def wordBound : Nat := 0x100000000

/-- The word with these bytes, the least significant one first. -/
def wordOf (b₀ b₁ b₂ b₃ : UInt8) : UInt32 :=
  UInt32.ofNat (b₀.toNat + 0x100 * b₁.toNat + 0x10000 * b₂.toNat + 0x1000000 * b₃.toNat)

/-- The four bytes of a word, the least significant one first. -/
def wordBytes (w : UInt32) : Bytes :=
  [UInt8.ofNat w.toNat, UInt8.ofNat (w.toNat / 0x100), UInt8.ofNat (w.toNat / 0x10000),
    UInt8.ofNat (w.toNat / 0x1000000)]

@[simp] theorem length_wordBytes (w : UInt32) : (wordBytes w).length = 4 := rfl

theorem wordOf_wordBytes (w : UInt32) :
    wordOf (UInt8.ofNat w.toNat) (UInt8.ofNat (w.toNat / 0x100)) (UInt8.ofNat (w.toNat / 0x10000))
      (UInt8.ofNat (w.toNat / 0x1000000)) = w := by
  apply UInt32.toNat_inj.mp
  have := w.toNat_lt
  simp only [wordOf, UInt32.toNat_ofNat', UInt8.toNat_ofNat']
  omega

theorem wordBytes_wordOf (b₀ b₁ b₂ b₃ : UInt8) :
    wordBytes (wordOf b₀ b₁ b₂ b₃) = [b₀, b₁, b₂, b₃] := by
  have h₀ := b₀.toNat_lt
  have h₁ := b₁.toNat_lt
  have h₂ := b₂.toNat_lt
  have h₃ := b₃.toNat_lt
  simp only [wordBytes, wordOf, List.cons.injEq, ← UInt8.toNat_inj, UInt8.toNat_ofNat',
    UInt32.toNat_ofNat', and_true]
  omega

namespace Bytes

/-- The word whose first byte is at offset `o`, if the bytes hold all of it. -/
def word? (b : Bytes) (o : Nat) : Option UInt32 :=
  if o + wordSize < offsetBound then
    match b.drop o with
    | b₀ :: b₁ :: b₂ :: b₃ :: _ => some (wordOf b₀ b₁ b₂ b₃)
    | _ => none
  else none

/-- The bytes with the word at offset `o` overwritten, if they hold all of it. -/
def setWord? (b : Bytes) (o : Nat) (w : UInt32) : Option Bytes :=
  if o + wordSize < offsetBound ∧ o + wordSize ≤ b.length then
    some (b.take o ++ wordBytes w ++ b.drop (o + wordSize))
  else none

theorem word?_isSome_iff {b : Bytes} {o : Nat} :
    (b.word? o).isSome ↔ o + wordSize < offsetBound ∧ o + wordSize ≤ b.length := by
  have hl : (b.drop o).length = b.length - o := List.length_drop
  unfold word? wordSize
  split
  case isFalse h => simp [h]
  case isTrue h =>
    split
    case h_1 heq =>
      rw [heq] at hl
      simp only [List.length_cons] at hl
      simp only [Option.isSome_some, h, true_and, true_iff]
      omega
    case h_2 hne =>
      simp only [Option.isSome_none, Bool.false_eq_true, h, true_and, false_iff]
      intro hle
      match hd : b.drop o with
      | [] | [_] | [_, _] | [_, _, _] =>
        rw [hd] at hl
        simp only [List.length_cons, List.length_nil] at hl
        omega
      | _ :: _ :: _ :: _ :: _ => exact hne _ _ _ _ _ hd

end Bytes

end Mbim
