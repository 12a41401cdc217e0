import Mbim.Proofs.Wire.Field
import Mbim.Wire.Buffer

/-!
# Reading and overwriting words

Overwriting a word in place changes the four bytes of its field and nothing else, so that fields
that do not overlap are independent of each other. Every law comes from what each single byte is
afterwards (`Bytes.getElem?_patch`).

* `Bytes.Holds`: a field lies in the bytes. `Apart`: two fields do not overlap.
* `Bytes.word?_congr`: a word is read from the bytes of its field alone.
* `Bytes.word?_patch`, `Bytes.word?_patch_of_apart`: reading after overwriting.
* `Bytes.patch_patch`, `Bytes.patch_word?`, `Bytes.patch_comm`: overwriting twice, overwriting with
  what is there, and overwriting fields that are apart.
* `Bytes.patch_lawful`: all of it.
-/

namespace Mbim

/-- The fields at two offsets do not overlap. -/
def Apart (o p : Nat) : Prop := o + wordSize ≤ p ∨ p + wordSize ≤ o

namespace Bytes

variable {b b' : Bytes} {o p : Nat} {v w : UInt32}

/-- The field at an offset ends inside the bytes, and its end is an offset. -/
def Holds (b : Bytes) (o : Nat) : Prop := o + wordSize < offsetBound ∧ o + wordSize ≤ b.length

instance (b : Bytes) (o : Nat) : Decidable (b.Holds o) := inferInstanceAs (Decidable (_ ∧ _))

theorem isSome_word?_iff : (b.word? o).isSome ↔ b.Holds o := word?_isSome_iff

/-! ## Single bytes -/

theorem patch_of_holds (h : b.Holds o) (w : UInt32) :
    b.patch o w = (true, b.take o ++ wordBytes w ++ b.drop (o + wordSize)) := by
  have hset : b.setWord? o w = some (b.take o ++ wordBytes w ++ b.drop (o + wordSize)) := if_pos h
  rw [patch, hset]

theorem patch_of_not_holds (h : ¬ b.Holds o) (w : UInt32) : b.patch o w = (false, b) := by
  have hset : b.setWord? o w = none := if_neg h
  rw [patch, hset]

theorem patch_fst (b : Bytes) (o : Nat) (w : UInt32) : (b.patch o w).1 = decide (b.Holds o) := by
  by_cases h : b.Holds o
  · rw [patch_of_holds h, decide_eq_true h]
  · rw [patch_of_not_holds h, decide_eq_false h]

@[simp] theorem length_patch (b : Bytes) (o : Nat) (w : UInt32) :
    (b.patch o w).2.length = b.length := by
  by_cases h : b.Holds o
  · have hle := h.2
    rw [patch_of_holds h]
    simp only [List.length_append, List.length_take, List.length_drop, length_wordBytes]
    unfold wordSize at hle ⊢
    omega
  · rw [patch_of_not_holds h]

@[simp] theorem holds_patch : (b.patch o w).2.Holds p ↔ b.Holds p := by
  unfold Holds
  rw [length_patch]

/-- Every byte after overwriting: in the field it is that of the word, elsewhere the old one. -/
theorem getElem?_patch (b : Bytes) (o : Nat) (w : UInt32) (i : Nat) :
    (b.patch o w).2[i]? =
      if b.Holds o ∧ o ≤ i ∧ i < o + wordSize then (wordBytes w)[i - o]? else b[i]? := by
  by_cases h : b.Holds o
  · have hle := h.2
    have htake : (b.take o).length = o := by
      rw [List.length_take]
      omega
    have hfront : (b.take o ++ wordBytes w).length = o + wordSize := by
      rw [List.length_append, htake, length_wordBytes, wordSize]
    rw [patch_of_holds h]
    by_cases hbefore : i < o
    · rw [if_neg (by omega), List.getElem?_append_left (by omega),
        List.getElem?_append_left (by omega), List.getElem?_take_of_lt hbefore]
    by_cases hbehind : o + wordSize ≤ i
    · rw [if_neg (by omega), List.getElem?_append_right (by omega), hfront, List.getElem?_drop]
      congr 1
      omega
    · rw [if_pos ⟨h, by omega⟩, List.getElem?_append_left (by omega),
        List.getElem?_append_right (by omega), htake]
  · rw [patch_of_not_holds h, if_neg fun hi => h hi.1]

theorem getElem?_patch_of_outside {i : Nat} (hi : ¬ (o ≤ i ∧ i < o + wordSize)) :
    (b.patch o w).2[i]? = b[i]? := by
  rw [getElem?_patch, if_neg fun h => hi h.2]

/-! ## Reading -/

theorem take_wordBytes (w : UInt32) (c : Bytes) :
    (wordBytes w ++ c).take wordSize = wordBytes w := List.take_left' (length_wordBytes w)

/-- A word is read if its field is there and holds the bytes of the word. -/
theorem word?_eq_some_iff :
    b.word? o = some w ↔ b.Holds o ∧ (b.drop o).take wordSize = wordBytes w := by
  constructor
  · intro h
    have hs := isSome_word?_iff.mp (Option.isSome_of_eq_some h)
    obtain ⟨a, c, rfl, ha⟩ := exists_of_word? h
    exact ⟨hs, by rw [List.drop_left' ha, take_wordBytes]⟩
  · rintro ⟨h, hfield⟩
    obtain ⟨found, hfound⟩ := Option.isSome_iff_exists.mp (isSome_word?_iff.mpr h)
    obtain ⟨a, c, rfl, ha⟩ := exists_of_word? hfound
    rw [List.drop_left' ha, take_wordBytes] at hfield
    rw [hfield]
    exact word?_append ha h.1 w c

/-- A word is read from the bytes of its field alone. -/
theorem word?_congr (hlen : b'.length = b.length)
    (h : ∀ i, o ≤ i → i < o + wordSize → b'[i]? = b[i]?) : b'.word? o = b.word? o := by
  have hfield : (b'.drop o).take wordSize = (b.drop o).take wordSize := by
    refine List.ext_getElem? fun i => ?_
    rw [List.getElem?_take, List.getElem?_take, List.getElem?_drop, List.getElem?_drop]
    split
    · exact h (o + i) (by omega) (by omega)
    · rfl
  refine Option.ext fun w => ?_
  rw [word?_eq_some_iff, word?_eq_some_iff, hfield, Holds, Holds, hlen]

theorem field_patch (h : b.Holds o) (w : UInt32) :
    ((b.patch o w).2.drop o).take wordSize = wordBytes w := by
  have hle := h.2
  have htake : (b.take o).length = o := by
    rw [List.length_take]
    omega
  rw [patch_of_holds h, List.append_assoc, List.drop_left' htake, take_wordBytes]

theorem word?_patch (h : b.Holds o) (w : UInt32) : (b.patch o w).2.word? o = some w :=
  word?_eq_some_iff.mpr ⟨holds_patch.mpr h, field_patch h w⟩

/-- A field that is apart from the one overwritten is read as before. -/
theorem word?_patch_of_apart (hp : Apart o p) : (b.patch o w).2.word? p = b.word? p := by
  refine word?_congr (length_patch b o w) fun i hle hlt => getElem?_patch_of_outside ?_
  rcases hp with hp | hp
  · omega
  · omega

/-! ## Overwriting more than once -/

/-- Of two words written to one field, the last one stays. -/
theorem patch_patch (b : Bytes) (o : Nat) (v w : UInt32) :
    (b.patch o v).2.patch o w = b.patch o w := by
  refine Prod.ext ?_ (List.ext_getElem? fun i => ?_)
  · rw [patch_fst, patch_fst, decide_eq_decide, holds_patch]
  · simp only [getElem?_patch, holds_patch]
    split
    · rfl
    · rfl

/-- Writing the word that is there changes nothing. -/
theorem patch_word? (h : b.word? o = some w) : b.patch o w = (true, b) := by
  obtain ⟨⟨ho, hle⟩, -⟩ := word?_eq_some_iff.mp h
  obtain ⟨a, c, rfl, ha⟩ := exists_of_word? h
  rw [patch, setWord?_append ha (length_wordBytes w) ho]

/-- The order in which fields that are apart are overwritten does not matter. -/
theorem patch_comm (hp : Apart o p) (b : Bytes) (v w : UInt32) :
    ((b.patch o v).2.patch p w).2 = ((b.patch p w).2.patch o v).2 := by
  refine List.ext_getElem? fun i => ?_
  simp only [getElem?_patch, holds_patch]
  by_cases hi : o ≤ i ∧ i < o + wordSize
  · have hne : ¬ (b.Holds p ∧ p ≤ i ∧ i < p + wordSize) := by
      rintro ⟨-, hi'⟩
      rcases hp with hp | hp
      · omega
      · omega
    rw [if_neg hne, if_neg hne]
  · have hne : ¬ (b.Holds o ∧ o ≤ i ∧ i < o + wordSize) := fun h => hi h.2
    rw [if_neg hne, if_neg hne]

/-! ## The laws -/

/-- Overwriting a word in place, for all bytes and offsets. It succeeds if and only if the word can
be read; then the field holds the bytes of the new word, which is the one that is read, and writing
the old word back restores the bytes. If it fails, the bytes are as before. Either way their number,
every byte outside the field and every word in a field apart from it are as before, and it does not
matter which of two fields that are apart is overwritten first. -/
theorem patch_lawful (b : Bytes) (o : Nat) (v : UInt32) :
    ((b.patch o v).1 ↔ o + wordSize < offsetBound ∧ o + wordSize ≤ b.length) ∧
      (b.patch o v).1 = (b.word? o).isSome ∧
      ((b.patch o v).1 = false → (b.patch o v).2 = b) ∧
      ((b.patch o v).1 → (b.patch o v).2.word? o = some v ∧
        ((b.patch o v).2.drop o).take wordSize = wordBytes v ∧
        ∃ old, b.word? o = some old ∧ (b.patch o v).2.patch o old = (true, b)) ∧
      (b.patch o v).2.length = b.length ∧
      (∀ i, ¬ (o ≤ i ∧ i < o + wordSize) → (b.patch o v).2[i]? = b[i]?) ∧
      ∀ p, Apart o p → (b.patch o v).2.word? p = b.word? p ∧
        ∀ w, ((b.patch o v).2.patch p w).1 = (b.patch p w).1 ∧
          ((b.patch p w).2.patch o v).1 = (b.patch o v).1 ∧
          ((b.patch o v).2.patch p w).2 = ((b.patch p w).2.patch o v).2 := by
  have hholds : (b.patch o v).1 ↔ b.Holds o := by rw [patch_fst, decide_eq_true_iff]
  refine ⟨hholds, ?_, fun hfails => ?_, fun h => ?_, length_patch b o v,
    fun i hi => getElem?_patch_of_outside hi, fun p hp => ⟨word?_patch_of_apart hp, fun w => ?_⟩⟩
  · rw [Bool.eq_iff_iff, hholds, isSome_word?_iff]
  · have hn : ¬ b.Holds o := by
      rw [← hholds, hfails]
      exact Bool.false_ne_true
    rw [patch_of_not_holds hn]
  · have h := hholds.mp h
    obtain ⟨old, hold⟩ := Option.isSome_iff_exists.mp (isSome_word?_iff.mpr h)
    refine ⟨word?_patch h v, field_patch h v, old, hold, ?_⟩
    rw [patch_patch, patch_word? hold]
  · refine ⟨?_, ?_, patch_comm hp b v w⟩
    · rw [patch_fst, patch_fst, decide_eq_decide, holds_patch]
    · rw [patch_fst, patch_fst, decide_eq_decide, holds_patch]

/-- The length and the index in the headers of a fragment, which are renewed as payloads are
appended, with the total between them. A field that starts inside the bytes and ends beyond them is
not there, nor is one at the last offset. -/
theorem patch_lawful_headers :
    let b := Header.encode ⟨.command, 20, 7⟩ ++ Position.encode ⟨3, 0⟩
    let long := (b.patch lengthOffset 25).2
    (b.patch lengthOffset 25).1 ∧ Apart lengthOffset totalOffset ∧
      Apart lengthOffset currentOffset ∧ long.word? lengthOffset = some 25 ∧
      long.word? totalOffset = some 3 ∧
      (long.patch currentOffset 2).2 = ((b.patch currentOffset 2).2.patch lengthOffset 25).2 ∧
      (∃ old, b.word? lengthOffset = some old ∧ long.patch lengthOffset old = (true, b)) ∧
      ((b.patch 17 1).1 = false ∧ (b.patch 17 1).2 = b) ∧
      (b.patch 0xffffffffffffffff 1).1 = false ∧ (b.patch 0xffffffffffffffff 1).2 = b := by
  intro b long
  obtain ⟨-, -, -, hsucceeds, -, -, hapart⟩ := patch_lawful b lengthOffset 25
  obtain ⟨-, -, hcut, -⟩ := patch_lawful b 17 1
  obtain ⟨-, -, hlast, -⟩ := patch_lawful b 0xffffffffffffffff 1
  have hthere : (b.patch lengthOffset 25).1 := rfl
  have htotal : Apart lengthOffset totalOffset := by unfold Apart; decide
  have hcurrent : Apart lengthOffset currentOffset := by unfold Apart; decide
  obtain ⟨hread, -, hback⟩ := hsucceeds hthere
  exact ⟨hthere, htotal, hcurrent, hread, (hapart totalOffset htotal).1,
    ((hapart currentOffset hcurrent).2 2).2.2, hback, ⟨rfl, hcut rfl⟩, rfl, hlast rfl⟩

end Bytes

end Mbim
