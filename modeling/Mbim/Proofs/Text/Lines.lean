import Mbim.Message.Dump
import Mathlib.Algebra.Order.Ring.Nat
import Mathlib.Data.List.Basic

/-!
# Numerals and lines

A text of lines, each behind a margin and ended by a line feed, tells the lines apart, whatever the
margin: it is enough that no line has a line feed of its own. Numerals tell the numbers apart.

* `decimal_inj`, `hex8_inj`: decimals are those of one number, and eight hexadecimal digits those of
  one word.
* `OneLine`: a text without a line feed; `OneLine.append_iff`, `OneLine.repr`, `OneLine.hex8`.
* `lines_inj`, `Dump.lines_eq_of_render_eq`: the lines that a text is made of.
-/

namespace Mbim

/-! ## Numerals -/

/-- Two numbers with the same decimal digits are the same, since the digits can be read. -/
theorem decimal_inj {m n : Nat} (h : toString m = toString n) : m = n := by
  have hdigits : Nat.toDigits 10 m = Nat.toDigits 10 n := by
    have hchars := congrArg String.toList h
    simpa using hchars
  calc
    m = Nat.ofDigitChars 10 (Nat.toDigits 10 m) 0 := Nat.ofDigitChars_ten_toDigits.symm
    _ = Nat.ofDigitChars 10 (Nat.toDigits 10 n) 0 := by rw [hdigits]
    _ = n := Nat.ofDigitChars_ten_toDigits

theorem digitChar_inj_of_lt : ∀ a < 16, ∀ b < 16, Nat.digitChar a = Nat.digitChar b → a = b := by
  decide

/-- Two numbers with the same `k` hexadecimal digits, and no more than these, are the same. -/
theorem eq_of_hexDigits {k m n : Nat} (hm : m < 16 ^ k) (hn : n < 16 ^ k)
    (h : ∀ i < k, m / 16 ^ i % 16 = n / 16 ^ i % 16) : m = n := by
  induction k generalizing m n with
  | zero => omega
  | succ k ih =>
    rw [Nat.pow_succ] at hm hn
    have hlow : m % 16 = n % 16 := by simpa using h 0 (Nat.succ_pos k)
    have hhigh : m / 16 = n / 16 := by
      refine ih (by omega) (by omega) fun i hi => ?_
      have hdigit := h (i + 1) (by omega)
      rwa [Nat.pow_succ', ← Nat.div_div_eq_div_mul, ← Nat.div_div_eq_div_mul] at hdigit
    omega

theorem hexDigit_eq (w : UInt32) (i : Nat) : hexDigit w i = Nat.digitChar (w.toNat / 16 ^ i % 16) := by
  rw [hexDigit, Nat.shiftRight_eq_div_pow, Nat.pow_mul]

theorem hex8_inj {v w : UInt32} : hex8 v = hex8 w ↔ v = w := by
  refine ⟨fun h => ?_, congrArg hex8⟩
  have hdigits : ∀ i ∈ [7, 6, 5, 4, 3, 2, 1, 0], hexDigit v i = hexDigit w i :=
    List.map_inj_left.mp (String.ofList_inj.mp h)
  apply UInt32.toNat_inj.mp
  refine eq_of_hexDigits (k := 8) v.toNat_lt w.toNat_lt fun i hi => ?_
  have hdigit := hdigits i (by simp only [List.mem_cons]; omega)
  rw [hexDigit_eq, hexDigit_eq] at hdigit
  exact digitChar_inj_of_lt _ (Nat.mod_lt _ (by decide)) _ (Nat.mod_lt _ (by decide)) hdigit

/-! ## Texts of one line -/

/-- The text has no line feed. -/
def OneLine (s : String) : Prop := '\n' ∉ s.toList

instance (s : String) : Decidable (OneLine s) := inferInstanceAs (Decidable (¬ _))

@[simp] theorem toString_text (s : String) : toString s = s := rfl

namespace OneLine

@[simp] theorem append_iff {s t : String} : OneLine (s ++ t) ↔ OneLine s ∧ OneLine t := by
  simp [OneLine]

/-- A decimal is written in digits. -/
@[simp] theorem repr (n : Nat) : OneLine n.repr := by
  intro h
  have hdigit : '\n' ∈ Nat.toDigits 10 n := by simpa using h
  exact absurd (Nat.isDigit_of_mem_toDigits (by decide) (by decide) hdigit) (by decide)

theorem digitChar_ne : ∀ d < 16, Nat.digitChar d ≠ '\n' := by decide

@[simp] theorem hex8 (w : UInt32) : OneLine (hex8 w) := by
  intro h
  have hdigit : '\n' ∈ [7, 6, 5, 4, 3, 2, 1, 0].map (hexDigit w) := by simpa [Mbim.hex8] using h
  obtain ⟨i, -, hi⟩ := List.mem_map.mp hdigit
  exact digitChar_ne _ (Nat.mod_lt _ (by decide)) hi

end OneLine

/-! ## Texts of many lines -/

/-- Texts that are the same up to the first line feed and behind it. -/
theorem append_lineFeed_inj {l l' r r' : List Char} (hl : '\n' ∉ l) (hl' : '\n' ∉ l')
    (h : l ++ '\n' :: r = l' ++ '\n' :: r') : l = l' ∧ r = r' := by
  have hfirst := congrArg (List.idxOf '\n') h
  rw [List.idxOf_append_of_notMem hl, List.idxOf_append_of_notMem hl', List.idxOf_cons_self,
    List.idxOf_cons_self] at hfirst
  obtain ⟨rfl, hrest⟩ := List.append_inj h hfirst
  exact ⟨rfl, List.tail_eq_of_cons_eq hrest⟩

/-- Lines without line feeds of their own, each behind the same margin and ended by a line feed, are
told apart by their characters. -/
theorem lines_inj {margin : List Char} {lines lines' : List String}
    (hlines : ∀ line ∈ lines, OneLine line) (hlines' : ∀ line ∈ lines', OneLine line)
    (h : lines.flatMap (fun line => margin ++ (line.toList ++ ['\n'])) =
      lines'.flatMap fun line => margin ++ (line.toList ++ ['\n'])) : lines = lines' := by
  induction lines generalizing lines' with
  | nil =>
    cases lines' with
    | nil => rfl
    | cons line' lines' => simp at h
  | cons line lines ih =>
    cases lines' with
    | nil => simp at h
    | cons line' lines' =>
      rw [List.forall_mem_cons] at hlines hlines'
      simp only [List.flatMap_cons, List.append_assoc, List.singleton_append,
        List.append_cancel_left_eq] at h
      obtain ⟨hline, hrest⟩ := append_lineFeed_inj hlines.1 hlines'.1 h
      rw [String.toList_inj.mp hline, ih hlines.2 hlines'.2 hrest]

namespace Dump

/-- Each line stands behind the margin and is ended by a line feed. -/
theorem toList_render (margin : String) (d : Dump) :
    (d.render margin).toList =
      d.lines.flatMap fun line => margin.toList ++ (line.toList ++ ['\n']) := by
  simp [render, String.toList_join, List.flatMap_map]

/-- The lines of a text are known, if they have no line feeds of their own. -/
theorem lines_eq_of_render_eq {margin : String} {d d' : Dump} (hd : ∀ line ∈ d.lines, OneLine line)
    (hd' : ∀ line ∈ d'.lines, OneLine line) (h : d.render margin = d'.render margin) :
    d.lines = d'.lines := by
  have hchars := congrArg String.toList h
  rw [toList_render, toList_render] at hchars
  exact lines_inj hd hd' hchars

end Dump

end Mbim
