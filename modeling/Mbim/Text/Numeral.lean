/-!
# Numerals

Decimals are those of `Nat`. Codes are written as eight hexadecimal digits, so that all have one
width (`length_hex8`).
-/

namespace Mbim

/-- The hexadecimal digit of `w` with `i` digits behind it. -/
def hexDigit (w : UInt32) (i : Nat) : Char := Nat.digitChar ((w.toNat >>> (4 * i)) % 16)

/-- Eight hexadecimal digits in lower case, leading zeros kept. -/
def hex8 (w : UInt32) : String := String.ofList ([7, 6, 5, 4, 3, 2, 1, 0].map (hexDigit w))

theorem length_hex8 (w : UInt32) : (hex8 w).length = 8 := by
  simp [hex8]

end Mbim
