import Mbim.Wire.Position

/-!
# Buffers

Fields are also written into bytes that are kept, over what stands there or at the end.

* `Bytes.patch`: overwrite a word in place. Bytes that do not hold all of it stay as they are.
* `Bytes.put`, `Header.put`, `Position.put`: write at the end, word by word.
-/

namespace Mbim

/-- Overwrite the word at offset `o` in place: whether it is there, and the bytes afterwards. -/
def Bytes.patch (b : Bytes) (o : Nat) (w : UInt32) : Bool × Bytes :=
  match b.setWord? o w with
  | some patched => (true, patched)
  | none => (false, b)

/-- Write a word at the end. -/
def Bytes.put (b : Bytes) (w : UInt32) : Bytes := b ++ wordBytes w

/-- Write a header at the end. -/
def Header.put (h : Header) (b : Bytes) : Bytes :=
  ((b.put h.kind.code).put h.length).put h.transaction

/-- Write a position at the end. -/
def Position.put (p : Position) (b : Bytes) : Bytes := (b.put p.total).put p.current

end Mbim
