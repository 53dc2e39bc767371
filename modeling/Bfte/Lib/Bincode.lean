import Mathlib.Algebra.Group.Nat.Defs

/-!
# Lengths and lists in `bincode`

The variable-length integers of `bincode` 2 in the order big-endian: a number below 251
is a byte, a greater one is a tag and as many bytes as the tag says. A list is its
length, followed by its items.
-/

namespace Bincode

/-- The low bytes of a number, the high ones of them first. -/
def bigEndian : ℕ → ℕ → List UInt8
  | 0, _ => []
  | width + 1, n => UInt8.ofNat (n / 256 ^ width) :: bigEndian width n

/-- `varint_encode_u64`. -/
def encodeVarint (n : ℕ) : List UInt8 :=
  if n < 251 then [UInt8.ofNat n]
  else if n < 2 ^ 16 then 251 :: bigEndian 2 n
  else if n < 2 ^ 32 then 252 :: bigEndian 4 n
  else 253 :: bigEndian 8 n

variable {α : Type}

/-- `encode_slice_len`, and then the items. -/
def encodeSlice (encode : α → List UInt8) (l : List α) : List UInt8 :=
  encodeVarint l.length ++ l.flatMap encode

/-- A slice of bytes is its length and the bytes. -/
def encodeBytes (bytes : List UInt8) : List UInt8 := encodeVarint bytes.length ++ bytes

theorem encodeVarint_ne_nil (n : ℕ) : encodeVarint n ≠ [] := by
  unfold encodeVarint
  split
  · exact List.cons_ne_nil _ _
  · split
    · exact List.cons_ne_nil _ _
    · split <;> exact List.cons_ne_nil _ _

/-- There is no list that takes no bytes, not even the empty one. -/
theorem encodeSlice_ne_nil (encode : α → List UInt8) (l : List α) :
    encodeSlice encode l ≠ [] := by
  intro h
  exact encodeVarint_ne_nil _ (List.append_eq_nil_iff.mp h).1

end Bincode
