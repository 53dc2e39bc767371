import Mathlib.Logic.Basic
import Bfte.Lib.Bincode
import Bfte.Lib.BigEndian

/-!
# Decoding `bincode`

The decoder of `bincode` 2 for the same encoding: big-endian, variable-length integers,
and a limit on what may be claimed. It claims the size in memory of everything it is
about to read. For a list it claims all items first, to know that it may reserve the
memory, and gives each one back before it reads it.

A length or tag needs not be in its shortest form. The decoder takes whatever tag it
finds, as long as the number is no wider than what it is read into.
-/

namespace Bincode

inductive DecodeError where
  | unexpectedEnd
  | limitExceeded
  | invalidIntegerType
  | unexpectedVariant
  | other (msg : String)
  deriving Repr, DecidableEq

/-- What is left to read, and what of the limit is left to claim. -/
@[ext]
structure Input where
  bytes : List UInt8
  budget : ℕ
  deriving Repr, DecidableEq

abbrev Decoder (α : Type) := StateT Input (Except DecodeError) α

/-! ## The decoder -/

/-- `claim_bytes_read`. -/
def claim (n : ℕ) : Decoder Unit := fun s =>
  if n ≤ s.budget then .ok ((), { s with budget := s.budget - n })
  else .error .limitExceeded

/-- `unclaim_bytes_read`. -/
def unclaim (n : ℕ) : Decoder Unit := fun s =>
  .ok ((), { s with budget := s.budget + n })

/-- `Reader::read`. -/
def read (n : ℕ) : Decoder (Vector UInt8 n) := fun s =>
  if h : (s.bytes.take n).length = n then
    .ok (⟨(s.bytes.take n).toArray, h⟩, { s with bytes := s.bytes.drop n })
  else .error .unexpectedEnd

/-- `u8::decode`. -/
def decodeU8 : Decoder UInt8 := do
  claim 1
  let b ← read 1
  return b[0]

/-- An array of bytes is in the input as it is. -/
def decodeArray (n : ℕ) : Decoder (Vector UInt8 n) := do
  claim n
  read n

/-- The bytes that follow a tag. -/
def readBigEndian (n : ℕ) : Decoder ℕ := do
  let bs ← read n
  return BigEndian.ofBytes bs.toList

/-- The number of a tag: the tag itself, or in the bytes that follow. -/
def decodeAfterTag (width : ℕ) (tag : UInt8) : Decoder ℕ :=
  if tag < 251 then return tag.toNat
  else if tag = 251 ∧ 2 ≤ width then readBigEndian 2
  else if tag = 252 ∧ 4 ≤ width then readBigEndian 4
  else if tag = 253 ∧ 8 ≤ width then readBigEndian 8
  else throw .invalidIntegerType

/-- `varint_decode_u16`, `varint_decode_u32` or `varint_decode_u64`, by their width. -/
def decodeVarint (width : ℕ) : Decoder ℕ := do
  claim width
  let tag ← read 1
  decodeAfterTag width tag[0]

/-- `u32::decode`. -/
def decodeU32 : Decoder UInt32 := UInt32.ofNat <$> decodeVarint 4

variable {α β : Type}

/-- Two fields in order. -/
def decodePair (first : Decoder α) (second : Decoder β) : Decoder (α × β) := do
  let a ← first
  let b ← second
  return (a, b)

/-- `Option::decode`. -/
def decodeOption (decode : Decoder α) : Decoder (Option α) := do
  let tag ← decodeU8
  if tag = 0 then return none
  else if tag = 1 then some <$> decode
  else throw .unexpectedVariant

/-- The items of a list, each after what was claimed for it is given back. -/
def decodeItems (size : ℕ) (decode : Decoder α) : ℕ → Decoder (List α)
  | 0 => return []
  | n + 1 => do
      unclaim size
      let a ← decode
      let l ← decodeItems size decode n
      return a :: l

/-- `Vec::decode` for items of a size in memory. -/
def decodeVec (size : ℕ) (decode : Decoder α) : Decoder (List α) := do
  let len ← decodeVarint 8
  claim (len * size)
  decodeItems size decode len

/-- `Vec::decode` for bytes. -/
def decodeBytes : Decoder (List UInt8) := do
  let len ← decodeVarint 8
  claim len
  let bs ← read len
  return bs.toList

/-- The decoder of a type with two variants. -/
def decodeVariant (first : Decoder α) (second : Decoder β) : Decoder (α ⊕ β) := do
  let tag ← decodeVarint 4
  if tag = 0 then .inl <$> first
  else if tag = 1 then .inr <$> second
  else throw .unexpectedVariant

/-- `decode_from_slice`: what is decoded, and how much was read for it. -/
def decodeFromSlice (limit : ℕ) (decode : Decoder α) (src : List UInt8) :
    Except DecodeError (α × ℕ) :=
  match decode ⟨src, limit⟩ with
  | .ok (a, rest) => .ok (a, src.length - rest.bytes.length)
  | .error e => .error e

end Bincode
