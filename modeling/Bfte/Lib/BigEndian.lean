import Mathlib.Algebra.GroupWithZero.Nat
import Mathlib.Data.List.Basic

/-!
# Bytes as one number

A row of bytes is read as one number, the first byte the highest. Bit `i` of the number
is bit `i % 8` of the byte that has `i / 8` others after it, so a number of bits set in
the bytes is a number of bits set in the number.
-/

namespace BigEndian

/-- `from_be_bytes`. -/
def ofBytes : List UInt8 → ℕ
  | [] => 0
  | b :: bs => 256 ^ bs.length * b.toNat + ofBytes bs

theorem ofBytes_lt (bs : List UInt8) : ofBytes bs < 256 ^ bs.length := by
  induction bs with
  | nil => exact Nat.one_pos
  | cons b bs ih =>
      have hb : b.toNat + 1 ≤ 256 := b.toNat_lt
      calc ofBytes (b :: bs) < 256 ^ bs.length * b.toNat + 256 ^ bs.length :=
            Nat.add_lt_add_left ih _
        _ = 256 ^ bs.length * (b.toNat + 1) := (Nat.mul_succ _ _).symm
        _ ≤ 256 ^ bs.length * 256 := Nat.mul_le_mul_left _ hb
        _ = 256 ^ (b :: bs).length := (pow_succ 256 bs.length).symm

/-! ## Bits -/

/-- The first byte has the highest bits. -/
theorem testBit_ofBytes_cons (b : UInt8) (bs : List UInt8) (i : ℕ) :
    (ofBytes (b :: bs)).testBit i =
      if i < 8 * bs.length then (ofBytes bs).testBit i
      else b.toNat.testBit (i - 8 * bs.length) := by
  have hpow : 256 ^ bs.length = 2 ^ (8 * bs.length) := by rw [Nat.pow_mul]
  have hlt := ofBytes_lt bs
  rw [hpow] at hlt
  rw [ofBytes, hpow]
  exact Nat.testBit_two_pow_mul_add _ hlt i

/-- Where a bit of the number is among the bytes. -/
theorem testBit_ofBytes {bs : List UInt8} {i : ℕ} {b : UInt8} (hi : i < 8 * bs.length)
    (hb : bs[bs.length - 1 - i / 8]? = some b) :
    (ofBytes bs).testBit i = b.toNat.testBit (i % 8) := by
  induction bs with
  | nil => cases hb
  | cons c bs ih =>
      rw [List.length_cons] at hi hb
      rw [testBit_ofBytes_cons]
      by_cases hlow : i < 8 * bs.length
      · rw [if_pos hlow]
        have hpos : bs.length + 1 - 1 - i / 8 = bs.length - 1 - i / 8 + 1 := by omega
        rw [hpos, List.getElem?_cons_succ] at hb
        exact ih hlow hb
      · rw [if_neg hlow]
        have hpos : bs.length + 1 - 1 - i / 8 = 0 := by omega
        rw [hpos, List.getElem?_cons_zero] at hb
        cases hb
        have hbit : i - 8 * bs.length = i % 8 := by omega
        rw [hbit]

theorem testBit_ofBytes_eq_false {bs : List UInt8} {i : ℕ} (h : 8 * bs.length ≤ i) :
    (ofBytes bs).testBit i = false := by
  refine Nat.testBit_lt_two_pow (Nat.lt_of_lt_of_le (ofBytes_lt bs) ?_)
  have hpow : 256 ^ bs.length = 2 ^ (8 * bs.length) := by rw [Nat.pow_mul]
  rw [hpow]
  exact Nat.pow_le_pow_right (by omega) h

/-- Rows of bytes of one length that read as the same number are the same. -/
theorem ofBytes_injective {bs cs : List UInt8} (hlen : bs.length = cs.length)
    (h : ofBytes bs = ofBytes cs) : bs = cs := by
  induction bs generalizing cs with
  | nil => exact (List.length_eq_zero_iff.mp hlen.symm).symm
  | cons b bs ih =>
      cases cs with
      | nil => cases hlen
      | cons c cs =>
          have hlen' : bs.length = cs.length := Nat.succ.inj hlen
          rw [ofBytes, ofBytes, hlen'] at h
          have hb := ofBytes_lt bs
          have hc := ofBytes_lt cs
          rw [hlen'] at hb
          have hpos : 0 < 256 ^ cs.length := Nat.lt_of_le_of_lt (Nat.zero_le _) hc
          have hdiv := congrArg (· / 256 ^ cs.length) h
          have hmod := congrArg (· % 256 ^ cs.length) h
          simp only [Nat.mul_add_div hpos, Nat.mul_add_mod, Nat.div_eq_of_lt hb,
            Nat.div_eq_of_lt hc, Nat.mod_eq_of_lt hb, Nat.mod_eq_of_lt hc] at hdiv hmod
          rw [UInt8.toNat_inj.mp hdiv, ih hlen' hmod]

/-! ## How many bits are set -/

/-- `u8::count_ones`. -/
def countOnes (b : UInt8) : ℕ := (List.range 8).countP b.toNat.testBit

/-- The bits set in the bytes, one byte after the other, are the bits set in the
number. -/
theorem sum_countOnes (bs : List UInt8) :
    (bs.map countOnes).sum = (List.range (8 * bs.length)).countP (ofBytes bs).testBit := by
  induction bs with
  | nil => rfl
  | cons b bs ih =>
      have hlow : (List.range (8 * bs.length)).countP (ofBytes (b :: bs)).testBit =
          (List.range (8 * bs.length)).countP (ofBytes bs).testBit := by
        refine List.countP_congr fun i hi => ?_
        rw [testBit_ofBytes_cons, if_pos (List.mem_range.mp hi)]
      have hhigh : ((List.range 8).map (8 * bs.length + ·)).countP
          (ofBytes (b :: bs)).testBit = countOnes b := by
        rw [List.countP_map]
        refine List.countP_congr fun i _ => ?_
        show (ofBytes (b :: bs)).testBit (8 * bs.length + i) = true ↔ _
        rw [testBit_ofBytes_cons, if_neg (by omega), Nat.add_sub_cancel_left]
      rw [List.map_cons, List.sum_cons, ih, List.length_cons, Nat.mul_succ, List.range_add,
        List.countP_append, hlow, hhigh, Nat.add_comm]

end BigEndian
