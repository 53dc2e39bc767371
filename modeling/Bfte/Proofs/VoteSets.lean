import Mathlib.Data.Finset.Card
import Mathlib.Data.Fintype.Basic
import Mathlib.Data.Nat.Bitwise
import Bfte.Consensus.VoteSet
import Bfte.Proofs.Tables

/-!
# Sets of peers as bits are sets of peers

A peer has the bit of its own index in the number the bytes read as: its byte is the one
with `i / 8` others after it, and its bit in there is `i % 8`. No two peers share one,
so setting, clearing and joining bits is inserting, removing and joining, and counting
bits is counting peers.
-/

namespace Bfte

namespace VoteSet

/-! ## Which bit it is -/

theorem toNat_bit (i : Fin 256) : (bit i).toNat = 2 ^ (i.val % 8) := by
  have hlt : i.val % 8 < 8 := Nat.mod_lt _ (by decide)
  have hmask : i.val &&& 0x7 = i.val % 8 := Nat.and_two_pow_sub_one_eq_mod i.val 3
  have hpow : 2 ^ (i.val % 8) < 2 ^ 8 := Nat.pow_lt_pow_right (by decide) hlt
  rw [bit, hmask, UInt8.toNat_shiftLeft,
    UInt8.toNat_ofNat_of_lt' (Nat.lt_trans hlt (by decide)), Nat.mod_eq_of_lt hlt]
  show 1 <<< (i.val % 8) % 2 ^ 8 = _
  rw [Nat.one_shiftLeft, Nat.mod_eq_of_lt hpow]

theorem testBit_bit (i : Fin 256) (k : ℕ) :
    (bit i).toNat.testBit k = decide (i.val % 8 = k) := by
  rw [toNat_bit, Nat.testBit_two_pow]

theorem contains_eq_byte (v : VoteSet) (i : Fin 256) :
    v.contains i = (v.byte i).toNat.testBit (i.val % 8) := by
  have hand : (v.byte i &&& bit i).toNat =
      ((v.byte i).toNat.testBit (i.val % 8)).toNat * 2 ^ (i.val % 8) := by
    rw [UInt8.toNat_and, toNat_bit, Nat.and_two_pow]
  have hzero : (v.byte i &&& bit i = 0) ↔ (v.byte i).toNat.testBit (i.val % 8) = false := by
    rw [← UInt8.toNat_inj, hand]
    cases (v.byte i).toNat.testBit (i.val % 8) <;> simp
  unfold contains
  cases h : (v.byte i).toNat.testBit (i.val % 8) with
  | false => rw [hzero.mpr h]; rfl
  | true => exact bne_iff_ne.mpr fun h' => by rw [hzero.mp h'] at h; cases h

theorem byteIdx_inj {i j : Fin 256} : byteIdx i = byteIdx j ↔ i.val / 8 = j.val / 8 := by
  have hi := i.isLt
  have hj := j.isLt
  rw [Fin.ext_iff]
  show 31 - (i.val >>> 3) = 31 - (j.val >>> 3) ↔ _
  rw [Nat.shiftRight_eq_div_pow, Nat.shiftRight_eq_div_pow]
  omega

/-- Two peers with the same bit in the same byte are one. -/
theorem eq_of_bit {i j : Fin 256} (hbyte : byteIdx i = byteIdx j)
    (hbit : i.val % 8 = j.val % 8) : i = j := by
  have hdiv := byteIdx_inj.mp hbyte
  exact Fin.ext (by omega)

/-! ## What a change does to it -/

theorem byte_byteMut (v : VoteSet) (i j : Fin 256) (f : UInt8 → UInt8) :
    (v.byteMut i f).byte j = if byteIdx i = byteIdx j then f (v.byte j) else v.byte j := by
  unfold byteMut byte
  simp only [Fin.getElem_fin, Vector.getElem_set, ← Fin.ext_iff]
  split
  · next h => simp only [h]
  · rfl

/-- A change to one bit of the byte of `i` is a change at `i` and nowhere else. -/
theorem contains_byteMut {v : VoteSet} {i : Fin 256} {f : UInt8 → UInt8} {g : Bool → Bool}
    (hself : ∀ b : UInt8, (f b).toNat.testBit (i.val % 8) = g (b.toNat.testBit (i.val % 8)))
    (hother : ∀ (b : UInt8) (k : ℕ), k < 8 → i.val % 8 ≠ k →
      (f b).toNat.testBit k = b.toNat.testBit k) (j : Fin 256) :
    (v.byteMut i f).contains j = if i = j then g (v.contains j) else v.contains j := by
  rw [contains_eq_byte, contains_eq_byte, byte_byteMut]
  by_cases hij : i = j
  · rw [if_pos hij, if_pos (congrArg byteIdx hij), ← hij]
    exact hself _
  · rw [if_neg hij]
    by_cases hbyte : byteIdx i = byteIdx j
    · rw [if_pos hbyte]
      exact hother _ _ (Nat.mod_lt _ (by decide)) fun hbit => hij (eq_of_bit hbyte hbit)
    · rw [if_neg hbyte]

theorem contains_insert (v : VoteSet) (i j : Fin 256) :
    (v.insert i).contains j = if i = j then true else v.contains j := by
  refine contains_byteMut (g := fun _ => true) (fun b => ?_) (fun b k _ hk => ?_) j
  · rw [UInt8.toNat_or, Nat.testBit_or, testBit_bit, decide_eq_true rfl, Bool.or_true]
  · rw [UInt8.toNat_or, Nat.testBit_or, testBit_bit, decide_eq_false hk, Bool.or_false]

theorem testBit_not (b : UInt8) {k : ℕ} (hk : k < 8) :
    (~~~b).toNat.testBit k = !b.toNat.testBit k := by
  show (~~~b).toBitVec.getLsbD k = !b.toBitVec.getLsbD k
  rw [UInt8.toBitVec_not, BitVec.getLsbD_not, decide_eq_true hk, Bool.true_and]

theorem contains_remove (v : VoteSet) (i j : Fin 256) :
    (v.remove i).contains j = if i = j then false else v.contains j := by
  refine contains_byteMut (g := fun _ => false) (fun b => ?_) (fun b k hlt hk => ?_) j
  · rw [UInt8.toNat_and, Nat.testBit_and, testBit_not _ (Nat.mod_lt _ (by decide)),
      testBit_bit, decide_eq_true rfl, Bool.not_true, Bool.and_false]
  · rw [UInt8.toNat_and, Nat.testBit_and, testBit_not _ hlt, testBit_bit,
      decide_eq_false hk, Bool.not_false, Bool.and_true]

theorem contains_bitor (v w : VoteSet) (i : Fin 256) :
    (v.bitor w).contains i = (v.contains i || w.contains i) := by
  have hbyte : (v.bitor w).byte i = v.byte i ||| w.byte i := by
    unfold bitor byte
    simp only [Fin.getElem_fin, Vector.getElem_zipWith]
  rw [contains_eq_byte, contains_eq_byte, contains_eq_byte, hbyte, UInt8.toNat_or,
    Nat.testBit_or]

theorem contains_zero (i : Fin 256) : ZERO.contains i = false := by
  have hbyte : ZERO.byte i = 0 := by
    unfold ZERO byte
    simp only [Fin.getElem_fin, Vector.getElem_replicate]
  rw [contains_eq_byte, hbyte]
  exact Nat.zero_testBit _

/-! ## The bytes as one number -/

/-- Peer `i` has bit `i`. -/
theorem contains_eq_testBit (v : VoteSet) (i : Fin 256) :
    v.contains i = v.toNat.testBit i.val := by
  rw [contains_eq_byte]
  refine (BigEndian.testBit_ofBytes (by simp) ?_).symm
  have hidx : v.bytes.toList.length - 1 - i.val / 8 = (byteIdx i).val := by
    rw [Vector.length_toList]
    show _ = 31 - (i.val >>> 3)
    rw [Nat.shiftRight_eq_div_pow]
  rw [hidx, List.getElem?_eq_getElem (by simp)]
  simp [byte]

theorem testBit_toNat_eq_false (v : VoteSet) {n : ℕ} (h : 256 ≤ n) :
    v.toNat.testBit n = false :=
  BigEndian.testBit_ofBytes_eq_false (by simpa using h)

/-- Nothing is in the bytes but who is in the set. -/
theorem ext_contains {v w : VoteSet} (h : ∀ i, v.contains i = w.contains i) :
    v.bytes = w.bytes := by
  have hnum : v.toNat = w.toNat := by
    refine Nat.eq_of_testBit_eq fun n => ?_
    by_cases hn : n < 256
    · have hi := h ⟨n, hn⟩
      rwa [contains_eq_testBit, contains_eq_testBit] at hi
    · rw [testBit_toNat_eq_false v (Nat.le_of_not_lt hn),
        testBit_toNat_eq_false w (Nat.le_of_not_lt hn)]
  exact Vector.toList_inj.mp (BigEndian.ofBytes_injective (by simp) hnum)

/-! ## The set -/

/-- The peers in it. -/
def Represents (v : VoteSet) (s : Finset (Fin 256)) : Prop :=
  ∀ i, v.contains i = true ↔ i ∈ s

section

variable {v w : VoteSet} {s t : Finset (Fin 256)}

theorem represents_zero : ZERO.Represents ∅ := fun i => by
  rw [contains_zero]
  exact iff_of_false Bool.false_ne_true (Finset.notMem_empty i)

theorem Represents.insert (h : v.Represents s) (i : Fin 256) :
    (v.insert i).Represents (Insert.insert i s) := fun j => by
  rw [contains_insert, Finset.mem_insert, ← h j]
  by_cases hij : i = j
  · rw [if_pos hij]
    exact iff_of_true rfl (Or.inl hij.symm)
  · rw [if_neg hij]
    exact (or_iff_right fun hji => hij hji.symm).symm

theorem Represents.remove (h : v.Represents s) (i : Fin 256) :
    (v.remove i).Represents (s.erase i) := fun j => by
  rw [contains_remove, Finset.mem_erase, ← h j]
  by_cases hij : i = j
  · rw [if_pos hij]
    exact iff_of_false Bool.false_ne_true fun h => h.1 hij.symm
  · rw [if_neg hij]
    exact (and_iff_right fun hji => hij hji.symm).symm

theorem Represents.bitor (h : v.Represents s) (h' : w.Represents t) :
    (v.bitor w).Represents (s ∪ t) := fun i => by
  rw [contains_bitor, Bool.or_eq_true, Finset.mem_union, h i, h' i]

theorem Represents.testBit (h : v.Represents s) (n : ℕ) :
    v.toNat.testBit n = true ↔ ∃ i ∈ s, i.val = n := by
  constructor
  · intro hbit
    by_cases hn : n < 256
    · refine ⟨⟨n, hn⟩, (h _).mp ?_, rfl⟩
      rw [contains_eq_testBit]
      exact hbit
    · rw [testBit_toNat_eq_false v (Nat.le_of_not_lt hn)] at hbit
      cases hbit
  · rintro ⟨i, hi, rfl⟩
    rw [← contains_eq_testBit]
    exact (h i).mpr hi

/-- The bits that are set are as many as the peers. -/
theorem Represents.len (h : v.Represents s) : v.len = s.card := by
  have hsum : v.len = (v.bytes.toList.map BigEndian.countOnes).sum := by
    rw [List.sum_eq_foldl, List.foldl_map]
    rfl
  have hcount : v.len = ((List.range 256).filter v.toNat.testBit).length := by
    rw [hsum, BigEndian.sum_countOnes, Vector.length_toList, List.countP_eq_length_filter]
    rfl
  have hset : s.map Fin.valEmbedding =
      ((List.range 256).filter v.toNat.testBit).toFinset := by
    ext n
    rw [Finset.mem_map, List.mem_toFinset, List.mem_filter, List.mem_range, h.testBit n]
    constructor
    · rintro ⟨i, hi, rfl⟩
      exact ⟨i.isLt, i, hi, rfl⟩
    · rintro ⟨-, i, hi, rfl⟩
      exact ⟨i, hi, rfl⟩
  rw [hcount, ← List.toFinset_card_of_nodup (List.nodup_range.filter _), ← hset,
    Finset.card_map]

theorem Represents.isEmpty (h : v.Represents s) : v.isEmpty = true ↔ s = ∅ := by
  rw [VoteSet.isEmpty, beq_iff_eq, h.len, Finset.card_eq_zero]

theorem Represents.bytes_eq (h : v.Represents s) (h' : w.Represents s) :
    v.bytes = w.bytes :=
  ext_contains fun i => Bool.eq_iff_iff.mpr ((h i).trans (h' i).symm)

end

/-! ## However it is made -/

/-- The set that is made. -/
def Expr.set : Expr → Finset (Fin 256)
  | .zero => ∅
  | .insert e i => Insert.insert i e.set
  | .remove e i => e.set.erase i
  | .bitor e f => e.set ∪ f.set

theorem Expr.represents (e : Expr) : e.eval.Represents e.set := by
  induction e with
  | zero => exact represents_zero
  | insert e i ih => exact ih.insert i
  | remove e i ih => exact ih.remove i
  | bitor e f ihe ihf => exact ihe.bitor ihf

/-- Whatever way a vote set is made, it is the set that is made the same way: in what it
contains, in its length, in being empty, in its bytes, and read as a number. -/
theorem eval_isSet (e : Expr) :
    (∀ i, e.eval.contains i = true ↔ i ∈ e.set) ∧
    e.eval.len = e.set.card ∧
    (e.eval.isEmpty = true ↔ e.set = ∅) ∧
    (∀ f : Expr, e.set = f.set → e.eval.bytes = f.eval.bytes) ∧
    (∀ n, (BigEndian.ofBytes e.eval.bytes.toList).testBit n = true ↔
      ∃ i ∈ e.set, i.val = n) := by
  have h := e.represents
  refine ⟨h, h.len, h.isEmpty, fun f hset => ?_, h.testBit⟩
  exact h.bytes_eq (hset ▸ f.represents)

end VoteSet

/-! ## Who has voted in a round -/

namespace Db

variable {D S : Type} [LinearOrder D]

theorem represents_foldl {V : Type} (l : List (PeerIdx × V)) {v : VoteSet}
    {s : Finset (Fin 256)} (h : v.Represents s) :
    (l.foldl (fun v e => v.insert (voteIdx e)) v).Represents
      (s ∪ (l.map voteIdx).toFinset) := by
  induction l generalizing v s with
  | nil => simpa using h
  | cons e l ih =>
      have hstep := ih (h.insert (voteIdx e))
      rw [List.map_cons, List.toFinset_cons]
      rwa [Finset.insert_union, ← Finset.union_insert] at hstep

theorem represents_peersWithVotes {V : Type} (t : SortedTable VoteKey V)
    (round : BlockRound) :
    (peersWithVotes t round).Represents
      ((votesAt t round).map voteIdx).toFinset := by
  have h := represents_foldl (votesAt t round) VoteSet.represents_zero
  rwa [Finset.empty_union] at h

/-- A peer is in the vote set of a round just when the table has its vote. -/
theorem contains_peersWithVotes {V : Type} {t : SortedTable VoteKey V}
    {round : BlockRound} {i : Fin 256} :
    (peersWithVotes t round).contains i = true ↔
      (t.get? (voteKey round i.val)).isSome := by
  rw [represents_peersWithVotes t round i, List.mem_toFinset, List.mem_map,
    Option.isSome_iff_exists]
  constructor
  · rintro ⟨e, he, hi⟩
    obtain ⟨hget, hle⟩ := mem_votesAt.mp he
    have hval : e.1 = i.val := by
      rw [← hi]
      exact (Nat.mod_eq_of_lt (Nat.lt_succ_of_le hle)).symm
    exact ⟨e.2, hval ▸ hget⟩
  · rintro ⟨w, hw⟩
    exact ⟨(i.val, w), mem_votesAt.mpr ⟨hw, Nat.le_of_lt_succ i.isLt⟩,
      Fin.ext (Nat.mod_eq_of_lt i.isLt)⟩

/-- It has as many peers as the source counts votes. -/
theorem len_peersWithVotes {V : Type} (t : SortedTable VoteKey V) (round : BlockRound) :
    (peersWithVotes t round).len = (votesAt t round).length := by
  have hlt : ∀ e ∈ votesAt t round, e.1 % 256 = e.1 := fun e he =>
    Nat.mod_eq_of_lt (Nat.lt_succ_of_le (mem_votesAt.mp he).2)
  have hnodup : ((votesAt t round).map voteIdx).Nodup := by
    refine List.Nodup.map_on (fun e he f hf hef => ?_) (votesAt_nodup t round).of_map
    have hval : e.1 = f.1 := by
      rw [← hlt e he, ← hlt f hf]
      exact congrArg Fin.val hef
    exact List.inj_on_of_nodup_map (votesAt_nodup t round) he hf hval
  rw [(represents_peersWithVotes t round).len, List.toFinset_card_of_nodup hnodup,
    List.length_map]

/-- The vote sets of a round are as large as the counts the round check goes by. -/
theorem len_getPeersWithVotes (db : Db D S) (round : BlockRound) :
    (db.getPeersWithDummyVotes round).len = db.getNumVotesDummy round ∧
      (db.getPeersWithProposalVotes round).len = db.getNumVotesProposal round :=
  ⟨len_peersWithVotes _ _, len_peersWithVotes _ _⟩

end Db

end Bfte
