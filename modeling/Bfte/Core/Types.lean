import Mathlib.Data.List.Sort
import Mathlib.Data.Nat.Notation
import Bfte.Core.Outcome

/-!
# Rounds, peers and thresholds

The numbers the protocol is written in. A round is a `u64` in the source; it is
a natural number here, with `BlockRound.MAX` as the number past which the
checked successor panics. Peers are named two ways, as in the source: by their
position in the peer set of a round, and by their public key.
-/

namespace Bfte

/-! ## Rounds and timestamps -/

/-- The round a block was produced in. -/
abbrev BlockRound := ℕ

/-- `BlockRound::MAX`. -/
def BlockRound.MAX : BlockRound := 18446744073709551615

/-- `BlockRound::next_expect`. -/
def BlockRound.nextExpect {ε : Type} (r : BlockRound) : Outcome ε BlockRound :=
  if r < BlockRound.MAX then .ok (r + 1)
  else Outcome.crash "Can't run out of u64 rounds"

/-- `BlockRound::half`. -/
def BlockRound.half (r : BlockRound) : BlockRound := r / 2

@[simp] theorem BlockRound.nextExpect_eq_ok {ε : Type} {r r' : BlockRound} :
    (BlockRound.nextExpect r : Outcome ε BlockRound) = .ok r' ↔
      r < BlockRound.MAX ∧ r' = r + 1 := by
  unfold BlockRound.nextExpect
  split
  · next h => simp [h, eq_comm]
  · next h => simp [h]

@[simp] theorem BlockRound.panicked_nextExpect {ε : Type} {r : BlockRound} :
    (BlockRound.nextExpect r : Outcome ε BlockRound).Panicked ↔
      BlockRound.MAX ≤ r := by
  unfold BlockRound.nextExpect
  split
  · next h => simp [h]
  · next h => simpa using h

/-- Microseconds since the epoch. -/
abbrev Timestamp := ℕ

/-! ## Peers -/

/-- The position of a peer in the peer set of a round. -/
abbrev PeerIdx := ℕ

/-- `PeerIdx::MAX`. -/
def PeerIdx.MAX : PeerIdx := 255

/-- A public key: 32 bytes, ordered as a big-endian number. -/
abbrev PeerPubkey := ℕ

/-- The peers that vote, in key order. -/
structure PeerSet where
  items : List PeerPubkey
  deriving Repr, DecidableEq

namespace PeerSet

/-- `PeerSet::from` and `FromIterator`: sorted, nothing removed. -/
def ofList (l : List PeerPubkey) : PeerSet := ⟨l.insertionSort (· ≤ ·)⟩

/-- The number of peers. -/
def len (p : PeerSet) : ℕ := p.items.length

/-- `contains`. -/
def contains (p : PeerSet) (k : PeerPubkey) : Bool := decide (k ∈ p.items)

end PeerSet

/-! ## Thresholds -/

/-- A number of peers, a `u8` in the source. -/
structure NumPeers where
  total : ℕ
  deriving Repr, DecidableEq

namespace NumPeers

/-- How many peers may be faulty. -/
def maxFaulty (n : NumPeers) : ℕ := (n.total - 1) / 3

/-- How many peers it takes to agree. -/
def threshold (n : NumPeers) : ℕ := n.total - n.maxFaulty

theorem threshold_pos {n : NumPeers} (h : n.total ≠ 0) : 0 < n.threshold := by
  unfold threshold maxFaulty
  omega

theorem total_ne_zero {n : NumPeers} {k : ℕ} (h : k < n.threshold) :
    n.total ≠ 0 := by
  unfold threshold at h
  omega

theorem threshold_mono {n m : NumPeers} (h : n.total ≤ m.total) :
    n.threshold ≤ m.threshold := by
  unfold threshold maxFaulty
  omega

theorem maxFaulty_lt_threshold {n : NumPeers} (h : 1 ≤ n.total) :
    n.maxFaulty < n.threshold := by
  unfold threshold maxFaulty
  omega

/-- Two thresholds overlap in more peers than may be faulty. -/
theorem total_add_maxFaulty_lt {n : NumPeers} (h : 1 ≤ n.total) :
    n.total + n.maxFaulty < 2 * n.threshold := by
  unfold threshold maxFaulty
  omega

end NumPeers

/-- `to_num_peers`. -/
def toNumPeers {ε : Type} (len : ℕ) : Outcome ε NumPeers :=
  if len ≤ 255 then .ok ⟨len⟩
  else Outcome.crash "ToNumPeers used for Vec of size larger than u8"

theorem toNumPeers_of_le {ε : Type} {len : ℕ} (h : len ≤ 255) :
    (toNumPeers len : Outcome ε NumPeers) = .ok ⟨len⟩ := if_pos h

@[simp] theorem toNumPeers_eq_ok {ε : Type} {len : ℕ} {n : NumPeers} :
    (toNumPeers len : Outcome ε NumPeers) = .ok n ↔
      len ≤ 255 ∧ n = ⟨len⟩ := by
  unfold toNumPeers
  split
  · next h => simp [h, eq_comm]
  · next h => simp [h]

@[simp] theorem panicked_toNumPeers {ε : Type} {len : ℕ} :
    (toNumPeers len : Outcome ε NumPeers).Panicked ↔ 255 < len := by
  unfold toNumPeers
  split
  · next h => simp [h]
  · next h => simpa using h

end Bfte
