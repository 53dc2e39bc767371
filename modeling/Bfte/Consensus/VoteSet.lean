import Mathlib.Data.Nat.Notation
import Bfte.Lib.BigEndian
import Bfte.Consensus.Ctx

/-!
# Sets of peers as bits

A set of peer indices is 32 bytes with a bit for each index. The bytes are counted from
the last one, so that read as a big-endian number they have bit `i` set for peer `i`.
-/

namespace Bfte

/-- `VoteSet`: a bit for each `u8`. -/
structure VoteSet where
  bytes : Vector UInt8 32
  deriving Repr, DecidableEq

namespace VoteSet

/-- `VoteSet::ZERO`, the default. -/
def ZERO : VoteSet := ⟨Vector.replicate 32 0⟩

/-- Where the byte of a peer is. -/
def byteIdx (peerIdx : Fin 256) : Fin 32 :=
  ⟨31 - (peerIdx.val >>> 3), Nat.lt_of_le_of_lt (Nat.sub_le _ _) (by decide)⟩

/-- `byte`. -/
def byte (v : VoteSet) (peerIdx : Fin 256) : UInt8 := v.bytes[byteIdx peerIdx]

/-- `byte_mut`, with what is done to the byte. -/
def byteMut (v : VoteSet) (peerIdx : Fin 256) (f : UInt8 → UInt8) : VoteSet :=
  ⟨v.bytes.set (byteIdx peerIdx) (f (v.byte peerIdx))⟩

/-- `bit`. -/
def bit (peerIdx : Fin 256) : UInt8 := 1 <<< UInt8.ofNat (peerIdx.val &&& 0x7)

/-- `insert`. -/
def insert (v : VoteSet) (peerIdx : Fin 256) : VoteSet :=
  v.byteMut peerIdx fun b => b ||| bit peerIdx

/-- `remove`. -/
def remove (v : VoteSet) (peerIdx : Fin 256) : VoteSet :=
  v.byteMut peerIdx fun b => b &&& ~~~bit peerIdx

/-- `contains`. -/
def contains (v : VoteSet) (peerIdx : Fin 256) : Bool :=
  v.byte peerIdx &&& bit peerIdx != 0

/-- `bitor`: every byte of one with the same byte of the other. -/
def bitor (v w : VoteSet) : VoteSet := ⟨Vector.zipWith (· ||| ·) v.bytes w.bytes⟩

/-- `len`. -/
def len (v : VoteSet) : ℕ :=
  v.bytes.toList.foldl (fun acc b => acc + BigEndian.countOnes b) 0

/-- `is_empty`. -/
def isEmpty (v : VoteSet) : Bool := v.len == 0

/-- The bytes as one number. -/
def toNat (v : VoteSet) : ℕ := BigEndian.ofBytes v.bytes.toList

/-! ## What is built from these -/

/-- A way to make a vote set. -/
inductive Expr where
  | zero
  | insert (e : Expr) (i : Fin 256)
  | remove (e : Expr) (i : Fin 256)
  | bitor (e f : Expr)

def Expr.eval : Expr → VoteSet
  | .zero => ZERO
  | .insert e i => e.eval.insert i
  | .remove e i => e.eval.remove i
  | .bitor e f => e.eval.bitor f.eval

end VoteSet

/-! ## Who has voted in a round -/

namespace Db

variable {D S : Type} [LinearOrder D]

/-- The index of a vote in the table, which is a `u8`. -/
def voteIdx {V : Type} (e : PeerIdx × V) : Fin 256 := ⟨e.1 % 256, Nat.mod_lt _ (by decide)⟩

/-- The keys of a range scan, put in a vote set one by one. -/
def peersWithVotes {V : Type} (t : SortedTable VoteKey V) (round : BlockRound) : VoteSet :=
  (votesAt t round).foldl (fun v e => v.insert (voteIdx e)) VoteSet.ZERO

/-- `get_peers_with_proposal_votes`. -/
def getPeersWithProposalVotes (db : Db D S) (round : BlockRound) : VoteSet :=
  peersWithVotes db.consVotesBlock round

/-- `get_peers_with_dummy_votes`. -/
def getPeersWithDummyVotes (db : Db D S) (round : BlockRound) : VoteSet :=
  peersWithVotes db.consVotesDummy round

end Db

end Bfte
