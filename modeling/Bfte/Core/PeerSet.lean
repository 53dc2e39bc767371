import Bfte.Core.Types
import Bfte.Lib.SortedVec

/-!
# Building and changing a peer set

A peer set is a vector kept in key order. Each way to build one sorts what it is given,
and nothing else. `insert` and `remove` look the key up by binary search and sort again
after a change.
-/

namespace Bfte

namespace PeerSet

/-- `PeerSet::new`. -/
def new : PeerSet := ⟨[]⟩

/-- `as_slice`. -/
def asSlice (p : PeerSet) : List PeerPubkey := p.items

/-! ## The ways to build one -/

/-- `FromIterator`. -/
def fromIter (iter : List PeerPubkey) : PeerSet := .ofList iter

/-- `From<[PeerPubkey; N]>`. -/
def fromArray {n : ℕ} (value : Vector PeerPubkey n) : PeerSet := .ofList value.toList

/-- `From<Vec<PeerPubkey>>`. -/
def fromVec (value : List PeerPubkey) : PeerSet := .ofList value

/-- Where a peer set comes from. -/
inductive Source where
  | new
  | iter (iter : List PeerPubkey)
  | array {n : ℕ} (value : Vector PeerPubkey n)
  | vec (value : List PeerPubkey)

namespace Source

/-- The keys it is built from. -/
def keys : Source → List PeerPubkey
  | .new => []
  | .iter l => l
  | .array v => v.toList
  | .vec l => l

def build : Source → PeerSet
  | .new => .new
  | .iter l => .fromIter l
  | .array v => .fromArray v
  | .vec l => .fromVec l

end Source

/-! ## The ways to change one -/

/-- `insert`, and whether the key was added. -/
def insert (p : PeerSet) (peerPubkey : PeerPubkey) : PeerSet × Bool :=
  match SortedVec.binarySearch p.items peerPubkey with
  | .ok _ => (p, false)
  | .error _ => (⟨SortedVec.sortUnstable (p.items ++ [peerPubkey])⟩, true)

/-- `remove`, and whether there was anything to remove. -/
def remove (p : PeerSet) (peerPubkey : PeerPubkey) : PeerSet × Bool :=
  match SortedVec.binarySearch p.items peerPubkey with
  | .ok index => (⟨SortedVec.sortUnstable (SortedVec.swapRemove p.items index)⟩, true)
  | .error _ => (p, false)

inductive Op where
  | insert (k : PeerPubkey)
  | remove (k : PeerPubkey)
  deriving Repr, DecidableEq

def apply (p : PeerSet) : Op → PeerSet × Bool
  | .insert k => p.insert k
  | .remove k => p.remove k

/-- One change after the other. -/
def run (p : PeerSet) (ops : List Op) : PeerSet :=
  ops.foldl (fun p op => (p.apply op).1) p

/-- The peers `consensus_init_static` starts the consensus with. -/
def ofInitStatic (pubkey : PeerPubkey) (extraPeers : List PeerPubkey) : PeerSet :=
  .fromVec ([[pubkey], extraPeers].flatten)

end PeerSet

end Bfte
