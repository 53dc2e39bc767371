import Mathlib.Logic.Function.Basic
import Bfte.Db.Random
import Bfte.Lib.Guarded
import Bfte.Node.Rpc

/-!
# The gossip of addresses

Each node signs its own address when it starts, and hands on what it knows of others: every
few seconds it pushes an update picked at random to a peer picked at random, and it pulls
the updates it needs. It needs the address of a peer that it could not connect to.

Nodes are connected by their iroh node ids, which are public keys, so whoever answers at an
address has its secret. Messages may be late or lost, and anyone may send any.
-/

namespace Bfte

/-- An update is signed with the seckey of a peer, named here by its pubkey. -/
class AddressSigner (S : Type) extends AddressSigning S where
  sign : PeerPubkey → AddressUpdate → S

/-- Own signatures verify. -/
class LawfulAddressSigner (S : Type) [AddressSigner S] : Prop where
  verify_sign : ∀ (k : PeerPubkey) (update : AddressUpdate),
    AddressSigning.verify k (AddressSigner.sign k update : S) update = true

/-- What is random about picking one entry. -/
structure Draw where
  pivot : PeerPubkey
  coin : Bool
  deriving Repr, DecidableEq

/-! ## One node -/

namespace AddressDb

variable {S : Type}

/-- `get_peer_iroh_addr`. A `NodeId` is a key, not just any bytes. -/
def getPeerIrohAddr (nodeId : IrohAddress → Bool) (db : AddressDb S)
    (peerPubkey : PeerPubkey) : Option IrohAddress × AddressDb S :=
  match db.getPeerAddr peerPubkey with
  | (none, db) => (none, db)
  | (some update, db) =>
      match update.inner.addr with
      | .iroh addr => if nodeId addr = true then (some addr, db) else (none, db)

/-- `mark_peer_addr_as_needed`. -/
def markPeerAddrAsNeeded (own : Option PeerPubkey) (db : AddressDb S)
    (peerPubkey : PeerPubkey) : AddressDb S :=
  if own = some peerPubkey then db
  else { db with weNeed := db.weNeed.insert peerPubkey () }

/-- `connect`: who the connection is to, if there is one. `up` says that the other side can
be reached, or has been before. -/
def connect (nodeId : IrohAddress → Bool) (own : Option PeerPubkey) (db : AddressDb S)
    (peerPubkey : PeerPubkey) (up : Bool) : Option IrohAddress × AddressDb S :=
  match db.getPeerIrohAddr nodeId peerPubkey with
  | (none, db) => (none, db)
  | (some addr, db) =>
      if up then (some addr, db) else (none, db.markPeerAddrAsNeeded own peerPubkey)

/-- `pick_push_gossip_pair`. -/
def pickPushGossipPair (db : AddressDb S) (d₁ d₂ : Draw) :
    Option (PeerPubkey × SignedAddressUpdate S) := do
  let (peerPubkey, _) ← getRandom db.peerAddresses d₁.pivot d₁.coin
  let (_, update) ← getRandom db.peerAddresses d₂.pivot d₂.coin
  return (peerPubkey, update)

/-- `pick_pull_need_gossip_pair`. What is needed is struck off, whatever comes of it. -/
def pickPullNeedGossipPair (db : AddressDb S) (d₁ d₂ : Draw) :
    Option (PeerPubkey × PeerPubkey) × AddressDb S :=
  match getRandom db.weNeed d₁.pivot d₁.coin with
  | none => (none, db)
  | some (toRefresh, _) =>
      let db := { db with weNeed := db.weNeed.remove toRefresh }
      match getRandom db.peerAddresses d₂.pivot d₂.coin with
      | none => (none, db)
      | some (toQuery, _) => (some (toRefresh, toQuery), db)

/-- One turn of `run_push_gossip`: which update is pushed to where. -/
def pushGossip (nodeId : IrohAddress → Bool) (own : Option PeerPubkey) (db : AddressDb S)
    (d₁ d₂ : Draw) (up : Bool) :
    Option (IrohAddress × SignedAddressUpdate S) × AddressDb S :=
  match db.pickPushGossipPair d₁ d₂ with
  | none => (none, db)
  | some (peerPubkey, update) =>
      -- neither to itself nor to the peer the update is about
      if some peerPubkey = own ∨ peerPubkey = update.inner.peerPubkey then (none, db)
      else
        let (addr, db) := db.connect nodeId own peerPubkey up
        (addr.map fun addr => (addr, update), db)

/-- One turn of `run_pull_gossip`: whom it asks for whose address. -/
def pullGossip (nodeId : IrohAddress → Bool) (own : Option PeerPubkey) (db : AddressDb S)
    (d₁ d₂ : Draw) (up : Bool) : Option (IrohAddress × PeerPubkey) × AddressDb S :=
  match db.pickPullNeedGossipPair d₁ d₂ with
  | (none, db) => (none, db)
  | (some (toRefresh, toQuery), db) =>
      if some toQuery = own then (none, db)
      else
        let (addr, db) := db.connect nodeId own toQuery up
        (addr.map fun addr => (addr, toRefresh), db)

variable [AddressSigning S]

/-- What `query_peer_address` does with an answer. `get_peer_address` has made the check of
the signature before, which is made again. -/
def takeAnswer (db : AddressDb S) (peerPubkey : PeerPubkey)
    (update : SignedAddressUpdate S) : AddressDb S :=
  if update.inner.peerPubkey = peerPubkey then (db.handleAddressUpdate update).2 else db

end AddressDb

/-- `get_own_address_update`. -/
def getOwnAddressUpdate {S : Type} [AddressSigner S] (own : Option PeerPubkey)
    (now : Timestamp) (addr : IrohAddress) : Option (SignedAddressUpdate S) :=
  own.map fun k =>
    let update : AddressUpdate := ⟨now, k, .iroh addr⟩
    ⟨update, AddressSigner.sign k update⟩

/-! ## All correct nodes -/

/-- The correct nodes, with the keys and the iroh node ids they have for good. Without a root
secret a node has no key and is given another id whenever it starts; such a node is meant
only from one start to the next. -/
structure Places (ι S : Type) [AddressSigning S] where
  key : ι → Option PeerPubkey
  addr : ι → IrohAddress
  /-- Which correct node has the secret of an iroh node id, if one has. -/
  holder : IrohAddress → Option ι
  nodeId : IrohAddress → Bool
  holder_addr : ∀ i, holder (addr i) = some i
  nodeId_addr : ∀ i, nodeId (addr i) = true
  key_valid : ∀ i k, key i = some k → AddressSigning.validKey S k = true
  key_inj : ∀ i j k, key i = some k → key j = some k → i = j

/-- The addresses that the nodes know, and what is on its way between them. -/
structure GossipWorld (ι S : Type) where
  dbs : ι → AddressDb S
  pushes : List (ι × SignedAddressUpdate S)
  queries : List (ι × ι × PeerPubkey)
  answers : List (ι × PeerPubkey × SignedAddressUpdate S)
  /-- All updates that correct nodes have signed. -/
  issued : List (SignedAddressUpdate S)

inductive GossipOp (ι S : Type) where
  /-- The node starts: `insert_own_address_update`. -/
  | start (i : ι) (now : Timestamp)
  | pushGossip (i : ι) (d₁ d₂ : Draw) (up : Bool)
  | pullGossip (i : ι) (d₁ d₂ : Draw) (up : Bool)
  /-- Anything else of the node connects to a peer. -/
  | connect (i : ι) (peerPubkey : PeerPubkey) (up : Bool)
  /-- `handle_push_peer_addr_update`, for something on its way. -/
  | handlePush (n : ℕ)
  /-- `handle_get_peer_addr_update`. -/
  | handleQuery (n : ℕ)
  | takeAnswer (n : ℕ)
  /-- A push from somebody else. -/
  | pushed (j : ι) (update : SignedAddressUpdate S)
  /-- An answer from somebody else. -/
  | answered (i : ι) (peerPubkey : PeerPubkey) (update : SignedAddressUpdate S)

namespace GossipWorld

variable {ι S : Type}

/-- Nobody knows any address. -/
def empty : GossipWorld ι S := ⟨fun _ => .empty, [], [], [], []⟩

variable [DecidableEq ι]

/-- The node has other tables. -/
def setDb (w : GossipWorld ι S) (i : ι) (db : AddressDb S) : GossipWorld ι S :=
  { w with dbs := Function.update w.dbs i db }

variable [AddressSigner S]

def step (P : Places ι S) (w : GossipWorld ι S) : GossipOp ι S → GossipWorld ι S
  | .start i now =>
      match getOwnAddressUpdate (P.key i) now (P.addr i) with
      | none => w
      | some update =>
          { w.setDb i ((w.dbs i).handleAddressUpdate update).2 with
            issued := w.issued ++ [update] }
  | .pushGossip i d₁ d₂ up =>
      let (push, db) := (w.dbs i).pushGossip P.nodeId (P.key i) d₁ d₂ up
      { w.setDb i db with
        pushes := w.pushes ++
          (push.bind fun e => (P.holder e.1).map fun j => (j, e.2)).toList }
  | .pullGossip i d₁ d₂ up =>
      let (query, db) := (w.dbs i).pullGossip P.nodeId (P.key i) d₁ d₂ up
      { w.setDb i db with
        queries := w.queries ++
          (query.bind fun e => (P.holder e.1).map fun j => (i, j, e.2)).toList }
  | .connect i peerPubkey up =>
      w.setDb i ((w.dbs i).connect P.nodeId (P.key i) peerPubkey up).2
  | .handlePush n =>
      match w.pushes[n]? with
      | none => w
      | some (j, update) =>
          { w.setDb j ((w.dbs j).handleAddressUpdate update).2 with
            pushes := w.pushes.eraseIdx n }
  | .handleQuery n =>
      match w.queries[n]? with
      | none => w
      | some (i, j, peerPubkey) =>
          let (update, db) := (w.dbs j).getPeerAddr peerPubkey
          { w.setDb j db with
            queries := w.queries.eraseIdx n
            answers := w.answers ++ (update.map fun u => (i, peerPubkey, u)).toList }
  | .takeAnswer n =>
      match w.answers[n]? with
      | none => w
      | some (i, peerPubkey, update) =>
          { w.setDb i ((w.dbs i).takeAnswer peerPubkey update) with
            answers := w.answers.eraseIdx n }
  | .pushed j update => w.setDb j ((w.dbs j).handleAddressUpdate update).2
  | .answered i peerPubkey update => w.setDb i ((w.dbs i).takeAnswer peerPubkey update)

def run (P : Places ι S) (w : GossipWorld ι S) (ops : List (GossipOp ι S)) :
    GossipWorld ι S :=
  Trail.run (step P) w ops

end GossipWorld

end Bfte
