import Bfte.Consensus.Getters
import Bfte.Core.RawParams
import Bfte.Lib.Session
import Bfte.Node.PeerAddress

/-!
# Asking another node

The requests a node makes on its own account, when it joins a federation or looks for an
address. Who answers need not be who it says it is: a server is whatever turns a request
and a state of its own into an answer, or into none when the connection breaks. What the
asking node believes is what it checks here.

`handleRequest` is the server of a node that runs the code.
-/

namespace Bfte

/-- The requests with an id of their own. -/
inductive Request where
  | getBlock (round : BlockRound)
  | getConsensusParams (round : BlockRound)
  | getPeerAddress (peerPubkey : PeerPubkey)
  deriving Repr, DecidableEq

/-- What comes back. Params come as a bao stream. -/
inductive Answer (D S : Type) where
  | block (block : Notarized D S)
  | params (stream : List UInt8)
  | peerAddress (update : Option (SignedAddressUpdate S))

/-- Whoever is at the other end of a connection. -/
abbrev Server (σ D S : Type) := Request → σ → Option (Answer D S) × σ

/-! ## Messages of a known hash -/

/-- `write_message_bao` and `read_message_bao` of `iroh_dpc_rpc`: what is sent of a
message, and what a reader who knows its length and its hash makes of what comes in. -/
class BaoStream (D : Type) where
  writeMessageBao : List UInt8 → List UInt8
  readMessageBao : ℕ → D → List UInt8 → Option (List UInt8)

/-- What was written is read back, and nothing is read that has not got the length and the
hash. -/
class LawfulBao (D : Type) [Hashing D] [BaoStream D] : Prop where
  read_write : ∀ raw, BaoStream.readMessageBao raw.length (Hashing.payloadHash raw : D)
    (BaoStream.writeMessageBao D raw) = some raw
  read_eq_some : ∀ len (hash : D) stream raw,
    BaoStream.readMessageBao len hash stream = some raw →
      raw.length = len ∧ Hashing.payloadHash raw = hash

/-! ## The tables of addresses -/

/-- The three tables of `peer_address.rs`. -/
structure AddressDb (S : Type) where
  peerAddresses : PeerAddresses S
  weTrack : SortedTable PeerPubkey Unit
  weNeed : SortedTable PeerPubkey Unit

def AddressDb.empty {S : Type} : AddressDb S := ⟨.empty, .empty, .empty⟩

/-- `get_peer_addr`. An address that is not known is noted down. -/
def AddressDb.getPeerAddr {S : Type} (db : AddressDb S) (peerPubkey : PeerPubkey) :
    Option (SignedAddressUpdate S) × AddressDb S :=
  match db.peerAddresses.get? peerPubkey with
  | some existing => (some existing, db)
  | none => (none, { db with weTrack := db.weTrack.insert peerPubkey () })

/-- `handle_address_update`, on the table it writes. -/
def AddressDb.handleAddressUpdate {S : Type} [AddressSigning S] (db : AddressDb S)
    (update : SignedAddressUpdate S) : Outcome String Unit × AddressDb S :=
  let (addresses, outcome) := Bfte.handleAddressUpdate db.peerAddresses update
  (outcome, { db with peerAddresses := addresses })

/-! ## The asking node -/

/-- The server, and the addresses the asking node has. -/
structure Call (σ S : Type) where
  server : σ
  addresses : AddressDb S

namespace Rpc

variable {σ D S : Type}

/-- Something that the asking node does while the connection is open. -/
abbrev Conn (σ S α : Type) := Session (Call σ S) (Fault String) α

/-- `whatever!`. -/
def whatever {α : Type} (msg : String) : Conn σ S α := Session.fail (.err msg)

/-- Ask, and wait for an answer. -/
def request (srv : Server σ D S) (req : Request) (context : String) :
    Conn σ S (Answer D S) := do
  let answer ← Session.act fun s : Call σ S =>
    let (answer, server) := srv req s.server
    (answer, { s with server })
  match answer with
  | some answer => return answer
  | none => whatever context

/-- `get_block`. -/
def getBlock (srv : Server σ D S) (round : BlockRound) : Conn σ S (Notarized D S) := do
  match ← request srv (.getBlock round) "Failed request get_block" with
  | .block resp =>
      if resp.inner.round ≠ round then
        whatever s!"Mismatched round block from peer: {resp.inner.round} != {round}"
      else return resp
  | _ => whatever "Failed request get_block"

variable [DecidableEq D] [Hashing D]

/-- `get_block_hashed`. -/
def getBlockHashed (srv : Server σ D S) (round : BlockRound) (blockHash : D) :
    Conn σ S (Notarized D S) := do
  let resp ← getBlock srv round
  if Hashing.blockHash resp.inner ≠ blockHash then
    whatever "Mismatched hash block from peer"
  else return resp

omit [DecidableEq D] [Hashing D] in
/-- `get_consensus_params`. -/
def getConsensusParams [BaoStream D] (srv : Server σ D S) (round : BlockRound)
    (consensusParamsHash : D) (consensusParamsLen : ℕ) : Conn σ S (List UInt8) := do
  match ← request srv (.getConsensusParams round)
      "Failed request get_consensus_params" with
  | .params stream =>
      match BaoStream.readMessageBao consensusParamsLen consensusParamsHash stream with
      | some raw => return raw
      | none => whatever "Failed request get_consensus_params"
  | _ => whatever "Failed request get_consensus_params"

omit [DecidableEq D] [Hashing D] in
/-- `get_peer_address`. -/
def getPeerAddress [AddressSigning S] (srv : Server σ D S) (peerPubkey : PeerPubkey) :
    Conn σ S (Option (SignedAddressUpdate S)) := do
  match ← request srv (.getPeerAddress peerPubkey) "Failed request get_peer_address" with
  | .peerAddress (some update) =>
      if update.inner.peerPubkey ≠ peerPubkey then whatever "Mismatched peer_pubkey"
      else do
        Session.lift ((update.verifySignature peerPubkey).orRaise
          "Invalid address update signature")
        return some update
  | .peerAddress none => return none
  | _ => whatever "Failed request get_peer_address"

end Rpc

/-! ## A node that runs the code -/

namespace Node

variable {D S : Type} [LinearOrder D]

/-- `get_finalized_block`. -/
def getFinalizedBlock (c : Consensus D S) (round : BlockRound) :
    Option (Notarized D S) :=
  if c.finalityConsensus ≤ round then none
  else if round < BlockRound.MAX then
    (c.db.getPrevNotarizedBlock (round + 1)).map fun block =>
      Consensus.notarized block (c.db.getVotesProposal block.round)
  else none

variable [Hashing D] [RawHashing D] [BaoStream D]

/-- `handle_get_block_try`, `handle_get_consensus_params_try` and
`handle_get_peer_addr_update_try`. A handler that panics breaks the connection. -/
def handleRequest (c : Consensus D S) : Server (AddressDb S) D S
  | .getBlock round, db => ((getFinalizedBlock c round).map .block, db)
  | .getConsensusParams round, db =>
      match (c.db.getConsensusParams round : Outcome Empty _) with
      | .ok params => (some (.params (BaoStream.writeMessageBao D params.toRaw)), db)
      | .error _ => (none, db)
  | .getPeerAddress peerPubkey, db =>
      let (update, db) := db.getPeerAddr peerPubkey
      (some (.peerAddress update), db)

end Node

end Bfte
