import Bfte.Node.Rpc

/-!
# Inviting and joining

An invite names the federation by the hash of its first params, and where it has got to
by the hash of a final block. A node that joins knows nothing but the invite: it asks
the server for what is behind these hashes, and for the addresses of the peers it reads
there, and then starts a consensus with the params and with the block as a pin.

Each address is stored as soon as it has come in, so it stays when joining fails later
on; the consensus is written in one transaction at the end.
-/

namespace Bfte

structure Invite (D : Type) where
  /-- A recent block. -/
  pin : Option (BlockRound × D)
  /-- Hash and length of the first params. -/
  initParams : Option (D × ℕ)
  /-- Where to bootstrap from. -/
  address : PeerAddress
  deriving Repr, DecidableEq

/-- `BlockRound::prev`. -/
def BlockRound.prev (r : BlockRound) : Option BlockRound :=
  if r = 0 then none else some (r - 1)

namespace Node

variable {σ D S : Type} [LinearOrder D] [Hashing D]

/-- `generate_invite_code`. -/
def generateInviteCode (c : Consensus D S) (irohAddr : IrohAddress) :
    Outcome Empty (Invite D) := do
  let round := c.db.getFinalityConsensus
  let block := match round.bind BlockRound.prev with
    | some round => c.db.getPrevNotarizedBlock round
    | none => none
  let initParams ← c.db.getConsensusParams 0
  return {
    initParams := some (Hashing.paramsHash initParams, Hashing.paramsLen initParams)
    pin := block.map fun b => (b.round, Hashing.blockHash b)
    address := .iroh irohAddr }

open Rpc

variable [AddressSigning S]

/-- An address that came in is handled, a missing one is only warned about. -/
def takeAddress : Option (SignedAddressUpdate S) → Conn σ S Unit
  | some update => do
      let outcome ← Session.act fun s : Call σ S =>
        let (outcome, addresses) := s.addresses.handleAddressUpdate update
        (outcome, { s with addresses })
      Session.lift outcome
  | none => pure ()

omit [LinearOrder D] [Hashing D] in
/-- The loop over the peers of params. -/
def fetchAddresses (srv : Server σ D S) : List PeerPubkey → Conn σ S Unit
  | [] => pure ()
  | peerPubkey :: peers => do
      let update ← getPeerAddress srv peerPubkey
      takeAddress update
      fetchAddresses srv peers

variable [RawHashing D] [BaoStream D]

/-- Fetch params, and the addresses of the peers in them. -/
def fetchParams (srv : Server σ D S) (round : BlockRound) (hash : D) (len : ℕ)
    (context : String) : Conn σ S (ConsensusParams D) := do
  let raw ← getConsensusParams srv round hash len
  match ConsensusParams.fromRaw raw with
  | .ok params => do
      fetchAddresses srv params.peers.items
      return params
  | .error _ => whatever context

/-- What the invite says about the first params. -/
def fetchInitParams (srv : Server σ D S) (invite : Invite D) :
    Conn σ S (Option (ConsensusParams D)) :=
  match invite.initParams with
  | some (hash, len) => some <$>
      fetchParams srv 0 hash len "Failed to parse init consensus params"
  | none => return none

/-- What the invite says about a recent block. -/
def fetchPin (srv : Server σ D S) (invite : Invite D) : Conn σ S Unit :=
  match invite.pin with
  | some (round, hash) => do
      let block ← getBlockHashed srv round hash
      let _ ← fetchParams srv round block.inner.consensusParamsHash
        block.inner.consensusParamsLen "Failed to parse consensus params"
  | none => return ()

/-- `consensus_join_static_inner`. -/
def consensusJoinStaticInner (srv : Server σ D S) (db : Db D S) (invite : Invite D)
    (ourPeerPubkey : Option PeerPubkey) : Conn σ S (Consensus D S) := do
  let initParams ← fetchInitParams srv invite
  fetchPin srv invite
  match initParams with
  | some initParams =>
      Session.lift ((Consensus.init initParams db ourPeerPubkey invite.pin).orRaise
        "Failed to initialize consensus")
  | none => whatever "Init params not available in the invite"

end Node

end Bfte
