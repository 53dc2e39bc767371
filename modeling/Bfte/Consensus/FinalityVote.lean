import Bfte.Consensus.Ctx

/-!
# Finality votes

A finality vote says up to which round, exclusive, a peer has notarized. The
finality consensus is computed from the votes of the peers of the current round:
sorted, the one past the faulty ones. It is stored as computed; the guard against
going backwards acts on the published value only, and compares with what the
previous recount stored.
-/

namespace Bfte

namespace Consensus

variable {D S : Type} [LinearOrder D]

/-- The finality votes of a peer set, missing ones counting as 0. -/
def finalityVotes (db : Db D S) (peers : PeerSet) : List BlockRound :=
  peers.items.map fun k => (db.getFinalityVote k).getD 0

/-- `recalculate_finality_consensus_tx`. -/
def recalculateFinalityConsensusTx {ε : Type} (c : Consensus D S)
    (curRound : BlockRound) : Outcome ε (Consensus D S) := do
  let params ← c.db.getConsensusParams curRound
  let votes := finalityVotes c.db params.peers
  let numPeers ← params.numPeers
  let computed ← Outcome.expect
    (votes.insertionSort (· ≤ ·))[numPeers.maxFaulty]? "index out of bounds"
  let prev := c.db.getFinalityConsensus.getD 0
  let c := { c with db := c.db.updateFinalityConsensus computed }
  let c := c.logRecount ⟨numPeers, votes, prev⟩
  -- a backward consensus is ignored from here on, but it has been stored
  let finalityCons := if computed < prev then prev else computed
  if prev = finalityCons then
    return c
  else
    let c := { c with db := c.db.pruneDummyVotes finalityCons }
    return c.sendFinalityConsensus finalityCons

/-- `update_peer_finality_vote_round`. -/
def updatePeerFinalityVoteRound {ε : Type} (c : Consensus D S)
    (curRound : BlockRound) (k : PeerPubkey) (finalityVote : BlockRound) :
    Outcome ε (Consensus D S) :=
  let prev := c.db.getFinalityVote k
  let c := { c with db := c.db.updateFinalityVote k finalityVote }
  -- a vote that went backwards or stayed is stored, but not counted
  if prev.any (fun p => finalityVote ≤ p) then .ok c
  else c.recalculateFinalityConsensusTx curRound

/-- `ProcessFirstUnnotarizedUpdateError`. -/
inductive ProcessFinalityVoteError where
  | invalidSignatures
  deriving Repr, DecidableEq

variable [Signing D S]

/-- `process_finality_vote_update_response_tx`. -/
def processFinalityVoteUpdateResponseTx (c : Consensus D S) (k : PeerPubkey)
    (resp : WaitFinalityVoteResponse S) :
    Outcome ProcessFinalityVoteError (Consensus D S) := do
  (verifyHashSignature (.finality resp.update : SignMsg D) k resp.sig).orRaise
    .invalidSignatures
  c.updatePeerFinalityVoteRound c.db.getCurrentRound k resp.update

end Consensus

end Bfte
