import Bfte.Consensus.Init

/-!
# What the node reads and the app changes

The getters of `getters.rs` that answer other peers or feed the node's own
tasks, the builder of a proposal, and the one transaction the application layer
runs on the consensus: scheduling a change of params.
-/

namespace Bfte

namespace Consensus

variable {D S : Type} [LinearOrder D] [Hashing D]

/-- `Notarized::new`. -/
def notarized (block : BlockHeader D) (sigs : List (PeerIdx × S)) :
    Notarized D S := ⟨block, .ofList sigs⟩

/-- `get_notarized_block_resp`. -/
def getNotarizedBlockResp {ε : Type} (db : Db D S)
    (req : WaitNotarizedBlockRequest) :
    Outcome ε (Option (WaitNotarizedBlockResponse D S)) :=
  match db.getNextNotarizedBlock req.minNotarizedRound with
  | some block => do
      let payload ← Outcome.expect (db.getBlockPayload block.payloadHash)
        "Must have payload for every notarized block"
      return some ⟨notarized block (db.getVotesProposal block.round), payload⟩
  | none => do
      let params ← db.getConsensusParams req.curRound
      let votes := db.getVotesDummy req.curRound
      let numPeers ← params.numPeers
      if numPeers.threshold ≤ votes.length then
        return some ⟨notarized (.newDummy req.curRound params) votes,
          BlockPayloadRaw.empty⟩
      else
        return none

/-- `get_vote`. -/
def getVote {ε : Type} (db : Db D S) (round : BlockRound)
    (params : ConsensusParams D) (peerIdx : PeerIdx) :
    Outcome ε (Option (WaitVoteResponse D S)) :=
  match db.getVoteDummy round peerIdx with
  | some sig => .ok (some (.vote ⟨.newDummy round params, sig⟩))
  | none =>
      match db.getVoteBlock round peerIdx with
      | none => .ok none
      | some block => do
          let leader ← params.leaderIdx round
          if peerIdx = leader then
            match db.getBlockPayload block.inner.payloadHash with
            | some payload => return some (.proposal block payload)
            | none => return none
          else
            return some (.vote block)

/-- `generate_proposal`, from the payload on. -/
def generateProposal {ε : Type} (db : Db D S) (round : BlockRound)
    (payload : BlockPayloadRaw) (now : Timestamp) :
    Outcome ε (BlockHeader D) := do
  let params ← db.getConsensusParams round
  BlockHeader.new (db.getPrevNotarizedBlock round) now round params payload

/-- An entry of the history: a round, its notarized block if there is one, and who has voted
for the block, or for the dummy if there is none. -/
structure HistoryEntry (D : Type) where
  round : BlockRound
  block : Option (BlockHeader D)
  signatories : List PeerPubkey
  deriving Repr, DecidableEq

/-- The keys at the indices of votes. What has no key is left out. -/
def signatories (params : ConsensusParams D) (votes : List (PeerIdx × S)) :
    List PeerPubkey :=
  votes.filterMap fun e => params.peers.items[e.1]?

/-- What `get_consensus_history` has to say of a round. -/
def historyEntry {ε : Type} (db : Db D S) (round : BlockRound) :
    Outcome ε (HistoryEntry D) :=
  match db.getNotarizedBlock round with
  | some block => do
      let votes := db.getVotesProposal round
      let params ← db.getConsensusParams round
      return ⟨round, some block, signatories params votes⟩
  | none => do
      let votes := db.getVotesDummy round
      let params ← db.getConsensusParams round
      return ⟨round, none, signatories params votes⟩

/-- The loop over the rounds, of which there are `n` from `round` on. -/
def historyFrom {ε : Type} (db : Db D S) (round : BlockRound) :
    ℕ → Outcome ε (List (HistoryEntry D))
  | 0 => .ok []
  | n + 1 => do
      let entry ← historyEntry db round
      let rest ← historyFrom db (round + 1) n
      return entry :: rest

/-- The first round of the history. With a limit of 0 it is the one after the current
round, and the last round has none. -/
def historyStart {ε : Type} (currentRound : BlockRound) (limit : ℕ) :
    Outcome ε BlockRound := do
  if limit ≤ currentRound then
    Outcome.assertThat (currentRound - limit + 1 ≤ BlockRound.MAX)
      "attempt to add with overflow"
    return currentRound - limit + 1
  else return 0

/-- `get_consensus_history`: the last `limit` rounds, newest first. -/
def getConsensusHistory {ε : Type} (db : Db D S) (limit : ℕ) :
    Outcome ε (List (HistoryEntry D)) := do
  let currentRound := db.getCurrentRound
  let startRound ← historyStart currentRound limit
  let history ← historyFrom db startRound (currentRound + 1 - startRound)
  return history.reverse

/-- `consensus_params_change_tx`. -/
def consensusParamsChangeTx {ε : Type} (c : Consensus D S) (round : BlockRound)
    (blockTimestamp : Timestamp) (newPeerSet : PeerSet) :
    Outcome ε (Consensus D S) := do
  let current ← c.db.getConsensusParams round
  let prevMid := c.db.getPrevNotarizedBlock (BlockRound.half round)
  let new ← current.makeChange round blockTimestamp newPeerSet
    (prevMid.map fun b => (b.round, Hashing.blockHash b))
  Outcome.assertThat (c.currentRoundWithTimeout.1 < new.applyRound)
    "assertion failed: current round < apply_round"
  return { c with db := (c.db.insertConsensusParams new.applyRound new).1 }

end Consensus

end Bfte
