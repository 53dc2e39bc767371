import Bfte.Consensus.FinishRound

/-!
# Receiving votes and proposals

`process_vote_response_tx`, in the two halves it has in the source: what only a
proposal goes through, and how a proposal and a vote are counted alike. The
signature is checked in the second half, after a proposal has been inserted;
failing there undoes the insert.
-/

namespace Bfte

/-- `ProcessVoteError`. -/
inductive ProcessVoteError (D S : Type) where
  | invalidRound (expected received : BlockRound)
  | invalidSignature
  | forkedProposal (peerIdx : PeerIdx) (existing : BlockHeader D)
  | forkedSignature (peerIdx : PeerIdx) (existing : S)
  | voteForADifferentProposal
  | notALeader
  | dummy
  | invalidContent (source : VerifyWithContentError)
  | roundInvariant (source : RoundInvariantError)
  | doesNotExtend (prev : Option (BlockHeader D))
  deriving Repr, DecidableEq

namespace Consensus

variable {D S : Type} [LinearOrder D] [Hashing D] [DecidableEq S] [Signing D S]

/-- Put a vote whose signature has been checked into its table. -/
def insertVote (db : Db D S) (curRound : BlockRound) (params : ConsensusParams D)
    (peerIdx : PeerIdx) (vote : Signed D S) :
    Outcome (ProcessVoteError D S) (Db D S × InsertOutcome S) := do
  if vote.inner.isDummy then
    (vote.inner.verifyWithContent (Hashing.paramsHash params)
      (Hashing.paramsLen params) BlockPayloadRaw.empty).mapErr .invalidContent
    return db.insertDummyVote curRound peerIdx vote.sig
  else
    let proposal ← db.getProposal curRound
    Outcome.ensure (∀ p ∈ proposal, p = vote.inner) .voteForADifferentProposal
    let (db, outcome) := db.insertBlockVote curRound peerIdx vote
    return (db, outcome.map Signed.sig)

/-- The half of `process_vote_response_tx` that handles both proposal and a vote
as a vote. -/
def countVoteTx (c : Consensus D S) (curRound : BlockRound)
    (params : ConsensusParams D) (peerIdx : PeerIdx) (vote : Signed D S) :
    Outcome (ProcessVoteError D S) (Consensus D S) := do
  (vote.verifySigPeerIdx peerIdx params.peers).orRaise .invalidSignature
  let (db, outcome) ← insertVote c.db curRound params peerIdx vote
  let c := { c with db := db }
  match outcome with
  | .alreadyPresent existing =>
      if existing = vote.sig then return c
      else Outcome.raise (.forkedSignature peerIdx existing)
  | .inserted => (c.checkRoundEnd curRound).mapErr .roundInvariant

/-- What `process_vote_response_tx` checks of a proposal before it stores it. -/
def checkProposal (db : Db D S) (curRound : BlockRound)
    (params : ConsensusParams D) (peerIdx : PeerIdx) (block : BlockHeader D)
    (payload : BlockPayloadRaw) : Outcome (ProcessVoteError D S) Unit := do
  let leader ← params.leaderIdx curRound
  Outcome.ensure (leader = peerIdx) .notALeader
  Outcome.ensure (block.isDummy = false) .dummy
  (block.verifyWithContent (Hashing.paramsHash params) (Hashing.paramsLen params)
    payload).mapErr .invalidContent
  let prev := db.getPrevNotarizedBlock curRound
  Outcome.ensure (block.doesDirectlyExtend prev = true) (.doesNotExtend prev)

/-- `process_vote_response_tx`. -/
def processVoteResponseTx (c : Consensus D S) (peerIdx : PeerIdx)
    (resp : WaitVoteResponse D S) :
    Outcome (ProcessVoteError D S) (Consensus D S) := do
  let curRound := c.db.getCurrentRound
  Outcome.ensure (resp.block.inner.round = curRound)
    (.invalidRound curRound resp.block.inner.round)
  let params ← c.db.getConsensusParams curRound
  match resp with
  | .vote block => c.countVoteTx curRound params peerIdx block
  | .proposal block payload => do
      checkProposal c.db curRound params peerIdx block.inner payload
      let (db, outcome) ← c.db.insertBlockProposal curRound block.inner payload
      match outcome with
      | .alreadyPresent existing =>
          if existing = block.inner then return c
          else Outcome.raise (.forkedProposal peerIdx existing)
      | .inserted =>
          countVoteTx { c with db := db } curRound params peerIdx block

end Consensus

end Bfte
