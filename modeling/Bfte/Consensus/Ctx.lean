import Bfte.Consensus.Tables

/-!
# Reading and writing the consensus database

The functions of `ctx.rs`, each on the tables it opens. The readers come first
and the writers after them; both are followed by what the proofs take from
them, so that nothing later opens one of these functions again.

The vote tables are read a round at a time. `votesAt` is that range scan with
the round dropped from the keys; the counts of the source are its length.
-/

namespace Bfte

/-- The part of a vote table that belongs to one round. -/
def votesAt {V : Type} (t : SortedTable VoteKey V) (round : BlockRound) :
    List (PeerIdx × V) :=
  (t.range (voteKey round 0) (voteKey round PeerIdx.MAX)).map fun e =>
    ((ofLex e.1).2, e.2)

namespace Db

variable {D S : Type} [LinearOrder D]

/-! ## Readers -/

def getCurrentRound (db : Db D S) : BlockRound := db.consCurrentRound.getD 0

def getVoteDummy (db : Db D S) (round : BlockRound) (i : PeerIdx) : Option S :=
  db.consVotesDummy.get? (voteKey round i)

def getVoteBlock (db : Db D S) (round : BlockRound) (i : PeerIdx) :
    Option (SignedVote D S) :=
  db.consVotesBlock.get? (voteKey round i)

/-- The params of the last entry of the schedule up to a round. -/
def getConsensusParamsOpt {ε : Type} (db : Db D S) (round : BlockRound) :
    Outcome ε (Option (ConsensusParams D)) :=
  match db.consParamsSchedule.lastUpTo round with
  | none => .ok none
  | some (_, hash) => do
      let params ← Outcome.expect (db.consParams.get? hash)
        "Must always have params for a given hash"
      return some params

def getConsensusParams {ε : Type} (db : Db D S) (round : BlockRound) :
    Outcome ε (ConsensusParams D) := do
  let params ← db.getConsensusParamsOpt round
  Outcome.expect params
    "Initialized consensus database must set consensus params for round 0"

def getFinalityConsensus (db : Db D S) : Option BlockRound :=
  db.consFinalityConsensus

def getFinalityVote (db : Db D S) (k : PeerPubkey) : Option BlockRound :=
  db.consFinalityVotes.get? k

def getBlockPayload (db : Db D S) (hash : D) : Option BlockPayloadRaw :=
  db.consBlocksPayloads.get? hash

def getProposal {ε : Type} (db : Db D S) (round : BlockRound) :
    Outcome ε (Option (BlockHeader D)) :=
  match db.consBlocksProposals.get? round with
  | some v => do
      Outcome.assertThat (v.round = round) "assertion failed: v.round == round"
      return some v
  | none => .ok none

def getNotarizedBlock (db : Db D S) (round : BlockRound) :
    Option (BlockHeader D) :=
  db.consBlocksNotarized.get? round

def getPinnedBlock (db : Db D S) (round : BlockRound) : Option D :=
  db.consBlocksPinned.get? round

/-- The notarized block with the greatest round below the given one. -/
def getPrevNotarizedBlock (db : Db D S) (round : BlockRound) :
    Option (BlockHeader D) :=
  (db.consBlocksNotarized.lastBelow round).map Prod.snd

/-- The notarized block with the least round from the given one on. -/
def getNextNotarizedBlock (db : Db D S) (round : BlockRound) :
    Option (BlockHeader D) :=
  (db.consBlocksNotarized.firstFrom round).map Prod.snd

def getVotesDummy (db : Db D S) (round : BlockRound) : List (PeerIdx × S) :=
  votesAt db.consVotesDummy round

def getVotesProposal (db : Db D S) (round : BlockRound) : List (PeerIdx × S) :=
  (votesAt db.consVotesBlock round).map fun e => (e.1, e.2.sig)

def getNumVotesDummy (db : Db D S) (round : BlockRound) : ℕ :=
  (votesAt db.consVotesDummy round).length

def getNumVotesProposal (db : Db D S) (round : BlockRound) : ℕ :=
  (votesAt db.consVotesBlock round).length

/-! ## Writers -/

def setCurrentRound (db : Db D S) (round : BlockRound) : Db D S :=
  { db with consCurrentRound := some round }

def updateFinalityConsensus (db : Db D S) (round : BlockRound) : Db D S :=
  { db with consFinalityConsensus := some round }

def updateFinalityVote (db : Db D S) (k : PeerPubkey) (round : BlockRound) :
    Db D S :=
  { db with consFinalityVotes := db.consFinalityVotes.insert k round }

/-- Drop the dummy votes of all rounds below the given one. -/
def pruneDummyVotes (db : Db D S) (round : BlockRound) : Db D S :=
  { db with
    consVotesDummy := db.consVotesDummy.retainIn (voteKey 0 0) (voteKey round 0)
      fun _ _ => false }

def deleteNotarizedBlock (db : Db D S) (round : BlockRound) : Db D S :=
  { db with consBlocksNotarized := db.consBlocksNotarized.remove round }

def insertDummyVote (db : Db D S) (round : BlockRound) (i : PeerIdx) (sig : S) :
    Db D S × InsertOutcome S :=
  ({ db with consVotesDummy := db.consVotesDummy.insert (voteKey round i) sig },
    match db.getVoteDummy round i with
    | some existing => .alreadyPresent existing
    | none => .inserted)

def insertBlockVote (db : Db D S) (round : BlockRound) (i : PeerIdx)
    (vote : SignedVote D S) : Db D S × InsertOutcome (SignedVote D S) :=
  ({ db with consVotesBlock := db.consVotesBlock.insert (voteKey round i) vote },
    match db.getVoteBlock round i with
    | some existing => .alreadyPresent existing
    | none => .inserted)

/-- Drop the block votes of a round that are not for the given block. -/
def retainVotesFor (db : Db D S) (round : BlockRound) (block : BlockHeader D) :
    Db D S :=
  { db with
    consVotesBlock := db.consVotesBlock.retainIn (voteKey round 0)
      (voteKey round PeerIdx.MAX) fun _ vote => decide (vote.inner = block) }

def insertPayload (db : Db D S) (hash : D) (payload : BlockPayloadRaw) : Db D S :=
  { db with consBlocksPayloads := db.consBlocksPayloads.insert hash payload }

/-- A proposal, its payload, and of the votes collected before it came in those
that are for it. -/
def storeProposal (db : Db D S) (round : BlockRound) (block : BlockHeader D)
    (payload : BlockPayloadRaw) : Db D S :=
  let db := { db with
    consBlocksProposals := db.consBlocksProposals.insert round block }
  (db.insertPayload block.payloadHash payload).retainVotesFor round block

def insertBlockProposal {ε : Type} (db : Db D S) (round : BlockRound)
    (block : BlockHeader D) (payload : BlockPayloadRaw) :
    Outcome ε (Db D S × InsertOutcome (BlockHeader D)) := do
  Outcome.assertThat (block.round = round) "assertion failed: block.round == round"
  match db.consBlocksProposals.get? round with
  | some existing => return (db, .alreadyPresent existing)
  | none => return (db.storeProposal round block payload, .inserted)

/-- A notarized block, its payload if there is one to store, and of the votes of
its round those that are for it. -/
def storeNotarized (db : Db D S) (round : BlockRound) (block : BlockHeader D)
    (payload : Option BlockPayloadRaw) : Db D S :=
  let db := { db with
    consBlocksNotarized := db.consBlocksNotarized.insert round block }
  let db := match payload with
    | some payload => db.insertPayload block.payloadHash payload
    | none => db
  db.retainVotesFor round block

variable [Hashing D]

/-- The hash of the params goes into the schedule; the params themselves are
stored only if nothing was scheduled for that round. -/
def insertConsensusParams (db : Db D S) (round : BlockRound)
    (params : ConsensusParams D) : Db D S × InsertOutcome D :=
  let hash := Hashing.paramsHash params
  let db' := { db with
    consParamsSchedule := db.consParamsSchedule.insert round hash }
  match db.consParamsSchedule.get? round with
  | some existing => (db', .alreadyPresent existing)
  | none =>
      ({ db' with consParams := db'.consParams.insert hash params }, .inserted)

def insertNotarizedBlock {ε : Type} (db : Db D S) (round : BlockRound)
    (block : BlockHeader D) (payload : Option BlockPayloadRaw) :
    Outcome ε (Db D S × InsertOutcome (BlockHeader D)) := do
  Outcome.assertThat (block.round = round) "assertion failed: block.round == round"
  Outcome.assertThat (block.isDummy = false) "assertion failed: !block.is_dummy()"
  match db.consBlocksNotarized.get? round with
  | some existing => return (db, .alreadyPresent existing)
  | none => return (db.storeNotarized round block payload, .inserted)

end Db

end Bfte
