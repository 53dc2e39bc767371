import Bfte.Core.Signed

/-!
# The consensus database and the state around it

One record per node: `Db` holds the tables of the consensus database under
their names in the source, and `Consensus` holds the database together with the
watch channels other tasks listen on.

A write transaction is a function from one `Consensus` to the next. It works on
a copy, so an error or a panic leaves nothing behind, and the hooks it registers
for after the commit are the changes it makes to the channels of that copy.

`Trace` records what the source does not keep, because properties of a run are
about it: the values the two finality channels showed, and the votes each recount
of the finality consensus was made of. No transaction reads it back.
-/

namespace Bfte

/-- The key of a vote table: a round and a peer. -/
abbrev VoteKey := BlockRound ×ₗ PeerIdx

/-- The vote of a peer in a round. -/
def voteKey (round : BlockRound) (i : PeerIdx) : VoteKey := toLex (round, i)

/-- The tables of the consensus database. -/
structure Db (D S : Type) [LinearOrder D] where
  consCurrentRound : Option BlockRound
  consFinalityConsensus : Option BlockRound
  consFinalityVotes : SortedTable PeerPubkey BlockRound
  consParamsSchedule : SortedTable BlockRound D
  consParams : SortedTable D (ConsensusParams D)
  consBlocksProposals : SortedTable BlockRound (BlockHeader D)
  consBlocksNotarized : SortedTable BlockRound (BlockHeader D)
  consBlocksPinned : SortedTable BlockRound D
  consBlocksPayloads : SortedTable D BlockPayloadRaw
  consVotesBlock : SortedTable VoteKey (SignedVote D S)
  consVotesDummy : SortedTable VoteKey S

/-- A database nothing was written to yet. -/
def Db.empty {D S : Type} [LinearOrder D] : Db D S where
  consCurrentRound := none
  consFinalityConsensus := none
  consFinalityVotes := .empty
  consParamsSchedule := .empty
  consParams := .empty
  consBlocksProposals := .empty
  consBlocksNotarized := .empty
  consBlocksPinned := .empty
  consBlocksPayloads := .empty
  consVotesBlock := .empty
  consVotesDummy := .empty

/-- The votes one recount of the finality consensus saw, and the value that was
stored when it was made. -/
structure Recount where
  numPeers : NumPeers
  votes : List BlockRound
  prev : BlockRound
  deriving Repr, DecidableEq

/-- What happened so far, oldest first: the values the two finality channels
showed, over all restarts, and the recounts. -/
structure Trace where
  finalityConsensus : List BlockRound
  finalitySelfVote : List BlockRound
  recounts : List Recount
  deriving Repr, DecidableEq

/-- Before the first start. -/
def Trace.empty : Trace := ⟨[], [], []⟩

/-- A running consensus: its database, its own key if it has one, the values of
its watch channels, and the trace. -/
structure Consensus (D S : Type) [LinearOrder D] where
  db : Db D S
  ourPeerPubkey : Option PeerPubkey
  currentRoundWithTimeout : BlockRound × Bool
  finalityConsensus : BlockRound
  finalitySelfVote : BlockRound
  trace : Trace

namespace Consensus

variable {D S : Type} [LinearOrder D]

/-- `finality_consensus_tx.send_replace`. -/
def sendFinalityConsensus (c : Consensus D S) (v : BlockRound) :
    Consensus D S :=
  { c with
    finalityConsensus := v
    trace := { c.trace with
      finalityConsensus := c.trace.finalityConsensus ++ [v] } }

/-- `finality_self_vote_tx.send_replace`. -/
def sendFinalitySelfVote (c : Consensus D S) (v : BlockRound) :
    Consensus D S :=
  { c with
    finalitySelfVote := v
    trace := { c.trace with
      finalitySelfVote := c.trace.finalitySelfVote ++ [v] } }

/-- Note down a recount. -/
def logRecount (c : Consensus D S) (r : Recount) : Consensus D S :=
  { c with trace := { c.trace with recounts := c.trace.recounts ++ [r] } }

end Consensus

/-- What an insert did. -/
inductive InsertOutcome (α : Type) where
  | inserted
  | alreadyPresent (existing : α)
  deriving Repr, DecidableEq

/-- `InsertOutcome::map`. -/
def InsertOutcome.map {α β : Type} (f : α → β) : InsertOutcome α → InsertOutcome β
  | .inserted => .inserted
  | .alreadyPresent t => .alreadyPresent (f t)

end Bfte
