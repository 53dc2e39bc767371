import Bfte.Node.RunConsensus

/-!
# What other nodes are told

The part of the rpc server that hands out what the node has signed. A handler
waits in the source; here it looks once, and `none` means that it goes on
waiting.
-/

namespace Bfte

structure WaitVoteRequest where
  round : BlockRound
  onlyDummy : Bool
  deriving Repr, DecidableEq

/-- Why a request is not answered at all. -/
inductive WaitVoteError where
  | noPeerPubkey
  | notParticipating
  | notAvailable
  deriving Repr, DecidableEq

namespace Node

variable {D S : Type} [LinearOrder D] [Hashing D]

/-- `handle_wait_vote_try`. -/
def handleWaitVoteTry (c : Consensus D S) (req : WaitVoteRequest) :
    Outcome WaitVoteError (Option (WaitVoteResponse D S)) := do
  let curRound := c.currentRoundWithTimeout.1
  match c.ourPeerPubkey with
  | none => Outcome.raise .noPeerPubkey
  | some peerPubkey =>
      if curRound < req.round then return none
      else
        let params ← c.db.getConsensusParams req.round
        match params.findPeerIdx peerPubkey with
        | none => Outcome.raise .notParticipating
        | some peerIdx =>
            let resp ← Consensus.getVote c.db req.round params peerIdx
            match resp.filter fun resp =>
              !req.onlyDummy || resp.block.inner.isDummy with
            | some resp => return some resp
            | none =>
                if req.round < curRound then Outcome.raise .notAvailable
                else return none

end Node

end Bfte
