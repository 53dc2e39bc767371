import Bfte.Consensus.Steps

/-!
# One node running the rounds

`run_consensus_round` asks the other peers for votes and notarized blocks and
runs up to three tasks of its own: the leader builds a proposal, the others vote
on the proposal stored, and everyone prepares a dummy vote for the timeout. A
task only reads the database; what it produces is an event that the round loop
delivers later, when other events may have been delivered first. That gap is
kept: a task puts its event into `events`, `deliver` takes one out.

When and how often a task runs is left open, as are timeouts, so the model has
every schedule of the source and more. A restart drops the events in flight.

`cast` records the headers of own votes whose delivery was committed. Only those
can be seen by others: a node hands out signatures from its database alone.
-/

namespace Bfte

/-- A vote of the node itself, on its way to the round loop. -/
structure RoundEvent (D S : Type) where
  peerIdx : PeerIdx
  resp : WaitVoteResponse D S
  deriving Repr, DecidableEq

/-- A node: its consensus, the own events in flight, the own votes cast. -/
structure Node (D S : Type) [LinearOrder D] where
  consensus : Consensus D S
  events : List (RoundEvent D S)
  cast : List (BlockHeader D)

/-- Something that happens to a node. -/
inductive NodeOp (D S : Type) where
  | recvVote (peerIdx : PeerIdx) (resp : WaitVoteResponse D S)
  | recvNotarized (resp : WaitNotarizedBlockResponse D S)
  | recvFinality (k : PeerPubkey) (resp : WaitFinalityVoteResponse S)
  | proposalTask (payload : BlockPayloadRaw) (now : Timestamp)
  | voteTask
  | timeoutTask
  | deliver (n : ℕ)
  | paramsChange (round : BlockRound) (timestamp : Timestamp) (peers : PeerSet)
  | restart

namespace Node

variable {D S : Type} [LinearOrder D]

/-- The current round, its params, the own key and the own index in it: what a
task of a node that takes part in the round starts from. -/
structure Seat (D : Type) where
  round : BlockRound
  params : ConsensusParams D
  key : PeerPubkey
  idx : PeerIdx

/-- Where the node sits in the current round, if it does. -/
def seat {ε : Type} (c : Consensus D S) : Outcome ε (Option (Seat D)) := do
  let round := c.db.getCurrentRound
  let params ← c.db.getConsensusParams round
  return c.ourPeerPubkey.bind fun key =>
    (params.findPeerIdx key).map fun idx => ⟨round, params, key, idx⟩

/-- The own index in the current round. -/
def ourPeerIdx (c : Consensus D S) : Option PeerIdx :=
  match (seat c : Outcome Empty _) with
  | .ok (some s) => some s.idx
  | _ => none

/-- The request of `request_peer_notarized_block`. -/
def requestPeerNotarizedBlock {ε : Type} (c : Consensus D S) :
    Outcome ε WaitNotarizedBlockRequest := do
  let round := c.db.getCurrentRound
  match c.db.getPrevNotarizedBlock round with
  | some b => do
      let next ← Outcome.expect
        (if b.round < BlockRound.MAX then some (b.round + 1) else none) "Can't fail"
      return ⟨next, round⟩
  | none => return ⟨0, round⟩

variable [Hashing D] [Signing D S]

/-- `Signed::new_sign`. -/
def signWith (k : PeerPubkey) (h : BlockHeader D) : Signed D S :=
  ⟨h, Signing.sign k (SignMsg.header h)⟩

/-- `generate_proposal`. -/
def generateProposal {α ε : Type} (encode : α → List UInt8) (c : Consensus D S)
    (round : BlockRound) (citems : List α) (now : Timestamp) :
    Outcome ε (BlockHeader D × BlockPayloadRaw) := do
  let payload := BlockPayloadRaw.encodeCitems encode citems
  let block ← Consensus.generateProposal c.db round payload now
  return (block, payload)

/-- `generate_proposal_round_task`: the leader builds and signs a proposal. -/
def generateProposalRoundTask (c : Consensus D S) (payload : BlockPayloadRaw)
    (now : Timestamp) (s : Seat D) : Outcome Empty (Option (RoundEvent D S)) := do
  let leader ← s.params.leaderIdx s.round
  let block ← Consensus.generateProposal c.db s.round payload now
  return if leader = s.idx then
    some ⟨s.idx, .proposal (signWith s.key block) payload⟩ else none

/-- The task of `run_consensus_round_spawn_vote_proposal_task`: a peer that is
not the leader signs the proposal stored. -/
def voteProposalTask (c : Consensus D S) (s : Seat D) :
    Outcome Empty (Option (RoundEvent D S)) := do
  let leader ← s.params.leaderIdx s.round
  let proposal ← c.db.getProposal s.round
  return if leader = s.idx then none
    else proposal.map fun p => ⟨s.idx, .vote (signWith s.key p)⟩

/-- The task of `run_consensus_round_spawn_timeout_vote_tasks`: the pre-signed
dummy vote. -/
def timeoutVoteTask (s : Seat D) : Outcome Empty (Option (RoundEvent D S)) :=
  .ok (some ⟨s.idx, .vote (signWith s.key (.newDummy s.round s.params))⟩)

/-- Run a task that needs a seat, and keep its event. -/
def spawn (n : Node D S)
    (task : Seat D → Outcome Empty (Option (RoundEvent D S))) : Node D S :=
  match (do
    let s ← seat n.consensus
    match s with
    | some s => task s
    | none => pure none : Outcome Empty _) with
  | .ok (some e) => { n with events := n.events ++ [e] }
  | _ => n

variable [DecidableEq S]

/-- Deliver an own event to the consensus. -/
def deliver (n : Node D S) (e : RoundEvent D S) : Node D S :=
  match n.consensus.processVoteResponseTx e.peerIdx e.resp with
  | .ok c => { n with
      consensus := c
      cast := n.cast ++ [e.resp.block.inner] }
  | .error _ => n

/-- One op. The node does not ask itself for votes. -/
def step (n : Node D S) : NodeOp D S → Node D S
  | .recvVote i resp =>
      if ourPeerIdx n.consensus = some i then n
      else { n with consensus := n.consensus.step (.vote i resp) }
  | .recvNotarized resp =>
      { n with consensus := n.consensus.step (.notarized resp) }
  | .recvFinality k resp =>
      if n.consensus.ourPeerPubkey = some k then n
      else { n with consensus := n.consensus.step (.finality k resp) }
  | .proposalTask payload now =>
      n.spawn (generateProposalRoundTask n.consensus payload now)
  | .voteTask => n.spawn (voteProposalTask n.consensus)
  | .timeoutTask => n.spawn timeoutVoteTask
  | .deliver k =>
      match n.events[k]? with
      | some e => ({ n with events := n.events.eraseIdx k } : Node D S).deliver e
      | none => n
  | .paramsChange round timestamp peers =>
      { n with consensus := n.consensus.step (.paramsChange round timestamp peers) }
  | .restart =>
      { n with
        consensus := n.consensus.step .reopen
        events := [] }

/-- A sequence of ops. -/
def run (n : Node D S) (ops : List (NodeOp D S)) : Node D S :=
  Trail.run step n ops

/-- A node that has just been started. -/
def start (c : Consensus D S) : Node D S := ⟨c, [], []⟩

end Node

end Bfte
