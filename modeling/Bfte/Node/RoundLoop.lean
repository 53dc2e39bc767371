import Bfte.Consensus.VoteSet
import Bfte.Node.RpcServer

/-!
# The loop of one round

`run_consensus_round` looks at the votes stored for the current round and starts the
tasks that are still of use: one request for each other peer's vote and one for each
other peer's notarized blocks, and up to three tasks of its own. Then it waits for one of
them to finish, handles what it has come up with, and waits again, until the round is
over. A request for a vote is made again after an answer that was not a dummy, and then
for a dummy only; nothing else is made again. The loop takes it for granted that there is
a task left to wait for.

What a request brings back is up to the peer. A peer that does not answer, or refuses to,
is asked again within the task, so the task just does not finish.
-/

namespace Bfte

/-- What `run_consensus_round` puts into its `JoinSet`. -/
inductive RoundTask where
  | generateProposal
  | voteProposal
  | timeoutVote
  | requestVote (peerIdx : PeerIdx) (req : WaitVoteRequest)
  | requestNotarized (peerIdx : PeerIdx) (req : WaitNotarizedBlockRequest)
  deriving Repr, DecidableEq

/-- What a task finishes with. The events of the node's own votes differ in the text of
a warning only. -/
inductive TaskEvent (D S : Type) where
  | vote (e : RoundEvent D S)
  | voteSelf (e : RoundEvent D S)
  | notarized (peerIdx : PeerIdx) (resp : WaitNotarizedBlockResponse D S)

/-- The round that is being run: the tasks at work and the events of those that are
through. -/
structure RunningRound (D S : Type) where
  round : BlockRound
  params : ConsensusParams D
  seat : Option (Node.Seat D)
  tasks : List RoundTask
  events : List (TaskEvent D S)

namespace RunningRound

variable {D S : Type} [LinearOrder D]

/-- The index of a peer in a vote set. -/
def voteIdx (peerIdx : PeerIdx) : Fin 256 := ⟨peerIdx % 256, Nat.mod_lt _ (by decide)⟩

/-- `run_consensus_round_spawn_generate_proposal_task`. -/
def spawnGenerateProposal (seat : Option (Node.Seat D)) (leader : PeerIdx)
    (existingDummy existingNonDummy : VoteSet) : List RoundTask :=
  match seat with
  | some s =>
      if leader = s.idx then
        if (existingDummy.bitor existingNonDummy).contains (voteIdx s.idx) then []
        else [.generateProposal]
      else []
  | none => []

/-- `run_consensus_round_spawn_vote_proposal_task`. -/
def spawnVoteProposal (seat : Option (Node.Seat D)) (leader : PeerIdx)
    (existingNonDummy : VoteSet) : List RoundTask :=
  match seat with
  | some s =>
      if existingNonDummy.contains (voteIdx s.idx) = false ∧ leader ≠ s.idx then
        [.voteProposal]
      else []
  | none => []

/-- `run_consensus_round_spawn_vote_requests`. -/
def spawnVoteRequests (seat : Option (Node.Seat D)) (round : BlockRound) (total : ℕ)
    (existingDummy existingNonDummy : VoteSet) : List RoundTask :=
  (List.range total).filterMap fun peerIdx =>
    if seat.map Node.Seat.idx = some peerIdx then none
    else if existingDummy.contains (voteIdx peerIdx) then none
    else some (.requestVote peerIdx
      ⟨round, existingNonDummy.contains (voteIdx peerIdx)⟩)

/-- `run_consensus_round_spawn_notarized_blocks_requests`. -/
def spawnNotarizedBlocksRequests (seat : Option (Node.Seat D)) (total : ℕ)
    (req : WaitNotarizedBlockRequest) : List RoundTask :=
  (List.range total).filterMap fun peerIdx =>
    if seat.map Node.Seat.idx = some peerIdx then none
    else some (.requestNotarized peerIdx req)

/-- `run_consensus_round_spawn_timeout_vote_tasks`. -/
def spawnTimeoutVote (seat : Option (Node.Seat D)) (existingDummy : VoteSet) :
    List RoundTask :=
  match seat with
  | some s =>
      if existingDummy.contains (voteIdx s.idx) then [] else [.timeoutVote]
  | none => []

variable [Hashing D]

/-- `run_consensus_round_inner`, up to the loop. -/
def start (c : Consensus D S) : Outcome Empty (RunningRound D S) := do
  let round := c.db.getCurrentRound
  let params ← c.db.getConsensusParams round
  let dummy := c.db.getPeersWithDummyVotes round
  let nonDummy := c.db.getPeersWithProposalVotes round
  let seat ← Node.seat c
  let leader ← params.leaderIdx round
  let numPeers ← params.numPeers
  let req ← Node.requestPeerNotarizedBlock c
  let tasks := spawnGenerateProposal seat leader dummy nonDummy ++
    spawnVoteProposal seat leader nonDummy ++
    spawnVoteRequests seat round numPeers.total dummy nonDummy ++
    spawnNotarizedBlocksRequests seat numPeers.total req ++
    spawnTimeoutVote seat dummy
  return { round, params, seat, tasks, events := [] }

variable [Signing D S]

/-- What a task of the node itself comes up with, if it is through. -/
def ownEvent (c : Consensus D S) (s : Node.Seat D) (payload : BlockPayloadRaw)
    (now : Timestamp) : RoundTask → Outcome Empty (Option (RoundEvent D S))
  | .generateProposal => Node.generateProposalRoundTask c payload now s
  | .voteProposal => Node.voteProposalTask c s
  | .timeoutVote => Node.timeoutVoteTask s
  | _ => .ok none

/-- Task `n` is through. -/
def finish (R : RunningRound D S) (n : ℕ) (e : TaskEvent D S) : RunningRound D S :=
  { R with
    tasks := R.tasks.eraseIdx n
    events := R.events ++ [e] }

end RunningRound

/-- A consensus, and the round the node runs on it. -/
structure RoundLoop (D S : Type) [LinearOrder D] where
  consensus : Consensus D S
  running : Option (RunningRound D S)

/-- Something that happens to the loop. -/
inductive RoundLoopOp (D S : Type) where
  /-- `run_consensus_round`. -/
  | startRound
  /-- A task of the node itself is through; the payload and the time are those of a
  proposal. -/
  | finishOwn (n : ℕ) (payload : BlockPayloadRaw) (now : Timestamp)
  | finishVote (n : ℕ) (resp : WaitVoteResponse D S)
  | finishNotarized (n : ℕ) (resp : WaitNotarizedBlockResponse D S)
  /-- One turn of the loop, with the event `join_next` gives out. -/
  | joinNext (n : ℕ)
  | recvFinality (k : PeerPubkey) (resp : WaitFinalityVoteResponse S)
  | paramsChange (round : BlockRound) (timestamp : Timestamp) (peers : PeerSet)
  | restart

namespace RoundLoop

variable {D S : Type} [LinearOrder D]

/-- A round that is being run, and is not over. -/
def current (l : RoundLoop D S) : Option (RunningRound D S) :=
  l.running.filter fun R => decide (l.consensus.currentRoundWithTimeout.1 = R.round)

/-- The loop waits for a task, and there is none: `expect("Always has events")`. -/
def RunsDry (l : RoundLoop D S) : Prop :=
  ∃ R ∈ l.current, R.tasks = [] ∧ R.events = []

instance (l : RoundLoop D S) : Decidable l.RunsDry := by
  unfold RunsDry
  infer_instance

variable [Hashing D] [DecidableEq S] [Signing D S]

/-- The call that an event is handed to. -/
def eventOp : TaskEvent D S → ConsensusOp D S
  | .vote e => .vote e.peerIdx e.resp
  | .voteSelf e => .vote e.peerIdx e.resp
  | .notarized _ resp => .notarized resp

/-- The request that is made after an event. -/
def respawn (round : BlockRound) : TaskEvent D S → List RoundTask
  | .vote e =>
      if e.resp.block.inner.isDummy then []
      else [.requestVote e.peerIdx ⟨round, true⟩]
  | _ => []

/-- An event is handled. -/
def handle (l : RoundLoop D S) (R : RunningRound D S) (n : ℕ) (e : TaskEvent D S) :
    RoundLoop D S where
  consensus := l.consensus.step (eventOp e)
  running := some { R with
    tasks := R.tasks ++ respawn R.round e
    events := R.events.eraseIdx n }

/-- One op. -/
def step (l : RoundLoop D S) : RoundLoopOp D S → RoundLoop D S
  | .startRound =>
      match l.running, RunningRound.start l.consensus with
      | none, .ok R => { l with running := some R }
      | _, _ => l
  | .finishOwn n payload now =>
      match l.running with
      | some R =>
          match R.tasks[n]?, R.seat with
          | some task, some s =>
              match RunningRound.ownEvent l.consensus s payload now task with
              | .ok (some e) => { l with running := some (R.finish n (.voteSelf e)) }
              | _ => l
          | _, _ => l
      | none => l
  | .finishVote n resp =>
      match l.running with
      | some R =>
          match R.tasks[n]? with
          | some (.requestVote i _) =>
              { l with running := some (R.finish n (.vote ⟨i, resp⟩)) }
          | _ => l
      | none => l
  | .finishNotarized n resp =>
      match l.running with
      | some R =>
          match R.tasks[n]? with
          | some (.requestNotarized i _) =>
              { l with running := some (R.finish n (.notarized i resp)) }
          | _ => l
      | none => l
  | .joinNext n =>
      match l.current with
      | some R =>
          match R.events[n]? with
          | some e => l.handle R n e
          | none => l
      | none => { l with running := none }
  | .recvFinality k resp =>
      if l.consensus.ourPeerPubkey = some k then l
      else { l with consensus := l.consensus.step (.finality k resp) }
  | .paramsChange round timestamp peers =>
      { l with consensus := l.consensus.step (.paramsChange round timestamp peers) }
  | .restart => ⟨l.consensus.step .reopen, none⟩

/-- A sequence of ops. -/
def run (l : RoundLoop D S) (ops : List (RoundLoopOp D S)) : RoundLoop D S :=
  Trail.run step l ops

end RoundLoop

end Bfte
