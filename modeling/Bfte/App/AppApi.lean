import Bfte.App.Run

/-!
# The app waits for blocks, and the rounds wait for the app

The app gets its blocks from `ack_and_wait_next_block`. The call tells the node
which round it asks for and waits three times: for the finality consensus and for
the own finality vote to pass that round, and for the next notarized block. A
block that is not final yet makes it start over and ask for the round of the
block.

`run_consensus_round_inner` starts a round only if it is fewer than
`CONSENSUS_PARAMS_CORE_APPLY_DELAY_BASE` rounds ahead of the round asked for.
Votes and blocks are received only while a round is running, and the round loop
looks at the channel before it takes an event; finality votes come in at any
time.

How citems are encoded is left to `decode`.
-/

namespace Bfte

/-- `BlockRound::checked_add`. -/
def BlockRound.checkedAdd (r : BlockRound) (delay : ℕ) : Option BlockRound :=
  if r + delay ≤ BlockRound.MAX then some (r + delay) else none

/-- What `ack_and_wait_next_block` waits for. -/
inductive Waiting where
  | finalityConsensus (reqRound : BlockRound)
  | finalitySelfVote (reqRound curFinalityConsensus : BlockRound)
  | nextBlock (reqRound curFinalityConsensus curFinalitySelfVote : BlockRound)
  deriving Repr, DecidableEq

/-- The round the call asks for. -/
def Waiting.reqRound : Waiting → BlockRound
  | .finalityConsensus reqRound => reqRound
  | .finalitySelfVote reqRound _ => reqRound
  | .nextBlock reqRound _ _ => reqRound

/-- A node app, the round it has acknowledged up to, the call it waits in, and
the round the node is running. -/
structure AppNode (D S M X : Type) [LinearOrder D] where
  app : NodeApp D S M X
  nodeAppAck : BlockRound
  waiting : Option Waiting
  round : Option BlockRound

/-- Something that happens to such a node. -/
inductive AppNodeOp (D S : Type) where
  | startRound
  | recvVote (peerIdx : PeerIdx) (resp : WaitVoteResponse D S)
  | recvNotarized (resp : WaitNotarizedBlockResponse D S)
  | recvFinality (k : PeerPubkey) (resp : WaitFinalityVoteResponse S)
  | app
  | restart

namespace AppNode

variable {D S M X : Type} [LinearOrder D]

/-- A node that has just been started. -/
def start (app : NodeApp D S M X) : AppNode D S M X := ⟨app, 0, none, none⟩

/-- What `run_consensus_round_inner` waits for before it starts a round. -/
def roundGate (round nodeAppAck : BlockRound) : Outcome Empty Bool := do
  let limit ← Outcome.expect
    (BlockRound.checkedAdd nodeAppAck ConsensusParams.coreApplyDelayBase)
    "Can't run out of u64 rounds "
  return decide (round < limit)

/-- The round loop takes events of the round that is running. -/
def Running (n : AppNode D S M X) : Prop :=
  n.round = some n.app.consensus.currentRoundWithTimeout.1

instance (n : AppNode D S M X) : Decidable n.Running :=
  inferInstanceAs (Decidable (_ = _))

/-- The call asks for a round. -/
def request (n : AppNode D S M X) (reqRound : BlockRound) : AppNode D S M X :=
  { n with
    nodeAppAck := reqRound
    waiting := some (.finalityConsensus reqRound) }

variable [Hashing D]

/-- What the call returns for a final block. -/
def finalizedBlock (decode : BlockPayloadRaw → Option (List (CItem X)))
    (db : Db D S) (block : BlockHeader D) :
    Outcome Empty (FinalizedBlock D X) := do
  let payload ← Outcome.expect (db.getBlockPayload block.payloadHash)
    "Must have notarized block payload"
  let params ← db.getConsensusParams block.round
  let leader ← params.leaderIdx block.round
  let peerPubkey ← Outcome.expect params.peers.items[leader]? "Must exist"
  let citems ← Outcome.expect (decode payload) "Can't fail"
  return ⟨block, peerPubkey, citems⟩

/-- `ack_and_wait_next_block`, up to where it waits next. -/
def ackAndWaitNextBlock (decode : BlockPayloadRaw → Option (List (CItem X)))
    (n : AppNode D S M X) : Waiting → AppNode D S M X
  | .finalityConsensus reqRound =>
      let cur := n.app.consensus.finalityConsensus
      if reqRound < cur then
        { n with waiting := some (.finalitySelfVote reqRound cur) }
      else n
  | .finalitySelfVote reqRound curConsensus =>
      let cur := n.app.consensus.finalitySelfVote
      if reqRound < cur then
        { n with waiting := some (.nextBlock reqRound curConsensus cur) }
      else n
  | .nextBlock reqRound curConsensus curSelfVote =>
      match n.app.consensus.db.getNextNotarizedBlock reqRound with
      | some block =>
          if block.round < curConsensus ∧ block.round < curSelfVote then
            match finalizedBlock decode n.app.consensus.db block with
            | .ok b => { n with
                app := { n.app with block := some (b, 0) }
                waiting := none }
            | .error _ => n
          else n.request block.round
      | none => n -- the `expect` on the block

section Process

variable {E : Type} [OtherModules M X E]

/-- One step of the app: in a block, in the call, or on to the call. -/
def nextApp (E : Type) [OtherModules M X E] (inits : ModulesInits)
    (decode : BlockPayloadRaw → Option (List (CItem X))) (n : AppNode D S M X) :
    AppNode D S M X :=
  match n.app.block, n.waiting with
  | some _, _ => { n with app := n.app.next E inits [] }
  | none, some w => n.ackAndWaitNextBlock decode w
  | none, none => n.request n.app.curRoundIdx.1

variable [DecidableEq S] [Signing D S]

/-- One op. -/
def step (E : Type) [OtherModules M X E] (inits : ModulesInits)
    (decode : BlockPayloadRaw → Option (List (CItem X))) (n : AppNode D S M X) :
    AppNodeOp D S → AppNode D S M X
  | .startRound =>
      let round := n.app.consensus.db.getCurrentRound
      match roundGate round n.nodeAppAck with
      | .ok true => { n with round := some round }
      | _ => n
  | .recvVote i resp =>
      if n.Running then
        { n with app := n.app.step E inits [] (.recvVote i resp) }
      else n
  | .recvNotarized resp =>
      if n.Running then
        { n with app := n.app.step E inits [] (.recvNotarized resp) }
      else n
  | .recvFinality k resp =>
      { n with app := n.app.step E inits [] (.recvFinality k resp) }
  | .app => n.nextApp E inits decode
  | .restart => start (n.app.step E inits [] .restart)

/-- A sequence of ops. -/
def run (E : Type) [OtherModules M X E] (inits : ModulesInits)
    (decode : BlockPayloadRaw → Option (List (CItem X))) (n : AppNode D S M X)
    (ops : List (AppNodeOp D S)) : AppNode D S M X :=
  Trail.run (step E inits decode) n ops

end Process

end AppNode

end Bfte
