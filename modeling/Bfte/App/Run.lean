import Bfte.App.ProcessCitem

/-!
# The app going through the finalized blocks

`NodeApp::run`, one committed transaction at a time. The position in the block is
kept twice, in the table `app_cur_round` and in memory, and the loop changes the
one in memory on its own account: it is set to the index of an item before it is
incremented for the next, and also for items that are skipped. What is saved is
the one in memory.

The app can be stopped between any two steps. `restart` forgets everything in
memory and starts from the database again, where the first thing it does is to set
up the modules and to write down, as the node's own pending votes, the versions its
inits support. A panic in the middle of an item is a step that does nothing, after
which only a restart helps; the model also allows trying again. A start that the
source gives up, because there is no init for a module or its version, goes on here.

A module that is set up writes the version it is set up at into its table
`self_version`, so what the database says there is what `modulesMap` says.

`applied` records which items took effect; the source has no such table.
-/

namespace Bfte

/-- A block as `ack_and_wait_next_block` hands it out. -/
structure FinalizedBlock (D X : Type) where
  header : BlockHeader D
  peerPubkey : PeerPubkey
  citems : List (CItem X)

/-- The node app, its tables and its memory, and the consensus it runs next to. -/
structure NodeApp (D S M X : Type) [LinearOrder D] where
  consensus : Consensus D S
  modules : Modules M
  own : OwnVotes
  appCurRound : BlockRound × ℕ
  applied : List (BlockRound × ℕ)
  modulesMap : ModulesConfigs
  curRoundIdx : BlockRound × ℕ
  peerSet : Option PeerSet
  modulesConfigs : Option ModulesConfigs
  block : Option (FinalizedBlock D X × ℕ)

/-- Something that happens to a node app or to its consensus. -/
inductive AppOp (D S : Type) where
  | next
  | restart
  | recvVote (peerIdx : PeerIdx) (resp : WaitVoteResponse D S)
  | recvNotarized (resp : WaitNotarizedBlockResponse D S)
  | recvFinality (k : PeerPubkey) (resp : WaitFinalityVoteResponse S)

namespace NodeApp

variable {D S M X E : Type} [LinearOrder D] [Hashing D]

/-- A node app just started on its database: `load_cur_round_and_idx`, the
modules set up as configured, the versions they support recorded, nothing else in
memory. -/
def load (c : Consensus D S) (m : Modules M) (own : OwnVotes)
    (appCurRound : BlockRound × ℕ) (applied : List (BlockRound × ℕ)) :
    NodeApp D S M X where
  consensus := c
  modules := m
  own := recordSupportedModulesVersions m.ctrl.modulesConfigs own
  appCurRound := appCurRound
  applied := applied
  modulesMap := m.ctrl.modulesConfigs
  curRoundIdx := appCurRound
  peerSet := none
  modulesConfigs := none
  block := none

/-- The first start: `consensus-ctrl` is bootstrapped from the params of round 0. -/
def start {ε : Type} (c : Consensus D S) (rest : M) (own : OwnVotes) :
    Outcome ε (NodeApp D S M X) := do
  let params ← c.db.getConsensusParams 0
  let ctrl := CtrlDb.empty.bootstrapConsensus ModuleId.consensusCtrl
    params.initCoreModuleConsVersion params.peers
  return load c ⟨ctrl, rest⟩ own (0, 0) []

/-- `reload_invalidated_copies`. -/
def reloadInvalidatedCopies (n : NodeApp D S M X) : NodeApp D S M X :=
  let n := { n with
    peerSet := some (n.peerSet.getD n.modules.ctrl.getPeerSet) }
  match n.modulesConfigs with
  | some _ => n
  | none => { n with
      modulesConfigs := some n.modules.ctrl.modulesConfigs
      modulesMap := n.modules.ctrl.modulesConfigs }

/-- The position after item `idx` of the loop. -/
def advance (n : NodeApp D S M X) (b : FinalizedBlock D X) (idx : ℕ) :
    NodeApp D S M X :=
  { n with
    curRoundIdx := (n.curRoundIdx.1, idx)
    block := some (b, idx + 1) }

/-- The end of a block: the position is saved for the round after it. -/
def finishBlock (n : NodeApp D S M X) (b : FinalizedBlock D X) :
    NodeApp D S M X :=
  match (BlockRound.nextExpect b.header.round : Outcome Empty _) with
  | .ok round => { n with
      curRoundIdx := (round, 0)
      appCurRound := (round, 0)
      block := none }
  | .error _ => n

section Process

variable [OtherModules M X E]

/-- `process_citem`: on success everything is saved together, on failure only the
position. -/
def processCitem (E : Type) [OtherModules M X E] (inits : ModulesInits)
    (n : NodeApp D S M X) (peerSet : PeerSet) (b : FinalizedBlock D X) (idx : ℕ)
    (citem : CItem X) : NodeApp D S M X :=
  match processCitemTry (E := E) inits n.modulesMap n.consensus n.modules
      n.curRoundIdx.1 b.header.round b.header.timestamp b.peerPubkey peerSet
      n.modulesConfigs citem with
  | .ok r => ({ n with
      consensus := r.consensus
      modules := r.modules
      own := ownVotesAfter E n.modulesMap n.modules b.peerPubkey n.own citem
      peerSet := some r.peerSet
      modulesConfigs := r.modulesConfigs
      appCurRound := n.curRoundIdx
      applied := n.applied ++ [(b.header.round, idx)] } : NodeApp D S M X).advance b idx
  | .error (.err _) => ({ n with
      peerSet := none
      modulesConfigs := none
      appCurRound := (n.curRoundIdx.1, n.curRoundIdx.2 + 1) } :
        NodeApp D S M X).advance b idx
  | .error (.panic _) => n

/-- One turn of the loop over the items of a block. -/
def turn (E : Type) [OtherModules M X E] (inits : ModulesInits)
    (n : NodeApp D S M X) (b : FinalizedBlock D X) (idx : ℕ) (citem : CItem X) :
    NodeApp D S M X :=
  if n.curRoundIdx.2 ≤ idx then
    let n := n.reloadInvalidatedCopies
    match n.peerSet with
    | some peerSet => processCitem E inits n peerSet b idx citem
    | none => n
  else n.advance b idx

/-- One step of the app: the next block, the next item, or the end of a block. -/
def next (E : Type) [OtherModules M X E] (inits : ModulesInits)
    (blocks : List (FinalizedBlock D X)) (n : NodeApp D S M X) : NodeApp D S M X :=
  match n.block with
  | none =>
      match blocks.find? fun b => decide (n.curRoundIdx.1 ≤ b.header.round) with
      | some b => { n with block := some (b, 0) }
      | none => n
  | some (b, idx) =>
      match b.citems[idx]? with
      | some citem => turn E inits n b idx citem
      | none => n.finishBlock b

variable [DecidableEq S] [Signing D S]

/-- One op. A restart opens the consensus again, too. -/
def step (E : Type) [OtherModules M X E] (inits : ModulesInits)
    (blocks : List (FinalizedBlock D X)) (n : NodeApp D S M X) :
    AppOp D S → NodeApp D S M X
  | .next => n.next E inits blocks
  | .restart =>
      load (n.consensus.step .reopen) n.modules n.own n.appCurRound n.applied
  | .recvVote i resp => { n with consensus := n.consensus.step (.vote i resp) }
  | .recvNotarized resp => { n with consensus := n.consensus.step (.notarized resp) }
  | .recvFinality k resp => { n with consensus := n.consensus.step (.finality k resp) }

/-- A sequence of ops. -/
def run (E : Type) [OtherModules M X E] (inits : ModulesInits)
    (blocks : List (FinalizedBlock D X)) (n : NodeApp D S M X)
    (ops : List (AppOp D S)) : NodeApp D S M X :=
  Trail.run (step E inits blocks) n ops

end Process

end NodeApp

end Bfte
