import Bfte.App.ConsensusCtrl
import Bfte.Lib.Guarded

/-!
# A node's consensus-ctrl module

Around the replicated tables a node keeps its own: the votes it wants to cast, its
key if it is a peer, the module inits it was built with, and the channel of the
citems it proposes. Processing a citem clears the pending vote the citem was cast
for, if it is the node's own, and computes the proposals anew. The source writes
the two kinds of tables in turns and in one transaction; here the own ones are
written after the replicated ones.

The operator of a node says what it wants to vote for. What is pending stays so until
the node's own vote of that kind has been processed, whatever becomes of the state in
which it was asked for.
-/

namespace Bfte

/-- The votes that a node wants to cast: the `pending_*` tables. -/
structure PendingVotes where
  pendingAddPeerVote : Option PeerPubkey
  pendingRemovePeerVote : Option PeerPubkey
  pendingAddModuleVote : Option (ModuleKind × ConsensusVersion)
  pendingModulesVersionsVotes : SortedTable ModuleId ℕ
  deriving DecidableEq

/-- Nothing is pending. -/
def PendingVotes.empty : PendingVotes where
  pendingAddPeerVote := none
  pendingRemovePeerVote := none
  pendingAddModuleVote := none
  pendingModulesVersionsVotes := .empty

/-- `ConsensusCtrlModule`, with its tables. -/
structure CtrlModule extends PendingVotes where
  db : CtrlDb
  peerPubkey : Option PeerPubkey
  proposeCitems : List ConsensusCtrlCitem
  modulesInits : ModulesInits

/-- The pending votes after a citem of a voter, on tables that say how the vote was
before. Only the votes of the node itself are cleared. -/
def PendingVotes.clear (p : PendingVotes) (db : CtrlDb) (peerPubkey : Option PeerPubkey)
    (voter : PeerPubkey) : ConsensusCtrlCitem → PendingVotes
  | .voteAddPeer _ =>
      if some voter = peerPubkey then { p with pendingAddPeerVote := none } else p
  | .voteRemovePeer peer =>
      if db.removePeerVotes.get? voter = some peer then p
      else if some voter = peerPubkey then { p with pendingRemovePeerVote := none }
      else p
  | .voteAddModule _ _ =>
      if some voter = peerPubkey then { p with pendingAddModuleVote := none } else p
  | .voteModuleVersion moduleId _ =>
      if some voter = peerPubkey then
        { p with
          pendingModulesVersionsVotes := p.pendingModulesVersionsVotes.remove moduleId }
      else p

namespace CtrlModule

/-! ## What a node proposes -/

/-- A pending vote for a peer that is not one yet, unless it has been cast. -/
def proposeAddPeer (m : CtrlModule) (peerPubkey : PeerPubkey) :
    List ConsensusCtrlCitem :=
  match m.pendingAddPeerVote with
  | some pendingPeer =>
      if m.db.getPeerSet.contains pendingPeer = false ∧
          m.db.addPeerVotes.get? peerPubkey ≠ some pendingPeer then
        [.voteAddPeer pendingPeer]
      else []
  | none => []

/-- A pending vote to remove a peer, unless it has been cast. -/
def proposeRemovePeer (m : CtrlModule) (peerPubkey : PeerPubkey) :
    List ConsensusCtrlCitem :=
  match m.pendingRemovePeerVote with
  | some pendingPeer =>
      if m.db.getPeerSet.contains pendingPeer = true ∧
          m.db.removePeerVotes.get? peerPubkey ≠ some pendingPeer then
        [.voteRemovePeer pendingPeer]
      else []
  | none => []

/-- The kind may be there once only, and is. -/
def moduleAlreadyExists (m : CtrlModule) (kind : ModuleKind) : Bool :=
  (m.modulesInits.get? kind).getD false &&
    m.db.modulesConfigs.values.any fun config => decide (config.kind = kind)

/-- No vote for the kind and the major version has been cast. -/
def shouldProposeAddModule (m : CtrlModule) (peerPubkey : PeerPubkey) (kind : ModuleKind)
    (version : ConsensusVersion) : Bool :=
  match m.db.addModuleVotes.get? peerPubkey with
  | none => true
  | some (currentKind, currentVersion) =>
      decide (currentKind ≠ kind ∨ currentVersion.major ≠ version.major)

/-- A pending vote for a module, unless one for its kind and major version has been
cast. -/
def proposeAddModule (m : CtrlModule) (peerPubkey : PeerPubkey) :
    List ConsensusCtrlCitem :=
  match m.pendingAddModuleVote with
  | some (kind, version) =>
      if m.moduleAlreadyExists kind = false ∧
          m.shouldProposeAddModule peerPubkey kind version = true then
        [.voteAddModule kind version]
      else []
  | none => []

/-- The pending votes on module versions that differ from those cast. -/
def proposeModuleVersions (m : CtrlModule) (peerPubkey : PeerPubkey) :
    List ConsensusCtrlCitem :=
  m.pendingModulesVersionsVotes.entries.filterMap fun (moduleId, minor) =>
    if (m.db.modulesVersionsVotes.get? (toLex (peerPubkey, moduleId))).map
        ConsensusVersion.minor = some minor then none
    else some (.voteModuleVersion moduleId minor)

/-- `refresh_consensus_proposals_dbtx`. -/
def refreshConsensusProposals (m : CtrlModule) : List ConsensusCtrlCitem :=
  match m.peerPubkey with
  | none => []
  | some peerPubkey =>
      m.proposeAddPeer peerPubkey ++ m.proposeRemovePeer peerPubkey ++
        m.proposeAddModule peerPubkey ++ m.proposeModuleVersions peerPubkey

/-! ## Processing a citem -/

/-- The node's own vote was processed, so it is not pending any more. A vote to
remove a peer that has been cast before changes nothing. -/
def clearPending (m : CtrlModule) (voter : PeerPubkey) (citem : ConsensusCtrlCitem) :
    CtrlModule :=
  { m with toPendingVotes := m.toPendingVotes.clear m.db m.peerPubkey voter citem }

/-- `process_citem`, up to and with the hook after the commit. -/
def processCitem (m : CtrlModule) (peerPubkey : PeerPubkey) (peerSet : PeerSet)
    (citem : Option ConsensusCtrlCitem) :
    Outcome String (CtrlModule × List CtrlEffect) := do
  let (db, effects) ← m.db.processCitem m.modulesInits peerPubkey peerSet citem
  let m := match citem with
    | some citem => m.clearPending peerPubkey citem
    | none => m
  let m := { m with db := db }
  return ({ m with proposeCitems := m.refreshConsensusProposals }, effects)

/-! ## What the operator asks for -/

/-- `refresh_consensus_proposals`. -/
def refresh (m : CtrlModule) : CtrlModule :=
  { m with proposeCitems := m.refreshConsensusProposals }

/-- `set_pending_add_peer_vote`. -/
def setPendingAddPeerVote (m : CtrlModule) (peerToAdd : PeerPubkey) :
    Outcome String CtrlModule := do
  Outcome.ensure (m.peerPubkey.isSome = true)
    "Cannot cast votes: note a voting peer"
  if (m.db.peers.get? peerToAdd).isSome then
    return m
  else
    return refresh { m with pendingAddPeerVote := some peerToAdd }

/-- `set_pending_remove_peer_vote`. -/
def setPendingRemovePeerVote (m : CtrlModule) (peerToRemove : PeerPubkey) :
    Outcome String CtrlModule := do
  Outcome.ensure (m.peerPubkey.isSome = true)
    "Cannot cast votes: not a voting peer"
  if (m.db.peers.get? peerToRemove).isNone then
    return m
  else
    Outcome.ensure (m.db.getPeerSet.len ≠ 1)
      "Cannot remove the last peer from the consensus"
    return refresh { m with pendingRemovePeerVote := some peerToRemove }

/-- `set_pending_add_module_vote`. -/
def setPendingAddModuleVote (m : CtrlModule) (moduleKind : ModuleKind)
    (consensusVersion : ConsensusVersion) : Outcome String CtrlModule := do
  Outcome.ensure (m.peerPubkey.isSome = true)
    "Cannot cast votes: not a voting peer"
  Outcome.ensure ((m.modulesInits.get? moduleKind).isSome = true)
    "No module init available for module kind"
  if m.moduleAlreadyExists moduleKind then
    return m
  else
    return refresh { m with
      pendingAddModuleVote := some (moduleKind, consensusVersion) }

/-- The loop of `record_module_init_versions`: for each module the highest minor
version there is an init for. -/
def recordVersions (supported : SortedTable ModuleKind (SortedTable ℕ ℕ)) :
    SortedTable ModuleId ℕ → List (ModuleId × ModuleConfig) →
      Outcome String (SortedTable ModuleId ℕ)
  | pending, [] => .ok pending
  | pending, (moduleId, config) :: modules => do
      let versions ← Outcome.expect (supported.get? config.kind)
        "Missing module supported versions for kind"
      let maxMinor ← Outcome.expect (versions.get? config.version.major)
        "No supported minor version for major version in module"
      recordVersions supported (pending.insert moduleId maxMinor) modules

/-- `record_module_init_versions`, which leaves the proposals as they are. -/
def recordModuleInitVersions (m : CtrlModule)
    (supported : SortedTable ModuleKind (SortedTable ℕ ℕ)) :
    Outcome String CtrlModule := do
  let pending ← recordVersions supported m.pendingModulesVersionsVotes
    m.db.modulesConfigs.entries
  return { m with pendingModulesVersionsVotes := pending }

end CtrlModule

/-- A call of the operator, or a citem that is processed. -/
inductive CtrlModuleOp where
  | setPendingAddPeerVote (peerToAdd : PeerPubkey)
  | setPendingRemovePeerVote (peerToRemove : PeerPubkey)
  | setPendingAddModuleVote (moduleKind : ModuleKind)
      (consensusVersion : ConsensusVersion)
  | recordModuleInitVersions (supported : SortedTable ModuleKind (SortedTable ℕ ℕ))
  | processCitem (voter : PeerPubkey) (citem : Option ConsensusCtrlCitem)

namespace CtrlModule

/-- What an op comes back with. A citem is processed with the peers of the table. -/
def tryStep (m : CtrlModule) : CtrlModuleOp → Outcome String CtrlModule
  | .setPendingAddPeerVote peer => m.setPendingAddPeerVote peer
  | .setPendingRemovePeerVote peer => m.setPendingRemovePeerVote peer
  | .setPendingAddModuleVote kind version => m.setPendingAddModuleVote kind version
  | .recordModuleInitVersions supported => m.recordModuleInitVersions supported
  | .processCitem voter citem => do
      let (m, _) ← m.processCitem voter m.db.getPeerSet citem
      return m

/-- One op. What fails changes nothing. -/
def step (m : CtrlModule) (op : CtrlModuleOp) : CtrlModule :=
  match m.tryStep op with
  | .ok m' => m'
  | .error _ => m

/-- A sequence of ops. -/
def run (m : CtrlModule) (ops : List CtrlModuleOp) : CtrlModule :=
  Trail.run step m ops

/-- A module that has been bootstrapped, with nothing pending. -/
def start (inits : ModulesInits) (key : Option PeerPubkey) (moduleId : ModuleId)
    (version : ConsensusVersion) (peerSet : PeerSet) : CtrlModule where
  toPendingVotes := .empty
  db := CtrlDb.empty.bootstrapConsensus moduleId version peerSet
  peerPubkey := key
  proposeCitems := []
  modulesInits := inits

end CtrlModule

end Bfte
