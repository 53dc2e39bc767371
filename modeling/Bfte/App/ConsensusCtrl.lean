import Bfte.Core.Block
import Bfte.Lib.SortedTable

/-!
# The module that decides who votes

`consensus-ctrl` keeps the peers that vote and the modules that run, and the
votes on changing either. Its citems are votes; a vote that completes a decision
changes the tables at once and says so in an effect, and it is the effect
`ConsensusParamsChange` that the app hands on to the consensus.

What a node keeps for itself, its pending votes and the channel it proposes from,
no citem reads; `CtrlModule` puts it around what is defined here.
-/

namespace Bfte

abbrev ModuleId := ℕ

abbrev ModuleKind := ℕ

/-- `MODULE_KIND_CONSENSUS_CTRL`. -/
def ModuleKind.consensusCtrl : ModuleKind := 0

/-- `CONSENSUS_CTRL_MODULE_ID`. -/
def ModuleId.consensusCtrl : ModuleId := 0

structure ModuleConfig where
  kind : ModuleKind
  version : ConsensusVersion
  deriving Repr, DecidableEq

abbrev ModulesConfigs := SortedTable ModuleId ModuleConfig

/-- The module inits a node was built with: for each kind, whether it is a
singleton. -/
abbrev ModulesInits := SortedTable ModuleKind Bool

inductive ConsensusCtrlCitem where
  | voteAddPeer (peer : PeerPubkey)
  | voteRemovePeer (peer : PeerPubkey)
  | voteAddModule (moduleKind : ModuleKind) (consensusVersion : ConsensusVersion)
  | voteModuleVersion (moduleId : ModuleId) (minorConsensusVersion : ℕ)
  deriving Repr, DecidableEq

inductive CtrlEffect where
  | addPeer (peer : PeerPubkey)
  | removePeer (peer : PeerPubkey)
  | consensusParamsChange (peerSet : PeerSet)
  | moduleVersionUpgrade (moduleId : ModuleId)
      (oldVersion newVersion : ConsensusVersion)
  | addModule (moduleKind : ModuleKind) (moduleId : ModuleId)
      (consensusVersion : ConsensusVersion)
  deriving Repr, DecidableEq

/-- The replicated tables of `consensus-ctrl`. Of `self_version`, which is written again
whenever the module is set up, only what `bootstrap_consensus` writes. -/
structure CtrlDb where
  selfVersion : Option ConsensusVersion
  peers : SortedTable PeerPubkey Unit
  addPeerVotes : SortedTable PeerPubkey PeerPubkey
  removePeerVotes : SortedTable PeerPubkey PeerPubkey
  modulesConfigs : ModulesConfigs
  modulesVersionsVotes : SortedTable (PeerPubkey ×ₗ ModuleId) ConsensusVersion
  addModuleVotes : SortedTable PeerPubkey (ModuleKind × ConsensusVersion)

namespace CtrlDb

/-- `get_peer_set_tx`. -/
def getPeerSet (db : CtrlDb) : PeerSet :=
  .ofList (db.peers.entries.map Prod.fst)

/-- The tables of a module nothing was written to yet. -/
def empty : CtrlDb where
  selfVersion := none
  peers := .empty
  addPeerVotes := .empty
  removePeerVotes := .empty
  modulesConfigs := .empty
  modulesVersionsVotes := .empty
  addModuleVotes := .empty

/-- `bootstrap_consensus`. -/
def bootstrapConsensus (db : CtrlDb) (moduleId : ModuleId)
    (version : ConsensusVersion) (peerSet : PeerSet) : CtrlDb :=
  { db with
    selfVersion := some version
    modulesConfigs := db.modulesConfigs.insert moduleId
      ⟨ModuleKind.consensusCtrl, version⟩
    peers := peerSet.items.foldl (fun t k => t.insert k ()) db.peers }

/-- The votes of a peer set for one candidate. -/
def countVotes (votes : SortedTable PeerPubkey PeerPubkey) (peerSet : PeerSet)
    (candidate : PeerPubkey) : ℕ :=
  peerSet.items.countP fun peer => decide (votes.get? peer = some candidate)

/-- The minor version that every peer of a set has voted for at least. -/
def agreedMinor (db : CtrlDb) (peerSet : PeerSet) (moduleId : ModuleId) :
    Option ℕ :=
  (peerSet.items.map fun peer =>
    ((db.modulesVersionsVotes.get? (toLex (peer, moduleId))).map
      ConsensusVersion.minor).getD 0).min?

/-- The modules whose peers agree on a higher minor version. -/
def upgrades (db : CtrlDb) (peerSet : PeerSet) :
    List (ModuleId × ModuleConfig × ConsensusVersion) :=
  db.modulesConfigs.entries.filterMap fun (moduleId, config) =>
    match db.agreedMinor peerSet moduleId with
    | some agreed =>
        if config.version.minor < agreed then
          some (moduleId, config, ⟨config.version.major, agreed⟩)
        else none
    | none => none

/-- `check_module_version_upgrades`. -/
def checkModuleVersionUpgrades (db : CtrlDb) (peerSet : PeerSet) :
    CtrlDb × List CtrlEffect :=
  let upgrades := db.upgrades peerSet
  ({ db with
      modulesConfigs := upgrades.foldl
        (fun t (moduleId, config, version) =>
          t.insert moduleId ⟨config.kind, version⟩) db.modulesConfigs },
    upgrades.map fun (moduleId, config, version) =>
      .moduleVersionUpgrade moduleId config.version version)

/-- `process_citem_vote_add_peer`. -/
def processCitemVoteAddPeer (db : CtrlDb) (voter : PeerPubkey)
    (peerSet : PeerSet) (peerToAdd : PeerPubkey) :
    Outcome String (CtrlDb × List CtrlEffect) := do
  Outcome.ensure (db.getPeerSet.contains peerToAdd = false)
    "Peer already part of the peer set"
  let db := { db with addPeerVotes := db.addPeerVotes.insert voter peerToAdd }
  let numPeers ← toNumPeers peerSet.len
  if numPeers.threshold ≤ countVotes db.addPeerVotes peerSet peerToAdd then
    let db := { db with
      addPeerVotes := db.addPeerVotes.retain fun _ vote =>
        decide (vote ≠ peerToAdd)
      peers := db.peers.insert peerToAdd () }
    return (db, [.addPeer peerToAdd, .consensusParamsChange db.getPeerSet])
  else
    return (db, [])

/-- `process_citem_vote_remove_peer`. -/
def processCitemVoteRemovePeer (db : CtrlDb) (voter : PeerPubkey)
    (curEffectivePeerSet : PeerSet) (peerToRemove : PeerPubkey) :
    Outcome String (CtrlDb × List CtrlEffect) := do
  Outcome.ensure (db.getPeerSet.contains peerToRemove = true)
    "Peer to remove is not in the latest peer set"
  Outcome.ensure (db.getPeerSet.len ≠ 1)
    "Cannot remove the last peer from the consensus"
  if db.removePeerVotes.get? voter = some peerToRemove then
    return (db, [])
  else
    let db := { db with
      removePeerVotes := db.removePeerVotes.insert voter peerToRemove }
    let numPeers ← toNumPeers curEffectivePeerSet.len
    if numPeers.threshold ≤
        countVotes db.removePeerVotes curEffectivePeerSet peerToRemove then
      let db := { db with peers := db.peers.remove peerToRemove }
      let updated := db.getPeerSet
      let db := { db with
        removePeerVotes := db.removePeerVotes.retain fun k vote =>
          updated.contains k && decide (vote ≠ peerToRemove)
        addPeerVotes := db.addPeerVotes.retain fun k _ => updated.contains k }
      let (db, effects) := db.checkModuleVersionUpgrades updated
      return (db, .removePeer peerToRemove :: .consensusParamsChange updated ::
        effects)
    else
      return (db, [])

/-- The loop that looks for a module id nobody has, from `id` on. -/
def freeModuleId (configs : ModulesConfigs) : ℕ → ModuleId → ModuleId
  | 0, id => id
  | left + 1, id =>
      if (configs.get? id).isNone then id else freeModuleId configs left (id + 1)

/-- The versions of the votes of a peer set for a module kind in one major
version. -/
def matchingVotes (db : CtrlDb) (peerSet : PeerSet) (moduleKind : ModuleKind)
    (major : ℕ) : List ConsensusVersion :=
  peerSet.items.filterMap fun peer =>
    (db.addModuleVotes.get? peer).bind fun (kind, version) =>
      if kind = moduleKind ∧ version.major = major then some version else none

/-- `process_citem_vote_add_module`. -/
def processCitemVoteAddModule (inits : ModulesInits) (db : CtrlDb)
    (voter : PeerPubkey) (peerSet : PeerSet) (moduleKind : ModuleKind)
    (consensusVersion : ConsensusVersion) :
    Outcome String (CtrlDb × List CtrlEffect) := do
  Outcome.ensure ((inits.get? moduleKind).isSome = true)
    "No module init available for module kind"
  Outcome.ensure (¬ (inits.get? moduleKind = some true ∧
      db.modulesConfigs.values.any fun c => decide (c.kind = moduleKind)))
    "Module already exists"
  let db := { db with
    addModuleVotes := db.addModuleVotes.insert voter (moduleKind, consensusVersion) }
  let matching := db.matchingVotes peerSet moduleKind consensusVersion.major
  if matching.length = peerSet.len then
    let minMinor ← Outcome.expect (matching.map ConsensusVersion.minor).min?
      "Should have at least one vote"
    let version : ConsensusVersion := ⟨consensusVersion.major, minMinor⟩
    let moduleId := freeModuleId db.modulesConfigs
      db.modulesConfigs.entries.length 1
    return ({ db with
        addModuleVotes := db.addModuleVotes.retain fun _ vote =>
          decide (vote.1 ≠ moduleKind)
        modulesConfigs := db.modulesConfigs.insert moduleId ⟨moduleKind, version⟩ },
      [.addModule moduleKind moduleId version])
  else
    return (db, [])

/-- `process_citem_vote_module_version`. -/
def processCitemVoteModuleVersion (db : CtrlDb) (voter : PeerPubkey)
    (peerSet : PeerSet) (moduleId : ModuleId) (minor : ℕ) :
    Outcome String (CtrlDb × List CtrlEffect) := do
  Outcome.ensure (peerSet.contains voter = true)
    "Voter is not in the current peer set"
  match db.modulesConfigs.get? moduleId with
  | none => Outcome.raise "Module not found in configurations"
  | some config =>
      let db := { db with
        modulesVersionsVotes := db.modulesVersionsVotes.insert
          (toLex (voter, moduleId)) ⟨config.version.major, minor⟩ }
      return db.checkModuleVersionUpgrades peerSet

/-- `process_citem`; a citem that does not decode is `none`. -/
def processCitem (inits : ModulesInits) (db : CtrlDb) (peerPubkey : PeerPubkey)
    (peerSet : PeerSet) (citem : Option ConsensusCtrlCitem) :
    Outcome String (CtrlDb × List CtrlEffect) := do
  Outcome.assertThat (peerSet.contains peerPubkey = true)
    "assertion failed: peer_set.contains(&peer_pubkey)"
  match citem with
  | none => Outcome.raise "Failed to decode CoreConsensusCitem"
  | some (.voteAddPeer peer) => db.processCitemVoteAddPeer peerPubkey peerSet peer
  | some (.voteRemovePeer peer) =>
      db.processCitemVoteRemovePeer peerPubkey peerSet peer
  | some (.voteAddModule kind version) =>
      db.processCitemVoteAddModule inits peerPubkey peerSet kind version
  | some (.voteModuleVersion id minor) =>
      db.processCitemVoteModuleVersion peerPubkey peerSet id minor

end CtrlDb

end Bfte
