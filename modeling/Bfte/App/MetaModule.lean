import Mathlib.Data.List.Dedup
import Mathlib.Data.List.Lex
import Mathlib.Algebra.GroupWithZero.Nat
import Mathlib.Data.Fin.Basic
import Mathlib.Order.Fin.Basic
import Bfte.App.ProcessCitem

/-!
# The module that agrees on values

`meta` keeps one agreed value for each key, and the votes on changing it. A vote
names a value, or a peer whose vote is taken over. The module decides a key when a
vote has been counted that gives its value a threshold of the members, and after a
member has gone it counts the votes on all keys that have no value yet.

The store lends a table out as a handle, and a write transaction may refuse to lend
a table that is lent already. A handle lives to the end of the block it was opened
in, and one opened in the scrutinee of a `match` to the end of the `match`. So what
opens tables is given the tables that are lent out at that point, `live`, and
whether the store is `exclusive`, that is, refuses.
-/

namespace Bfte

abbrev MetaKey := Fin 256

/-- The bytes of a value, which are compared from the first on. -/
abbrev MetaValue := List (Fin 256)

/-- Numbers below 256 can be written as keys and as bytes. -/
instance neZeroByte : NeZero 256 := Nat.instNeZeroSucc

inductive MetaCitem where
  | proposeValue (key : MetaKey) (value : MetaValue)
  | approveVote (key : MetaKey) (peerPubkey : PeerPubkey)
  deriving DecidableEq

structure KeyValueConsensusEffect where
  key : MetaKey
  value : MetaValue
  deriving DecidableEq

/-- The tables of `meta`. -/
structure MetaDb where
  keyValueVotes : SortedTable (MetaKey ×ₗ PeerPubkey) MetaValue
  consensusValues : SortedTable MetaKey MetaValue
  pendingProposals : SortedTable MetaKey MetaValue

/-- `MetaModule`, with its tables. -/
structure MetaModule where
  db : MetaDb
  peerPubkey : Option PeerPubkey
  proposeCitems : List MetaCitem

/-! ## Opening tables -/

inductive MetaTable where
  | keyValueVotes
  | consensusValues
  | pendingProposals
  deriving DecidableEq

/-- An error of the store, on which the node panics, or one of the module. -/
inductive DbTxError where
  | tableAlreadyOpen (table : MetaTable)
  | txError (source : String)
  deriving DecidableEq

/-- `open_table`, with the handles that are alive afterwards. -/
def openTable (exclusive : Bool) (live : List MetaTable) (table : MetaTable) :
    Outcome DbTxError (List MetaTable) := do
  Outcome.ensure (exclusive = true → table ∉ live) (.tableAlreadyOpen table)
  return table :: live

namespace MetaDb

/-- The tables of a module nothing was written to yet. -/
def empty : MetaDb := ⟨.empty, .empty, .empty⟩

/-! ## Votes on a key -/

/-- The votes on a key, in the order of the voters. -/
def votesForKey (db : MetaDb) (key : MetaKey) : List (PeerPubkey × MetaValue) :=
  db.keyValueVotes.entries.filterMap fun (keyVoter, value) =>
    if (ofLex keyVoter).1 = key then some ((ofLex keyVoter).2, value) else none

/-- The votes of a peer set for a value. -/
def countVotes (db : MetaDb) (peerSet : PeerSet) (key : MetaKey)
    (value : MetaValue) : ℕ :=
  (db.votesForKey key).countP fun (voter, vote) =>
    decide (vote = value) && peerSet.contains voter

/-- The votes on a key without those of a peer set. -/
def clearVotes (db : MetaDb) (peerSet : PeerSet) (key : MetaKey) : MetaDb :=
  { db with
    keyValueVotes := db.keyValueVotes.retain fun keyVoter _ =>
      decide ((ofLex keyVoter).1 ≠ key) || !peerSet.contains (ofLex keyVoter).2 }

/-- `process_citem_vote_key_value`. -/
def processCitemVoteKeyValue (exclusive : Bool) (live : List MetaTable)
    (db : MetaDb) (voterPubkey : PeerPubkey) (peerSet : PeerSet) (key : MetaKey)
    (value : MetaValue) :
    Outcome DbTxError (MetaDb × List KeyValueConsensusEffect) := do
  let live ← openTable exclusive live .keyValueVotes
  if db.keyValueVotes.get? (toLex (key, voterPubkey)) = some value then
    return (db, [])
  else
    let db := { db with
      keyValueVotes := db.keyValueVotes.insert (toLex (key, voterPubkey)) value }
    let numPeers ← toNumPeers peerSet.len
    if numPeers.threshold ≤ db.countVotes peerSet key value then
      -- each of the two handles is dropped before the next one is opened
      let _ ← openTable exclusive live .pendingProposals
      let db := { db with pendingProposals := db.pendingProposals.remove key }
      let _ ← openTable exclusive live .consensusValues
      let db := { db with consensusValues := db.consensusValues.insert key value }
      return (db.clearVotes peerSet key, [⟨key, value⟩])
    else
      return (db, [])

/-- `process_citem_approve_vote`. The table of the scrutinee stays open. -/
def processCitemApproveVote (exclusive : Bool) (live : List MetaTable)
    (db : MetaDb) (voterPubkey : PeerPubkey) (peerSet : PeerSet) (key : MetaKey)
    (approvedPeer : PeerPubkey) :
    Outcome DbTxError (MetaDb × List KeyValueConsensusEffect) := do
  let live ← openTable exclusive live .keyValueVotes
  match db.keyValueVotes.get? (toLex (key, approvedPeer)) with
  | some value =>
      db.processCitemVoteKeyValue exclusive live voterPubkey peerSet key value
  | none => Outcome.raise (.txError "Invalid peer_pubkey")

/-- What `process_citem` does to the tables; a citem that does not decode is
`none`. -/
def applyCitem (exclusive : Bool) (db : MetaDb) (peerPubkey : PeerPubkey)
    (peerSet : PeerSet) : Option MetaCitem →
      Outcome DbTxError (MetaDb × List KeyValueConsensusEffect)
  | none => Outcome.raise (.txError "Failed to decode CoreConsensusCitem")
  | some (.proposeValue key value) =>
      db.processCitemVoteKeyValue exclusive [] peerPubkey peerSet key value
  | some (.approveVote key approvedPeer) =>
      db.processCitemApproveVote exclusive [] peerPubkey peerSet key approvedPeer

/-! ## After a member has gone -/

/-- The keys there are votes on, each once. -/
def keysWithVotes (db : MetaDb) : List MetaKey :=
  (db.keyValueVotes.entries.map fun e => (ofLex e.1).1).dedup

/-- The values a peer set votes for on a key, with the number of their votes. -/
def valueCounts (db : MetaDb) (peerSet : PeerSet) (key : MetaKey) :
    SortedTable MetaValue ℕ :=
  .counts ((db.votesForKey key).filterMap fun (voter, value) =>
    if peerSet.contains voter then some value else none)

/-- One key of the recheck. Its tables are opened while `live` are. -/
def recheckKey (exclusive : Bool) (live : List MetaTable) (peerSet : PeerSet)
    (db : MetaDb) (key : MetaKey) : Outcome DbTxError MetaDb := do
  if (db.consensusValues.get? key).isSome then
    return db
  else
    let numPeers ← toNumPeers peerSet.len
    match (db.valueCounts peerSet key).entries.find? fun (_, count) =>
        decide (numPeers.threshold ≤ count) with
    | some (value, _) =>
        let live ← openTable exclusive live .consensusValues
        let db := { db with consensusValues := db.consensusValues.insert key value }
        let live ← openTable exclusive live .pendingProposals
        let db := { db with pendingProposals := db.pendingProposals.remove key }
        let _ ← openTable exclusive live .keyValueVotes
        return db.clearVotes peerSet key
    | none => return db

/-- The recheck of some keys, one after the other. -/
def recheckKeys (exclusive : Bool) (live : List MetaTable) (peerSet : PeerSet) :
    MetaDb → List MetaKey → Outcome DbTxError MetaDb
  | db, [] => .ok db
  | db, key :: keys => do
      let db ← db.recheckKey exclusive live peerSet key
      recheckKeys exclusive live peerSet db keys

/-- `recheck_consensus_after_peer_removal`. The two tables that it reads stay open
until it returns. -/
def recheckConsensusAfterPeerRemoval (exclusive : Bool) (live : List MetaTable)
    (db : MetaDb) (peerSet : PeerSet) : Outcome DbTxError MetaDb := do
  let live ← openTable exclusive live .keyValueVotes
  let live ← openTable exclusive live .consensusValues
  db.recheckKeys exclusive live peerSet db.keysWithVotes

/-- The effect is a `RemovePeerEffect`. -/
def removesPeer {E : Type} : ModuleCItemEffect E → Bool
  | .ctrl (.removePeer _) => true
  | _ => false

/-- `process_effects`. -/
def processEffects {E : Type} (exclusive : Bool) (peerSet : PeerSet) :
    MetaDb → List (ModuleCItemEffect E) → Outcome DbTxError MetaDb
  | db, [] => .ok db
  | db, effect :: effects => do
      if removesPeer effect then
        let db ← db.recheckConsensusAfterPeerRemoval exclusive [] peerSet
        processEffects exclusive peerSet db effects
      else
        processEffects exclusive peerSet db effects

end MetaDb

namespace MetaModule

/-! ## What a node proposes -/

/-- A pending value is proposed unless it is the node's own vote, and if somebody
has voted for it already, that vote is approved. -/
def proposal (m : MetaModule) (key : MetaKey) (value : MetaValue) :
    Option MetaCitem :=
  let shouldPropose := match m.peerPubkey with
    | some peerPubkey =>
        decide (m.db.keyValueVotes.get? (toLex (key, peerPubkey)) ≠ some value)
    | none => true
  if shouldPropose then
    match (m.db.votesForKey key).find? fun (_, vote) => decide (vote = value) with
    | some (matchingPeer, _) => some (.approveVote key matchingPeer)
    | none => some (.proposeValue key value)
  else none

/-- The citems for all pending values. -/
def refreshConsensusProposals (m : MetaModule) : List MetaCitem :=
  m.db.pendingProposals.entries.filterMap fun (key, value) => m.proposal key value

/-- `refresh_consensus_proposals_dbtx`. -/
def refreshConsensusProposalsDbtx (exclusive : Bool) (live : List MetaTable)
    (m : MetaModule) : Outcome DbTxError (List MetaCitem) := do
  let live ← openTable exclusive live .pendingProposals
  let _ ← openTable exclusive live .keyValueVotes
  return m.refreshConsensusProposals

/-- `propose_key_value`. -/
def proposeKeyValue (m : MetaModule) (key : MetaKey) (value : MetaValue) :
    MetaModule :=
  let m := { m with db := { m.db with
    pendingProposals := m.db.pendingProposals.insert key value } }
  { m with proposeCitems := m.refreshConsensusProposals }

/-- `process_citem`, up to and with the hook after the commit. -/
def processCitem (exclusive : Bool) (m : MetaModule) (peerPubkey : PeerPubkey)
    (peerSet : PeerSet) (citem : Option MetaCitem) :
    Outcome DbTxError (MetaModule × List KeyValueConsensusEffect) := do
  Outcome.assertThat (peerSet.contains peerPubkey = true)
    "assertion failed: peer_set.contains(&peer_pubkey)"
  let (db, effects) ← m.db.applyCitem exclusive peerPubkey peerSet citem
  let m := { m with db := db }
  let proposals ← m.refreshConsensusProposalsDbtx exclusive []
  return ({ m with proposeCitems := proposals }, effects)

end MetaModule

/-- What happens to the module: its operator asks for a value, or a citem or the
effects of one are processed. -/
inductive MetaOp (E : Type) where
  | proposeKeyValue (key : MetaKey) (value : MetaValue)
  | processCitem (voter : PeerPubkey) (peerSet : PeerSet) (citem : Option MetaCitem)
  | processEffects (peerSet : PeerSet) (effects : List (ModuleCItemEffect E))

namespace MetaModule

variable {E : Type}

/-- What an op comes back with. -/
def tryStep (exclusive : Bool) (m : MetaModule) :
    MetaOp E → Outcome DbTxError MetaModule
  | .proposeKeyValue key value => .ok (m.proposeKeyValue key value)
  | .processCitem voter peerSet citem => do
      let (m, _) ← m.processCitem exclusive voter peerSet citem
      return m
  | .processEffects peerSet effects => do
      let db ← m.db.processEffects exclusive peerSet effects
      return { m with db := db }

/-- One op. What fails changes nothing. -/
def step (exclusive : Bool) (m : MetaModule) (op : MetaOp E) : MetaModule :=
  match m.tryStep exclusive op with
  | .ok m' => m'
  | .error _ => m

/-- A sequence of ops. -/
def run (exclusive : Bool) (m : MetaModule) (ops : List (MetaOp E)) : MetaModule :=
  Trail.run (step exclusive) m ops

/-- A module that has been set up, with nothing pending. -/
def start (key : Option PeerPubkey) : MetaModule := ⟨.empty, key, []⟩

end MetaModule

/-- The module as the app drives it, with the peers that vote. -/
structure MetaApp where
  metaModule : MetaModule
  peerSet : PeerSet

/-- A citem of a member, or the effects of a citem of `consensus-ctrl` that has
removed a member. -/
inductive MetaAppOp where
  | processCitem (voter : PeerPubkey) (citem : Option MetaCitem)
  | removePeer (peer : PeerPubkey)

namespace MetaApp

/-- The peers without one of them. -/
def peerSetWithout (s : MetaApp) (peer : PeerPubkey) : PeerSet :=
  ⟨s.peerSet.items.filter fun k => decide (k ≠ peer)⟩

/-- The effects of the removal of a peer, as all modules are sent them. -/
def removalEffects (s : MetaApp) (peer : PeerPubkey) : List (ModuleCItemEffect Empty) :=
  [.ctrl (.removePeer peer), .ctrl (.consensusParamsChange (s.peerSetWithout peer))]

/-- What an op comes back with. `consensus-ctrl` never removes the last peer. -/
def tryStep (s : MetaApp) : MetaAppOp → Outcome DbTxError MetaApp
  | .processCitem voter citem => do
      let (m, _) ← s.metaModule.processCitem false voter s.peerSet citem
      return { s with metaModule := m }
  | .removePeer peer => do
      Outcome.ensure ((s.peerSetWithout peer).len ≠ 0)
        (.txError "Cannot remove the last peer from the consensus")
      let db ← s.metaModule.db.processEffects false (s.peerSetWithout peer)
        (s.removalEffects peer)
      return ⟨{ s.metaModule with db := db }, s.peerSetWithout peer⟩

/-- One op. What fails changes nothing. -/
def step (s : MetaApp) (op : MetaAppOp) : MetaApp :=
  match s.tryStep op with
  | .ok s' => s'
  | .error _ => s

/-- A sequence of ops. -/
def run (s : MetaApp) (ops : List MetaAppOp) : MetaApp := Trail.run step s ops

/-- A module that has been set up, among some peers. -/
def start (key : Option PeerPubkey) (peerSet : PeerSet) : MetaApp :=
  ⟨.start key, peerSet⟩

end MetaApp

end Bfte
