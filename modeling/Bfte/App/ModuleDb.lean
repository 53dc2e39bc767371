import Bfte.App.ConsensusCtrl
import Bfte.Lib.Shared

/-!
# Whose table is whose

One database of a node has the tables of its core and those of all of its modules.
`ModuleDatabase`, `ModuleWriteTransactionCtx` and `ModuleReadTransaction` open a table of a
module under `module_{module_id}_{name}`; the core opens its own under the names that
`def_table!` makes of theirs. A transaction may use several of them: `process_citem` goes
from one module to the next, and to the core, inside of one.
-/

namespace Bfte

/-- The tables of the core, by the names `def_table!` gives them. -/
inductive CoreTable where
  | dbVersion
  | consCurrentRound
  | consFinalityConsensus
  | consFinalityVotes
  | consParamsSchedule
  | consParams
  | consBlocksProposals
  | consBlocksNotarized
  | consBlocksPinned
  | consBlocksPayloads
  | consVotesBlock
  | consVotesDummy
  | peerAddresses
  | peerAddressesWeTrack
  | peerAddressesWeNeed
  | uiPassHash
  | appCurRound
deriving DecidableEq

def CoreTable.name : CoreTable → String
  | .dbVersion => "db_version"
  | .consCurrentRound => "cons_current_round"
  | .consFinalityConsensus => "cons_finality_consensus"
  | .consFinalityVotes => "cons_finality_votes"
  | .consParamsSchedule => "cons_params_schedule"
  | .consParams => "cons_params"
  | .consBlocksProposals => "cons_blocks_proposals"
  | .consBlocksNotarized => "cons_blocks_notarized"
  | .consBlocksPinned => "cons_blocks_pinned"
  | .consBlocksPayloads => "cons_blocks_payloads"
  | .consVotesBlock => "cons_votes_block"
  | .consVotesDummy => "cons_votes_dummy"
  | .peerAddresses => "peer_addresses"
  | .peerAddressesWeTrack => "peer_addresses_we_track"
  | .peerAddressesWeNeed => "peer_addresses_we_need"
  | .uiPassHash => "ui_pass_hash"
  | .appCurRound => "app_cur_round"

/-- Who has tables: the core, and each module. -/
inductive TableOwner where
  | core
  | module (id : ModuleId)
deriving DecidableEq

/-- What an owner calls its tables. A module may call them anything. -/
def TableOwner.Table : TableOwner → Type
  | .core => CoreTable
  | .module _ => String

instance TableOwner.decidableEqTable : ∀ o : TableOwner, DecidableEq o.Table
  | .core => inferInstanceAs (DecidableEq CoreTable)
  | .module _ => inferInstanceAs (DecidableEq String)

namespace ModuleDatabase

/-- The name `open_table` of a module's transaction puts before redb. -/
def moduleTableName (moduleId : ModuleId) (name : String) : String :=
  "module_" ++ toString moduleId ++ "_" ++ name

/-- The name a table has in the database. -/
def tableName : ∀ o : TableOwner, o.Table → String
  | .core, t => CoreTable.name t
  | .module id, name => moduleTableName id name

/-- What the core and the modules of a node make of its database, one transaction after the
other. `Q` is what can be asked of a redb table and `A` what it answers: that it is open
already, of another type or missing, or what is in it. -/
abbrev Job (Q A ε R : Type) : Type := Shared.Job TableOwner TableOwner.Table Q A ε R

end ModuleDatabase

end Bfte
