import Bfte.App.CtrlModule
import Bfte.Consensus.Steps

/-!
# Processing one consensus item

`process_citem_try`: the item goes to its module, the effects that come out go to
the consensus first, where a `ConsensusParamsChange` schedules new params, and
then to all modules. Everything happens in one transaction.

Modules other than `consensus-ctrl` are plugged into the node, so the model takes
them from an instance of `OtherModules`; `M` stands for all their tables but
`self_version`, `X` for the raw bytes they are sent and `E` for their effects.

The tables of `consensus-ctrl` are in two places: those that all nodes share in
`CtrlDb`, and a node's own `pending_*` tables in `OwnVotes`.
-/

namespace Bfte

/-- Something addressed to a module. -/
structure ModuleDyn (X : Type) where
  moduleId : ModuleId
  inner : X

/-- A consensus item. -/
inductive CItem (X : Type) where
  | peerCItem (citem : ModuleDyn X)
  | transaction (inputs outputs : List (ModuleDyn X))

inductive ModuleCItemEffect (E : Type) where
  | ctrl (effect : CtrlEffect)
  | other (effect : E)

/-- What the app calls of the modules besides `consensus-ctrl`, and how
`consensus-ctrl` decodes its citems. -/
class OtherModules (M X E : Type) where
  decodeCtrl : X → Option ConsensusCtrlCitem
  processCitem : M → ModuleId → ModuleConfig → BlockRound → PeerPubkey →
    PeerSet → X → Outcome String (M × List E)
  processInput : M → ModuleId → ModuleConfig → X → Outcome String (M × List E)
  processOutput : M → ModuleId → ModuleConfig → X → Outcome String (M × List E)
  processEffects : M → ModuleId → ModuleConfig → PeerSet →
    List (ModuleCItemEffect E) → Outcome String M

/-- A node that runs `consensus-ctrl` and nothing else. -/
instance : OtherModules Unit (Option ConsensusCtrlCitem) Empty where
  decodeCtrl citem := citem
  processCitem m _ _ _ _ _ _ := .ok (m, [])
  processInput m _ _ _ := .ok (m, [])
  processOutput m _ _ _ := .ok (m, [])
  processEffects m _ _ _ _ := .ok m

inductive ProcessCItemError where
  | unknownModuleId (moduleId : ModuleId)
  | processingCItemFailed (source : String) (moduleId : ModuleId)
  | processingInputFailed (source : String) (moduleId : ModuleId)
  | processingOutputFailed (source : String) (moduleId : ModuleId)
  | processingEffectFailed (source : String) (moduleId : ModuleId)
  deriving Repr, DecidableEq

/-- The tables of all modules, less the `pending_*` tables of `consensus-ctrl`. -/
structure Modules (M : Type) where
  ctrl : CtrlDb
  rest : M

/-- The `pending_*` tables of a node's `consensus-ctrl`, with the node's key and the
`supported_versions` of its module inits. -/
structure OwnVotes extends PendingVotes where
  peerPubkey : Option PeerPubkey
  supportedVersions : SortedTable ModuleKind (SortedTable ℕ ℕ)
  deriving DecidableEq

/-- `supported_versions` of a build that has no module but `consensus-ctrl`, whose
current version is 0.1. -/
def ctrlSupportedVersions : SortedTable ModuleKind (SortedTable ℕ ℕ) :=
  .ofList [(ModuleKind.consensusCtrl, .ofList [(0, 1)])]

/-- A node of that build, with nothing pending. -/
def OwnVotes.ctrlOnly (peerPubkey : Option PeerPubkey) : OwnVotes where
  toPendingVotes := .empty
  peerPubkey := peerPubkey
  supportedVersions := ctrlSupportedVersions

namespace NodeApp

variable {M X E : Type} [OtherModules M X E]

/-- The module is `consensus-ctrl`. -/
def isCtrl (moduleId : ModuleId) (config : ModuleConfig) : Bool :=
  decide (moduleId = ModuleId.consensusCtrl ∧
    config.kind = ModuleKind.consensusCtrl)

/-- `self.modules.get`. -/
def getModule (modules : ModulesConfigs) (moduleId : ModuleId) :
    Outcome ProcessCItemError ModuleConfig :=
  match modules.get? moduleId with
  | some config => .ok config
  | none => Outcome.raise (.unknownModuleId moduleId)

/-- `process_citem` of the module the item is for. -/
def processModuleCitem (inits : ModulesInits) (modules : ModulesConfigs)
    (m : Modules M) (blockRound : BlockRound) (peerPubkey : PeerPubkey)
    (peerSet : PeerSet) (citem : ModuleDyn X) :
    Outcome ProcessCItemError (Modules M × List (ModuleCItemEffect E)) := do
  let id := citem.moduleId
  Outcome.ensure (peerSet.contains peerPubkey = true)
    (.processingCItemFailed "Ignoring citem from a peer pending consensus removal" id)
  let config ← getModule modules id
  if isCtrl id config then
    let (ctrl, effects) ← (m.ctrl.processCitem inits peerPubkey peerSet
      (OtherModules.decodeCtrl M E citem.inner)).mapErr (.processingCItemFailed · id)
    return ({ m with ctrl := ctrl }, effects.map .ctrl)
  else
    let (rest, effects) ← (OtherModules.processCitem m.rest id config blockRound
      peerPubkey peerSet citem.inner).mapErr (.processingCItemFailed · id)
    return ({ m with rest := rest }, effects.map .other)

/-- `process_input` or `process_output` of a module; `consensus-ctrl` supports
neither. -/
def processPart (modules : ModulesConfigs)
    (part : M → ModuleId → ModuleConfig → X → Outcome String (M × List E))
    (text : String) (failed : String → ModuleId → ProcessCItemError)
    (m : Modules M) (item : ModuleDyn X) :
    Outcome ProcessCItemError (Modules M × List (ModuleCItemEffect E)) := do
  let id := item.moduleId
  let config ← getModule modules id
  if isCtrl id config then
    Outcome.raise (failed text id)
  else
    let (rest, effects) ← (part m.rest id config item.inner).mapErr (failed · id)
    return ({ m with rest := rest }, effects.map .other)

/-- All inputs, or all outputs, of a transaction. -/
def processParts (modules : ModulesConfigs)
    (part : M → ModuleId → ModuleConfig → X → Outcome String (M × List E))
    (text : String) (failed : String → ModuleId → ProcessCItemError) :
    Modules M → List (ModuleDyn X) →
      Outcome ProcessCItemError (Modules M × List (ModuleCItemEffect E))
  | m, [] => .ok (m, [])
  | m, item :: items => do
      let (m, effects) ← processPart modules part text failed m item
      let (m, more) ← processParts modules part text failed m items
      return (m, effects ++ more)

/-- The item, up to its effects. -/
def collectEffects (inits : ModulesInits) (modules : ModulesConfigs)
    (m : Modules M) (blockRound : BlockRound) (peerPubkey : PeerPubkey)
    (peerSet : PeerSet) :
    CItem X → Outcome ProcessCItemError (Modules M × List (ModuleCItemEffect E))
  | .peerCItem citem =>
      processModuleCitem inits modules m blockRound peerPubkey peerSet citem
  | .transaction inputs outputs => do
      let (m, effects) ← processParts modules OtherModules.processInput
        "Module does not support any inputs" .processingInputFailed m inputs
      let (m, more) ← processParts modules OtherModules.processOutput
        "Module does not support any outputs" .processingOutputFailed m outputs
      return (m, effects ++ more)

/-- The peer set after some effects, as `process_consensus_change_effects_core_pre`
updates the copy in memory. -/
def peerSetAfter (peerSet : PeerSet) : List (ModuleCItemEffect E) → PeerSet
  | [] => peerSet
  | .ctrl (.consensusParamsChange changed) :: effects => peerSetAfter changed effects
  | _ :: effects => peerSetAfter peerSet effects

/-- `process_effects` of every module. -/
def processEffects (peerSet : PeerSet) (effects : List (ModuleCItemEffect E))
    (m : Modules M) : List (ModuleId × ModuleConfig) →
      Outcome ProcessCItemError (Modules M)
  | [] => .ok m
  | (id, config) :: modules => do
      if isCtrl id config then
        processEffects peerSet effects m modules
      else
        let rest ← (OtherModules.processEffects (X := X) m.rest id config peerSet
          effects).mapErr (.processingEffectFailed · id)
        processEffects peerSet effects { m with rest := rest } modules

/-- The effect makes the copy of the modules configs stale. -/
def changesModules : ModuleCItemEffect E → Bool
  | .ctrl (.addModule _ _ _) => true
  | .ctrl (.moduleVersionUpgrade _ _ _) => true
  | _ => false

/-- What the item does to the tables of the modules. -/
def processModules (inits : ModulesInits) (modules : ModulesConfigs)
    (m : Modules M) (blockRound : BlockRound) (peerPubkey : PeerPubkey)
    (peerSet : PeerSet) (citem : CItem X) :
    Outcome ProcessCItemError (Modules M × List (ModuleCItemEffect E)) := do
  let (m, effects) ← collectEffects inits modules m blockRound peerPubkey
    peerSet citem
  let m ← processEffects (X := X) (peerSetAfter peerSet effects) effects m
    modules.entries
  return (m, effects)

variable {D S : Type} [LinearOrder D] [Hashing D]

/-- `process_consensus_change_effects_core_pre`, its part in the consensus. -/
def processConsensusChangeEffectsCorePre {ε : Type} (round : BlockRound)
    (blockTimestamp : Timestamp) (c : Consensus D S) :
    List (ModuleCItemEffect E) → Outcome ε (Consensus D S)
  | [] => .ok c
  | .ctrl (.consensusParamsChange changed) :: effects => do
      let c ← c.consensusParamsChangeTx round blockTimestamp changed
      processConsensusChangeEffectsCorePre round blockTimestamp c effects
  | _ :: effects =>
      processConsensusChangeEffectsCorePre round blockTimestamp c effects

/-- `process_consensus_change_effects_core_post`. -/
def processConsensusChangeEffectsCorePost (configs : Option ModulesConfigs)
    (effects : List (ModuleCItemEffect E)) : Option ModulesConfigs :=
  if effects.any changesModules then none else configs

/-- The node's own votes after an item that took effect: the one it was cast for is not
pending any more. -/
def ownVotesAfter (E : Type) [OtherModules M X E] (modules : ModulesConfigs)
    (m : Modules M) (peerPubkey : PeerPubkey) (own : OwnVotes) : CItem X → OwnVotes
  | .peerCItem citem =>
      if (modules.get? citem.moduleId).any (isCtrl citem.moduleId) then
        match OtherModules.decodeCtrl M E citem.inner with
        | some vote => { own with
            toPendingVotes := own.toPendingVotes.clear m.ctrl own.peerPubkey
              peerPubkey vote }
        | none => own
      else own
  | .transaction _ _ => own

/-- `record_supported_modules_versions`. A module that the inits do not support is a
panic, and nothing is written. -/
def recordSupportedModulesVersions (modules : ModulesConfigs) (own : OwnVotes) :
    OwnVotes :=
  match CtrlModule.recordVersions own.supportedVersions own.pendingModulesVersionsVotes
      modules.entries with
  | .ok pending => { own with pendingModulesVersionsVotes := pending }
  | .error _ => own

/-- What `process_citem_try` has changed when it succeeds. -/
structure Processed (D S M : Type) [LinearOrder D] where
  consensus : Consensus D S
  modules : Modules M
  peerSet : PeerSet
  modulesConfigs : Option ModulesConfigs

/-- `process_citem_try`. -/
def processCitemTry (inits : ModulesInits) (modules : ModulesConfigs)
    (c : Consensus D S) (m : Modules M) (curRound blockRound : BlockRound)
    (blockTimestamp : Timestamp) (peerPubkey : PeerPubkey) (peerSet : PeerSet)
    (modulesConfigs : Option ModulesConfigs) (citem : CItem X) :
    Outcome ProcessCItemError (Processed D S M) := do
  let (m, effects) ← collectEffects (E := E) inits modules m blockRound peerPubkey
    peerSet citem
  let c ← processConsensusChangeEffectsCorePre curRound blockTimestamp c effects
  let peerSet := peerSetAfter peerSet effects
  let m ← processEffects (X := X) peerSet effects m modules.entries
  return ⟨c, m, peerSet, processConsensusChangeEffectsCorePost modulesConfigs effects⟩

end NodeApp

end Bfte
