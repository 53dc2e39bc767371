import Bfte.Consensus.HandleVote

/-!
# Receiving notarized blocks

`process_notarized_block_response_tx`. A notarized dummy is taken for the current
round only, by storing its votes. A notarized block is taken if it is later than
the latest one and extends it, or extends the one before it, in which case the
latest one is deleted. In both cases the round may be below the current one.
-/

namespace Bfte

/-- `ProcessNotarizedBlockError`. -/
inductive ProcessNotarizedBlockError where
  | invalidSignatures (source : InvalidNotarizationError)
  | wrongRoundDummy
  | wrongRoundBlock (required received : BlockRound)
  | wrongParent
  | roundInvariant (source : RoundInvariantError)
  | invalidNotarizedContent (source : VerifyWithContentError)
  deriving Repr, DecidableEq

namespace Db

variable {D S : Type} [LinearOrder D]

/-- Store the signatures of a notarized dummy as votes. -/
def insertDummyVotes (db : Db D S) (round : BlockRound) :
    List (PeerIdx × S) → Db D S
  | [] => db
  | (i, sig) :: rest => insertDummyVotes (db.insertDummyVote round i sig).1 round rest

/-- Store the signatures of a notarized block as votes. -/
def insertBlockVotes (db : Db D S) (round : BlockRound) (block : BlockHeader D) :
    List (PeerIdx × S) → Db D S
  | [] => db
  | (i, sig) :: rest =>
      insertBlockVotes (db.insertBlockVote round i ⟨block, sig⟩).1 round block rest

end Db

namespace Consensus

variable {D S : Type} [LinearOrder D] [Hashing D] [Signing D S]

/-- `Consensus::insert_notarized_block`. -/
def insertNotarizedBlock (c : Consensus D S) (block : Notarized D S)
    (payload : BlockPayloadRaw) :
    Outcome ProcessNotarizedBlockError (Consensus D S) := do
  let (db, _) ← c.db.insertNotarizedBlock block.inner.round block.inner payload
  return { c with
    db := db.insertBlockVotes block.inner.round block.inner block.sigs.entries }

/-- The branch for a notarized dummy. -/
def processNotarizedDummyTx (c : Consensus D S) (block : Notarized D S) :
    Outcome ProcessNotarizedBlockError (Consensus D S) := do
  let curRound := c.db.getCurrentRound
  Outcome.ensure (block.inner.round = curRound) .wrongRoundDummy
  let c := { c with db := c.db.insertDummyVotes curRound block.sigs.entries }
  (c.checkRoundEnd curRound).mapErr .roundInvariant

/-- The branch for a block later than our latest: extend it or replace it. -/
def extendOrReplaceTx (c : Consensus D S) (ourLatest : Option (BlockHeader D))
    (block : Notarized D S) (payload : BlockPayloadRaw) :
    Outcome ProcessNotarizedBlockError (Consensus D S) :=
  if block.inner.doesDirectlyExtend ourLatest then
    c.insertNotarizedBlock block payload
  else do
    let ourLatest ← Outcome.expect ourLatest "Must have latest notarized"
    let ourSecondLatest := c.db.getPrevNotarizedBlock ourLatest.round
    Outcome.ensure (block.inner.doesDirectlyExtend ourSecondLatest = true)
      .wrongParent
    let c := { c with db := c.db.deleteNotarizedBlock ourLatest.round }
    c.insertNotarizedBlock block payload

/-- The branch for a notarized block. -/
def processNotarizedTx (c : Consensus D S) (block : Notarized D S)
    (payload : BlockPayloadRaw) :
    Outcome ProcessNotarizedBlockError (Consensus D S) := do
  let curRound := c.db.getCurrentRound
  let ourLatest := c.db.getPrevNotarizedBlock curRound
  if ourLatest.any (fun b => b.round = block.inner.round) then
    Outcome.assertThat (ourLatest = some block.inner)
      "Consensus failure: Two different notarized blocks at the same height"
    return c
  else
    Outcome.ensure (∀ b ∈ ourLatest, ¬ block.inner.round ≤ b.round)
      (.wrongRoundBlock ((ourLatest.map BlockHeader.round).getD 0)
        block.inner.round)
    let c ← c.extendOrReplaceTx ourLatest block payload
    (c.checkRoundEnd curRound).mapErr .roundInvariant

/-- What every response goes through first: the signatures, then the content. -/
def checkNotarized (db : Db D S) (resp : WaitNotarizedBlockResponse D S) :
    Outcome ProcessNotarizedBlockError Unit := do
  let params ← db.getConsensusParams resp.block.inner.round
  (resp.block.verifySigs params).mapErr .invalidSignatures
  (resp.block.inner.verifyWithContent (Hashing.paramsHash params)
    (Hashing.paramsLen params) resp.payload).mapErr .invalidNotarizedContent

/-- `process_notarized_block_response_tx`. -/
def processNotarizedBlockResponseTx (c : Consensus D S)
    (resp : WaitNotarizedBlockResponse D S) :
    Outcome ProcessNotarizedBlockError (Consensus D S) := do
  checkNotarized c.db resp
  if resp.block.inner.isDummy then
    c.processNotarizedDummyTx resp.block
  else
    c.processNotarizedTx resp.block resp.payload

end Consensus

end Bfte
