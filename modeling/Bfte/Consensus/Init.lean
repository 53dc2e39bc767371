import Bfte.Consensus.HandleNotarizedBlock

/-!
# Starting and restarting

`init` writes the params of round 0, and a pin if there is one, and opens the
database; `open` only opens it. Opening reads the two finality values from the
database, writes out the own finality vote, and runs `check_round_end` on the
round the database is in. A restart keeps the database and the trace; everything
else of a `Consensus` starts anew.
-/

namespace Bfte

/-- `InitError` and `OpenError`. -/
inductive OpenError where
  | alreadyInitialized
  | notInitialized
  deriving Repr, DecidableEq

/-- `expect` on a result: an error of the transaction becomes a panic. -/
def Outcome.expectOk {ε ε' α : Type} (x : Outcome ε α) (msg : String) :
    Outcome ε' α :=
  match x with
  | .ok a => .ok a
  | .error (.err _) => Outcome.crash msg
  | .error (.panic m) => Outcome.crash m

@[simp] theorem Outcome.expectOk_eq_ok {ε ε' α : Type} {x : Outcome ε α}
    {msg : String} {a : α} :
    (x.expectOk msg : Outcome ε' α) = .ok a ↔ x = .ok a := by
  rcases x with (e | m) | a' <;> simp [Outcome.expectOk]

namespace Consensus

variable {D S : Type} [LinearOrder D] [Hashing D]

/-- The own finality vote, as `open_internal` reads it off the database. -/
def finalitySelf {ε : Type} (db : Db D S) : Outcome ε BlockRound :=
  match db.getPrevNotarizedBlock db.getCurrentRound with
  | some h => BlockRound.nextExpect h.round
  | none => .ok 0

/-- Write out the own finality vote, which a node without a key did not do. -/
def writeFinalitySelfVote (c : Consensus D S) (curRound v : BlockRound) :
    Outcome RoundInvariantError (Consensus D S) :=
  match c.ourPeerPubkey with
  | some k => c.updatePeerFinalityVoteRound curRound k v
  | none => .ok c

/-- The transaction `open_internal` runs on the fresh `Consensus`. -/
def openInternalTx (c : Consensus D S) :
    Outcome RoundInvariantError (Consensus D S) := do
  let curRound := c.db.getCurrentRound
  let c ← c.writeFinalitySelfVote curRound c.finalitySelfVote
  c.checkRoundEnd curRound

/-- The `Consensus` that `open_internal` builds on a database. -/
def fresh (db : Db D S) (ourPeerPubkey : Option PeerPubkey) (trace : Trace)
    (finalitySelf : BlockRound) : Consensus D S :=
  let finalityConsensus := db.getFinalityConsensus.getD 0
  { db := db
    ourPeerPubkey := ourPeerPubkey
    currentRoundWithTimeout := (db.getCurrentRound, false)
    finalityConsensus := finalityConsensus
    finalitySelfVote := finalitySelf
    trace := { trace with
      finalityConsensus := trace.finalityConsensus ++ [finalityConsensus]
      finalitySelfVote := trace.finalitySelfVote ++ [finalitySelf] } }

/-- `open_internal`. -/
def openInternal {ε : Type} (db : Db D S) (ourPeerPubkey : Option PeerPubkey)
    (trace : Trace) : Outcome ε (Consensus D S) := do
  let finalitySelf ← finalitySelf db
  (fresh db ourPeerPubkey trace finalitySelf).openInternalTx.expectOk
    "Database should be in consistent state when opening"

/-- Write a pin, if there is one. -/
def insertPin (db : Db D S) : Option (BlockRound × D) → Db D S
  | some (round, hash) =>
      { db with consBlocksPinned := db.consBlocksPinned.insert round hash }
  | none => db

/-- `init_tx`: what `init` writes before it opens the database. -/
def initTx (db : Db D S) (params : ConsensusParams D)
    (pinned : Option (BlockRound × D)) : Outcome OpenError (Db D S) :=
  match db.insertConsensusParams 0 params with
  | (db, .alreadyPresent existing) =>
      if existing = Hashing.paramsHash params then .ok (insertPin db pinned)
      else Outcome.raise .alreadyInitialized
  | (db, .inserted) => .ok (insertPin db pinned)

/-- `Consensus::init`. -/
def init (params : ConsensusParams D) (db : Db D S)
    (ourPeerPubkey : Option PeerPubkey) (pinned : Option (BlockRound × D)) :
    Outcome OpenError (Consensus D S) := do
  let db ← initTx db params pinned
  openInternal db ourPeerPubkey Trace.empty

/-- `Consensus::open`, on the database of a consensus that was running. -/
def reopen (c : Consensus D S) : Outcome OpenError (Consensus D S) := do
  let params ← c.db.getConsensusParamsOpt 0
  Outcome.ensure (params.isSome = true) .notInitialized
  openInternal c.db c.ourPeerPubkey c.trace

end Consensus

end Bfte
