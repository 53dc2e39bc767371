import Bfte.Consensus.FinalityVote

/-!
# Finishing rounds

`check_round_end` runs at the end of every transaction that may have changed
whether a round is over. Its loop moves on from the current round for one of
three reasons, tried in this order: a block notarized in this round or a later
one, enough votes for the stored proposal, enough dummy votes. A pinned block is
checked every time the loop has moved.

`roundEndTurn` is the body of that loop for one round and `roundEndLoop` repeats
it. The loop ends by itself in a round nothing ends, and panics when it would
have to leave the last round there is, so the rounds left are the fuel.
-/

namespace Bfte

/-- `RoundInvariantError`. -/
inductive RoundInvariantError where
  | pinnedMismatch
  deriving Repr, DecidableEq

/-- The variables of the loop of `check_round_end`. -/
structure RoundEnd (D S : Type) [LinearOrder D] where
  db : Db D S
  curRound : BlockRound
  newLastNotarizedRound : Option BlockRound

/-- Move on to the next round. -/
def RoundEnd.next {D S : Type} [LinearOrder D] (v : RoundEnd D S) : RoundEnd D S :=
  { v with curRound := v.curRound + 1 }

/-- How one turn of the loop ends: with the next round, or for good. -/
inductive Turn (D S : Type) [LinearOrder D] where
  | next (v : RoundEnd D S)
  | done (needsATimeout : Bool)

namespace Consensus

variable {D S : Type} [LinearOrder D] [Hashing D]

/-- The pin on the round just left. -/
def checkPin (db : Db D S) (start curRound : BlockRound) :
    Outcome RoundInvariantError Unit :=
  if start = curRound then .ok ()
  else
    match db.getPinnedBlock (curRound - 1) with
    | some pinned => Outcome.ensure
        (some pinned = (db.getNotarizedBlock (curRound - 1)).map Hashing.blockHash)
        .pinnedMismatch
    | none => .ok ()

/-- The body of the loop of `check_round_end`, up to `next_expect`. -/
def roundEndTurn (start : BlockRound) (highest : Option (BlockHeader D))
    (v : RoundEnd D S) : Outcome RoundInvariantError (Turn D S) := do
  checkPin v.db start v.curRound
  if highest.any (fun h => v.curRound ≤ h.round) then
    return .next { v with newLastNotarizedRound := some v.curRound }
  else
    let params ← v.db.getConsensusParams v.curRound
    let numPeers ← params.numPeers
    let proposal ← v.db.getProposal v.curRound
    if proposal.isSome ∧
        numPeers.threshold ≤ v.db.getNumVotesProposal v.curRound then
      let proposal ← Outcome.expect proposal "proposal"
      let (db, _) ← v.db.insertNotarizedBlock v.curRound proposal none
      return .next { v with
        db := db
        newLastNotarizedRound := some v.curRound }
    else if numPeers.threshold ≤ v.db.getNumVotesDummy v.curRound then
      return .next v
    else
      let leader ← params.leaderIdx v.curRound
      return .done (proposal.isSome ||
        decide (numPeers.maxFaulty < v.db.getNumVotesDummy v.curRound) ||
        (v.db.getVoteDummy v.curRound leader).isSome)

/-- The loop of `check_round_end`, with the number of rounds left. -/
def roundEndLoop (start : BlockRound) (highest : Option (BlockHeader D)) :
    ℕ → RoundEnd D S → Outcome RoundInvariantError (RoundEnd D S × Bool)
  | 0, v => do
      let turn ← roundEndTurn start highest v
      match turn with
      | .done needsATimeout => return (v, needsATimeout)
      | .next _ => Outcome.crash "Can't run out of u64 rounds"
  | left + 1, v => do
      let turn ← roundEndTurn start highest v
      match turn with
      | .done needsATimeout => return (v, needsATimeout)
      | .next v' => roundEndLoop start highest left v'.next

/-- The hook on `current_round_with_timeout_tx`. -/
def sendCurrentRound (c : Consensus D S) (curRound : BlockRound)
    (needsATimeout : Bool) : Consensus D S :=
  if c.currentRoundWithTimeout = (curRound, true) then c
  else { c with currentRoundWithTimeout := (curRound, needsATimeout) }

/-- Publish the own finality vote, the round after the last one notarized. -/
def updateFinalitySelfVote (c : Consensus D S) (curRound : BlockRound) :
    Option BlockRound → Outcome RoundInvariantError (Consensus D S)
  | none => .ok c
  | some last => do
      let finalitySelfVote ← BlockRound.nextExpect last
      let c := c.sendFinalitySelfVote finalitySelfVote
      match c.ourPeerPubkey with
      | none => return c
      | some k => c.updatePeerFinalityVoteRound curRound k finalitySelfVote

/-- The current round is written only if it has changed. -/
def advanceRound (db : Db D S) (start curRound : BlockRound) : Db D S :=
  if start = curRound then db else db.setCurrentRound curRound

/-- `check_round_end`. -/
def checkRoundEnd (c : Consensus D S) (start : BlockRound) :
    Outcome RoundInvariantError (Consensus D S) := do
  let highest := c.db.getPrevNotarizedBlock BlockRound.MAX
  let (v, needsATimeout) ← roundEndLoop start highest (BlockRound.MAX - start)
    ⟨c.db, start, none⟩
  let c ← updateFinalitySelfVote
    { c with db := advanceRound v.db start v.curRound }
    v.curRound v.newLastNotarizedRound
  if v.curRound = start ∧ needsATimeout = false then
    return c
  else
    return c.sendCurrentRound v.curRound needsATimeout

end Consensus

end Bfte
