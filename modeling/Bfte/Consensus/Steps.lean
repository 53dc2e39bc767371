import Bfte.Consensus.Getters
import Bfte.Lib.Guarded

/-!
# Runs of one consensus

Everything that can happen to a `Consensus`: the three calls that deliver
messages, a change of params scheduled by the application layer, and a restart.
A call that fails or panics leaves the consensus as it was, because its
transaction is not committed.
-/

namespace Bfte

/-- Something that happens to a consensus. -/
inductive ConsensusOp (D S : Type) where
  | vote (peerIdx : PeerIdx) (resp : WaitVoteResponse D S)
  | notarized (resp : WaitNotarizedBlockResponse D S)
  | finality (k : PeerPubkey) (resp : WaitFinalityVoteResponse S)
  | paramsChange (round : BlockRound) (timestamp : Timestamp) (peers : PeerSet)
  | reopen

/-- The op is a call with a message. -/
def ConsensusOp.IsMessage {D S : Type} : ConsensusOp D S → Prop
  | .vote _ _ => True
  | .notarized _ => True
  | .finality _ _ => True
  | _ => False

namespace Consensus

variable {D S : Type} [LinearOrder D] [Hashing D] [DecidableEq S] [Signing D S]

/-- The state after a transaction: as it was, if the transaction failed. -/
def commit {ε : Type} (c : Consensus D S) (x : Outcome ε (Consensus D S)) :
    Consensus D S :=
  match x with
  | .ok c' => c'
  | .error _ => c

/-- One op. -/
def step (c : Consensus D S) : ConsensusOp D S → Consensus D S
  | .vote i resp => c.commit (c.processVoteResponseTx i resp)
  | .notarized resp => c.commit (c.processNotarizedBlockResponseTx resp)
  | .finality k resp => c.commit (c.processFinalityVoteUpdateResponseTx k resp)
  | .paramsChange round timestamp peers =>
      c.commit (c.consensusParamsChangeTx (ε := Empty) round timestamp peers)
  | .reopen => c.commit c.reopen

/-- A sequence of ops. -/
def run (c : Consensus D S) (ops : List (ConsensusOp D S)) : Consensus D S :=
  Trail.run step c ops

omit [LinearOrder D] [Hashing D] [DecidableEq S] [Signing D S] in
/-- What holds of a state and is kept by a transaction that commits holds
after the transaction, whether or not it does. -/
theorem commit_induct [LinearOrder D] {ε : Type} {P : Consensus D S → Prop}
    {c : Consensus D S} {x : Outcome ε (Consensus D S)} (hc : P c)
    (h : ∀ c', x = .ok c' → P c') : P (c.commit x) := by
  cases x with
  | ok c' => exact h c' rfl
  | error e => exact hc

end Consensus

end Bfte
