import Bfte.Proofs.RoundReach

/-!
# Rounds that could be ended

After a transaction nothing that is stored should end the current round. The round
check sees to that, except in two cases. A proposal that comes in after its leader's
own vote for it is stored, and then the call returns without a round check, however
many votes the proposal has. And a block of the last round number there is goes
unseen by every round check.
-/

namespace Bfte

namespace Consensus

variable {D S : Type} [LinearOrder D]

/-- The stored proposal has enough votes, or enough peers have given up, or a block
of this or a later round is notarized. -/
def Finishable (db : Db D S) : Prop :=
  ((db.getConsensusParams db.getCurrentRound : Outcome Empty _).Returns
    fun params =>
      (db.consBlocksProposals.get? db.getCurrentRound).isSome = true ∧
          (NumPeers.mk params.peers.len).threshold ≤
            db.getNumVotesProposal db.getCurrentRound ∨
        (NumPeers.mk params.peers.len).threshold ≤
          db.getNumVotesDummy db.getCurrentRound) ∨
    ∃ r b, db.getCurrentRound ≤ r ∧ db.consBlocksNotarized.get? r = some b

variable [Hashing D]

theorem Idle.not_finishable {db : Db D S} (hidle : Idle db)
    (hbounded : BoundedInv db) : ¬ Finishable db := by
  rintro (hvotes | ⟨r, b, hle, hb⟩)
  · obtain ⟨params, hparams, _, hfew, hfewDummy⟩ := hidle
    rw [hparams] at hvotes
    rcases hvotes with ⟨hprop, henough⟩ | henough
    · exact absurd henough (not_le.mpr (hfew hprop))
    · exact absurd henough (not_le.mpr hfewDummy)
  · exact absurd hle (not_le.mpr (hbounded.lt_cur hb))

section Runs

variable [DecidableEq S] [Signing D S]

/-- The op completes no proposal unseen, and takes no block unseen. -/
def Seen (c : Consensus D S) (op : ConsensusOp D S) : Prop :=
  NotCompleting c op ∧ BelowLast c op

instance (c : Consensus D S) (op : ConsensusOp D S) : Decidable (Seen c op) :=
  inferInstanceAs (Decidable (_ ∧ _))

/-- What makes a round stay unfinished for a reason. -/
structure SettledInv (c : Consensus D S) : Prop extends BoundedInv c.db where
  params : ParamsInv c
  idle : Idle c.db

theorem step_settledInv [CollisionFree D] (c : Consensus D S)
    (op : ConsensusOp D S) (hinv : SettledInv c) (hg : Seen c op) :
    SettledInv (c.step op) where
  toBoundedInv := step_boundedInv c op hinv.toBoundedInv hg.2
  params := step_paramsInv c op hinv.toRoundInv hinv.params
  idle := step_idle c op hinv.toRoundInv hinv.params hinv.idle hg.1

/-- In every run whose ops the round check sees, nothing stored ends the current
round. -/
theorem not_finishable_of_seen [CollisionFree D] {params : ConsensusParams D}
    {k : Option PeerPubkey} {pinned : Option (BlockRound × D)}
    {c : Consensus D S} {ops : List (ConsensusOp D S)}
    (hinit : init params Db.empty k pinned = .ok c)
    (hops : Trail.Guarded step Seen c ops) : ¬ Finishable (c.run ops).db := by
  have hstart : SettledInv c :=
    ⟨(init_chainInv hinit).toBoundedInv, init_paramsInv hinit, init_idle hinit⟩
  have hinv : SettledInv (c.run ops) :=
    Trail.Guarded.invariant step_settledInv hstart hops
  exact hinv.idle.not_finishable hinv.toBoundedInv

end Runs

/-! ## Two peers and a proposal that comes last -/

section LastProposal

/-- The block of round 0 that peer 1 proposes. -/
def firstBlock : BlockHeader ListDigest := pairBlock none 0 [0]

theorem not_finishable_of_proposal_first : ∃ c : Consensus ListDigest PlainSig,
    init (plainParams [10, 11]) Db.empty (some 10) none = .ok c ∧
      ¬ Finishable (c.run [.vote 1 (.proposal (signedBy 11 firstBlock) [0]),
        .vote 0 (.vote (signedBy 10 firstBlock))]).db := by
  have hrun : (init (plainParams [10, 11]) (Db.empty : Db ListDigest PlainSig)
      (some 10) none).Returns fun c =>
        Trail.Guarded step Seen c
          [.vote 1 (.proposal (signedBy 11 firstBlock) [0]),
            .vote 0 (.vote (signedBy 10 firstBlock))] := by decide +kernel
  obtain ⟨c, hinit, hops⟩ := Outcome.returns_iff.mp hrun
  exact ⟨c, hinit, not_finishable_of_seen hinit hops⟩

/-- Both peers have voted for the block when peer 1 sends it as its proposal. -/
theorem proposal_last_unfinished :
    ¬ ∀ (c : Consensus ListDigest PlainSig)
        (ops : List (ConsensusOp ListDigest PlainSig)),
      init (plainParams [10, 11]) Db.empty (some 10) none = .ok c →
      (∀ op ∈ ops, op.IsMessage) → ¬ Finishable (c.run ops).db := by
  intro h
  have hrun : (init (plainParams [10, 11]) (Db.empty : Db ListDigest PlainSig)
      (some 10) none).Returns fun c =>
        let db := (c.run [.vote 0 (.vote (signedBy 10 firstBlock)),
          .vote 1 (.vote (signedBy 11 firstBlock)),
          .vote 1 (.proposal (signedBy 11 firstBlock) [0])]).db
        (db.getConsensusParams db.getCurrentRound : Outcome Empty _).Returns
          fun params =>
            (db.consBlocksProposals.get? db.getCurrentRound).isSome = true ∧
              (NumPeers.mk params.peers.len).threshold ≤
                db.getNumVotesProposal db.getCurrentRound := by decide +kernel
  obtain ⟨c, hinit, hfull⟩ := Outcome.returns_iff.mp hrun
  refine h c [.vote 0 (.vote (signedBy 10 firstBlock)),
    .vote 1 (.vote (signedBy 11 firstBlock)),
    .vote 1 (.proposal (signedBy 11 firstBlock) [0])] hinit
    (by simp [ConsensusOp.IsMessage]) (Or.inl ?_)
  obtain ⟨params, hparams, hvotes⟩ := Outcome.returns_iff.mp hfull
  exact Outcome.returns_iff.mpr ⟨params, hparams, Or.inl hvotes⟩

end LastProposal

end Consensus

end Bfte
