import Bfte.Proofs.OwnProposal

/-!
# When a consensus can be started

A new database is opened on params alone. Nothing is stored in it that could go wrong
but the peer set: it has to have a peer, to have a leader, and no more than a `u8` counts.
-/

namespace Bfte

namespace Consensus

variable {D S : Type} [LinearOrder D] [Hashing D]

/-- What `init` writes to a new database. -/
def initialDb (params : ConsensusParams D) (pinned : Option (BlockRound × D)) : Db D S :=
  insertPin ((Db.empty : Db D S).insertConsensusParams 0 params).1 pinned

theorem initTx_empty (params : ConsensusParams D) (pinned : Option (BlockRound × D)) :
    initTx (Db.empty : Db D S) params pinned = .ok (initialDb params pinned) := rfl

theorem initialDb_sameBlocks (params : ConsensusParams D)
    (pinned : Option (BlockRound × D)) :
    SameBlocks (Db.empty : Db D S) (initialDb params pinned) :=
  (insertConsensusParams_sameBlocks _ 0 params).trans (insertPin_sameBlocks _ pinned)

theorem initialDb_params {ε : Type} (params : ConsensusParams D)
    (pinned : Option (BlockRound × D)) (r : BlockRound) :
    ((initialDb params pinned : Db D S).getConsensusParams r : Outcome ε _) =
      .ok params := by
  have hsame : SameParams ((Db.empty : Db D S).insertConsensusParams 0 params).1
      (initialDb params pinned) := by
    unfold initialDb insertPin
    split <;> exact ⟨rfl, rfl⟩
  rw [hsame.getConsensusParams]
  exact Db.getConsensusParams_initial params r

omit [Hashing D] in
/-- Writing out the own finality vote comes to an end. -/
theorem writeFinalitySelfVote_returns {c : Consensus D S} {r v : BlockRound}
    {params : ConsensusParams D}
    (hparams : (c.db.getConsensusParams r : Outcome RoundInvariantError _) = .ok params)
    (hlen : params.peers.len ≤ 255) (hpos : params.peers.len ≠ 0) :
    ∃ c', c.writeFinalitySelfVote r v = .ok c' := by
  unfold writeFinalitySelfVote
  split
  · next k _ =>
      unfold updatePeerFinalityVoteRound
      dsimp only
      split
      · exact ⟨_, rfl⟩
      · exact recalculateFinalityConsensusTx_returns hparams hlen hpos
  · exact ⟨c, rfl⟩

section

variable {params : ConsensusParams D} {pinned : Option (BlockRound × D)} {c c₁ : Consensus D S}

/-- No block is notarized in a new database, with the own finality vote written out or not. -/
theorem initialDb_noBlock (hdb : c.db = initialDb params pinned) (hf : FinalityFrame c c₁)
    (r : BlockRound) : c₁.db.getPrevNotarizedBlock r = none := by
  unfold Db.getPrevNotarizedBlock
  rw [hf.sameBlocks.notarized, hdb, (initialDb_sameBlocks params pinned).notarized]
  rfl

/-- And nothing is in the way of the round check. -/
theorem initialDb_ready (hdb : c.db = initialDb params pinned) (hf : FinalityFrame c c₁)
    (hlen : params.peers.len ≤ 255) (hpos : params.peers.len ≠ 0) (r : BlockRound) :
    TurnReady c₁.db r ∧ Untouched c₁.db r := by
  have hproposals : c₁.db.consBlocksProposals.get? r = none := by
    rw [hf.sameBlocks.proposals, hdb, (initialDb_sameBlocks params pinned).proposals]
    rfl
  refine ⟨⟨⟨params, ?_, hlen, hpos⟩, fun p hp => ?_⟩, hproposals, ?_⟩
  · rw [hf.sameParams.getConsensusParams, hdb]
    exact initialDb_params params pinned r
  · rw [hproposals] at hp
    cases hp
  · refine List.length_eq_zero_iff.mpr (List.eq_nil_iff_forall_not_mem.mpr ?_)
    rintro ⟨i, sig⟩ hmem
    have hs := hf.dummy _ _ _ (mem_votesAt.mp hmem).1
    rw [hdb] at hs
    unfold initialDb at hs
    rw [(initTx_votes params pinned).2] at hs
    cases hs

end

theorem init_returns {params : ConsensusParams D} {k : Option PeerPubkey}
    {pinned : Option (BlockRound × D)} (hpos : params.peers.len ≠ 0)
    (hlen : params.peers.len ≤ 255) :
    ∃ c : Consensus D S, init params Db.empty k pinned = .ok c := by
  have hnone (r) : (initialDb params pinned : Db D S).getPrevNotarizedBlock r = none :=
    initialDb_noBlock (c := fresh (initialDb params pinned) k Trace.empty 0) rfl (.refl _) r
  have hself : (finalitySelf (initialDb params pinned : Db D S) : Outcome OpenError _) =
      .ok 0 := by
    unfold finalitySelf
    rw [hnone]
  generalize hfresh : fresh (initialDb params pinned : Db D S) k Trace.empty 0 = c
  have hdb : c.db = initialDb params pinned := by
    rw [← hfresh]
    rfl
  have hparams : (c.db.getConsensusParams c.db.getCurrentRound :
      Outcome RoundInvariantError _) = .ok params := by
    rw [hdb]
    exact initialDb_params params pinned _
  obtain ⟨c₁, hwrite⟩ := writeFinalitySelfVote_returns (v := c.finalitySelfVote)
    hparams hlen hpos
  have hf := writeFinalitySelfVote_frame hwrite
  obtain ⟨hready, huntouched⟩ := initialDb_ready hdb hf hlen hpos c.db.getCurrentRound
  obtain ⟨b, hdone⟩ := huntouched.turn_done (v := ⟨c₁.db, c.db.getCurrentRound, none⟩)
    c.db.getCurrentRound (c₁.db.getPrevNotarizedBlock BlockRound.MAX) hready
    (fun b hb => by
      rw [initialDb_noBlock hdb hf] at hb
      cases hb) (if_pos rfl)
  obtain ⟨c', hcheck⟩ := checkRoundEnd_returns (roundEndLoop_of_done hdone _) hready nofun
  refine ⟨c', ?_⟩
  unfold init
  rw [Outcome.bind_of_ok (initTx_empty params pinned)]
  unfold openInternal
  rw [Outcome.bind_of_ok hself, hfresh, Outcome.expectOk_eq_ok]
  exact (Outcome.bind_of_ok hwrite).trans hcheck

/-- A new database is opened just when its params have a peer and not too many. -/
theorem init_returns_iff {params : ConsensusParams D} {k : Option PeerPubkey}
    {pinned : Option (BlockRound × D)} :
    (∃ c : Consensus D S, init params Db.empty k pinned = .ok c) ↔
      params.peers.len ≠ 0 ∧ params.peers.len ≤ 255 := by
  refine ⟨?_, fun ⟨hpos, hlen⟩ => init_returns hpos hlen⟩
  rintro ⟨c, h⟩
  obtain ⟨_, _, _, hv⟩ := init_closed h
  obtain ⟨p, hp, hlen, _, hfew⟩ := hv.idle
  rw [init_scheduled h] at hp
  cases hp
  exact ⟨NumPeers.total_ne_zero hfew, hlen⟩

end Consensus

end Bfte
