import Bfte.Proofs.Chain
import Bfte.Proofs.FinalityVotes
import Bfte.Proofs.Votes

/-!
# What a restart shows

Opening derives from the tables what the running consensus keeps in its
channels: the round, the finality consensus, and the own finality vote. The two
agree as long as four things hold. No block is received late, because the round
check looks only for blocks from the current round on and leaves the own vote on
the channel alone otherwise. Each recount of the finality consensus finds enough
votes, because a lower value is stored but not shown. Nobody but the round check
writes the own finality vote. And a proposal is not the last missing part of a
notarization: where the leader's vote for it is stored already, the round check is
left out, and opening runs it.

`Idle` says that nothing ends the current round, which is what the round check
leaves behind; on an idle database opening changes nothing.
-/

namespace Bfte

namespace Consensus

variable {D S : Type} [LinearOrder D]

/-- The round after the highest notarized block. -/
def afterHighest (db : Db D S) : BlockRound :=
  ((db.consBlocksNotarized.lastUpTo BlockRound.MAX).map fun e => e.1 + 1).getD 0

/-- What other tasks and other peers see of a consensus. -/
def published (c : Consensus D S) : BlockRound × BlockRound × BlockRound :=
  (c.currentRoundWithTimeout.1, c.finalityConsensus, c.finalitySelfVote)

/-- A restart shows what was shown before it, and the own finality vote is the
one the tables call for. -/
def Transparent [Hashing D] (c : Consensus D S) : Prop :=
  (c.reopen.Returns fun c' => c'.published = c.published) ∧
    c.finalitySelfVote = afterHighest c.db

instance [Hashing D] (c : Consensus D S) : Decidable (Transparent c) :=
  inferInstanceAs (Decidable (_ ∧ _))

/-! ## The highest block -/

/-- With no block of the last round number, the round check sees the highest. -/
theorem afterHighest_eq {db : Db D S} {r : BlockRound}
    (hkey : ∀ r h, db.consBlocksNotarized.get? r = some h → h.round = r)
    (hr : ∀ k b, db.consBlocksNotarized.get? k = some b → k < r)
    (hmax : r ≤ BlockRound.MAX) : afterHighest db =
      ((db.getPrevNotarizedBlock r).map fun b => b.round + 1).getD 0 := by
  unfold afterHighest
  cases hprev : db.getPrevNotarizedBlock r with
  | none =>
      have hnone := getPrevNotarizedBlock_eq_none.mp hprev
      have hlast : db.consBlocksNotarized.lastUpTo BlockRound.MAX = none := by
        refine SortedTable.lastUpTo_eq_none.mpr fun k b hb => ?_
        exact absurd (hnone k b hb) (not_le.mpr (hr k b hb))
      rw [hlast]
      rfl
  | some b =>
      obtain ⟨hb, hlt, htop⟩ := (getPrevNotarizedBlock_eq_some hkey).mp hprev
      have hlast : db.consBlocksNotarized.lastUpTo BlockRound.MAX =
          some (b.round, b) := by
        refine SortedTable.lastUpTo_eq_some.mpr ⟨hb, hlt.le.trans hmax, ?_⟩
        exact fun k v hv _ => htop k v hv (hr k v hv)
      rw [hlast]
      rfl

theorem BoundedInv.afterHighest_eq [Hashing D] {db : Db D S}
    (h : BoundedInv db) : afterHighest db =
      ((db.getPrevNotarizedBlock db.getCurrentRound).map
        fun b => b.round + 1).getD 0 :=
  Consensus.afterHighest_eq h.round_eq (fun _ _ hb => h.lt_cur hb) h.cur_le

variable [Hashing D]

/-- The round check leaves the own vote where the tables call for it, unless the
highest block is of an earlier round and was not shown. -/
theorem Closed.self_eq {c c' : Consensus D S} {v : RoundEnd D S}
    (h : Closed c v c') (hinv : BlockInv c.db)
    (hbounded : ∀ r b, c.db.consBlocksNotarized.get? r = some b →
      r < BlockRound.MAX)
    (hself : (∀ b ∈ c.db.getPrevNotarizedBlock BlockRound.MAX,
      b.round < c.db.getCurrentRound) → c.finalitySelfVote = afterHighest c.db) :
    c'.finalitySelfVote = afterHighest c'.db := by
  have hafter := Consensus.afterHighest_eq hinv.round_eq hbounded (le_refl _)
  rw [h.ended.self]
  unfold afterHighest
  rw [h.notarized_eq]
  have hn := h.loop.notarizes
  generalize v.newLastNotarizedRound = last at hn
  generalize v.db = vdb at hn
  cases hn with
  | nothing below => exact hself below
  | received b hb hle =>
      show b.round + 1 = afterHighest c.db
      rw [hafter, hb]
      rfl
  | voted params p below hlt =>
      have hlast : (c.db.consBlocksNotarized.insert c.db.getCurrentRound
          p).lastUpTo BlockRound.MAX = some (c.db.getCurrentRound, p) := by
        refine SortedTable.lastUpTo_eq_some.mpr
          ⟨SortedTable.get?_insert_self _ _ _, hlt.le, fun k b hb _ => ?_⟩
        rcases SortedTable.get?_insert_eq_some hb with ⟨heq, _⟩ | hold
        · exact heq.le
        · obtain ⟨b', hb', hle⟩ :=
            notarized_le_highest hinv.round_eq hold (hbounded k b hold)
          exact hle.trans (below b' hb').le
      show c.db.getCurrentRound + 1 = (((c.db.consBlocksNotarized.insert
        c.db.getCurrentRound p).lastUpTo BlockRound.MAX).map
          fun e => e.1 + 1).getD 0
      rw [hlast]
      rfl

/-! ## Nothing ends the round -/

/-- The current round has neither enough votes for its proposal nor enough dummy
votes. -/
def Idle (db : Db D S) : Prop :=
  ∃ params, (db.getConsensusParams db.getCurrentRound : Outcome Empty _) =
      .ok params ∧
    params.peers.len ≤ 255 ∧
    ((db.consBlocksProposals.get? db.getCurrentRound).isSome = true →
      db.getNumVotesProposal db.getCurrentRound <
        (NumPeers.mk params.peers.len).threshold) ∧
    db.getNumVotesDummy db.getCurrentRound <
      (NumPeers.mk params.peers.len).threshold

omit [LinearOrder D] [Hashing D] in
/-- Fewer peers have a vote, fewer votes are counted. -/
theorem votesAt_length_le {V : Type} {t t' : SortedTable VoteKey V}
    {r : BlockRound} (h : ∀ i, (t'.get? (voteKey r i)).isSome = true →
      (t.get? (voteKey r i)).isSome = true) :
    (votesAt t' r).length ≤ (votesAt t r).length := by
  have hlen : ∀ t : SortedTable VoteKey V,
      (votesAt t r).length = ((votesAt t r).map Prod.fst).length :=
    fun t => (List.length_map Prod.fst).symm
  rw [hlen t', hlen t]
  refine (votesAt_nodup t' r).length_le_of_subset fun i hi => ?_
  obtain ⟨⟨_, v⟩, hmem, rfl⟩ := List.mem_map.mp hi
  obtain ⟨hget, hle⟩ := mem_votesAt.mp hmem
  obtain ⟨w, hw⟩ := Option.isSome_iff_exists.mp (h _ (by rw [hget]; rfl))
  exact List.mem_map.mpr ⟨(_, w), mem_votesAt.mpr ⟨hw, hle⟩, rfl⟩

omit [Hashing D] in
theorem Idle.mono {db db' : Db D S} (h : Idle db)
    (hcur : db'.getCurrentRound = db.getCurrentRound)
    (hparams : ∀ p : ConsensusParams D,
      (db.getConsensusParams db.getCurrentRound : Outcome Empty _) = .ok p →
      (db'.getConsensusParams db.getCurrentRound : Outcome Empty _) = .ok p)
    (hprop : db'.consBlocksProposals = db.consBlocksProposals)
    (hvotes : ∀ i, (db'.getVoteBlock db.getCurrentRound i).isSome = true →
      (db.getVoteBlock db.getCurrentRound i).isSome = true)
    (hdummy : ∀ i, (db'.getVoteDummy db.getCurrentRound i).isSome = true →
      (db.getVoteDummy db.getCurrentRound i).isSome = true) : Idle db' := by
  obtain ⟨params, hp, hlen, hfew, hfewDummy⟩ := h
  unfold Idle
  rw [hcur, hprop]
  refine ⟨params, hparams params hp, hlen, fun hsome => ?_, ?_⟩
  · exact lt_of_le_of_lt (votesAt_length_le hvotes) (hfew hsome)
  · exact lt_of_le_of_lt (votesAt_length_le hdummy) hfewDummy

omit [Hashing D] in
theorem FinalityFrame.idle {c c' : Consensus D S} (h : FinalityFrame c c')
    (hidle : Idle c.db) : Idle c'.db := by
  refine hidle.mono h.sameBlocks.getCurrentRound ?_ h.sameBlocks.proposals ?_ ?_
  · intro p hp
    rw [h.sameParams.getConsensusParams]
    exact hp
  · intro i hi
    rw [h.db] at hi
    exact hi
  · intro i hi
    obtain ⟨sig, hs⟩ := Option.isSome_iff_exists.mp hi
    exact Option.isSome_iff_exists.mpr ⟨sig, h.dummy _ _ _ hs⟩

/-- New params for a later round leave the current one idle. -/
theorem Idle.insertConsensusParams [CollisionFree D] {db : Db D S}
    {r : BlockRound} {new : ConsensusParams D} (hidle : Idle db)
    (hhash : ∀ h p, db.consParams.get? h = some p → Hashing.paramsHash p = h)
    (hr : db.getCurrentRound < r) : Idle (db.insertConsensusParams r new).1 := by
  have hsame := insertConsensusParams_sameBlocks db r new
  have hvotes := insertConsensusParams_votes db r new
  refine hidle.mono hsame.getCurrentRound ?_ hsame.proposals ?_ ?_
  · intro p hp
    exact getConsensusParams_insert hhash hr hp
  · intro i hi
    unfold Db.getVoteBlock at hi
    rw [hvotes.1] at hi
    exact hi
  · intro i hi
    unfold Db.getVoteDummy at hi
    rw [hvotes.2] at hi
    exact hi

/-- The round check stops in a round that nothing ends. -/
theorem Closed.idle {c c' : Consensus D S} {v : RoundEnd D S}
    (h : Closed c v c') : Idle c'.db := by
  obtain ⟨b, hdone⟩ := h.settled
  have hended := h.ended
  cases hdone with
  | settled params _ above hparams hlen hvotes hdummy =>
      unfold Idle
      rw [h.curRound]
      refine ⟨params, ?_, hlen, fun hsome => ?_, ?_⟩
      · have hsame : SameParams v.db c'.db := by
          rw [hended.db]
          exact ⟨rfl, rfl⟩
        rw [hsame.getConsensusParams]
        exact Db.getConsensusParams_cast hparams
      · rw [hended.db] at hsome ⊢
        exact hvotes hsome
      · refine lt_of_le_of_lt (votesAt_length_le fun i hi => ?_) hdummy
        obtain ⟨sig, hsig⟩ := Option.isSome_iff_exists.mp hi
        rw [hended.dummy _ _ _ hsig]
        rfl

theorem roundEndTurn_of_idle {db : Db D S} (hinv : RoundInv db)
    (h : Idle db) : ∃ b, roundEndTurn db.getCurrentRound
      (db.getPrevNotarizedBlock BlockRound.MAX) ⟨db, db.getCurrentRound, none⟩ =
        .ok (.done b) := by
  obtain ⟨params, hparams, hlen, hvotes, hdummy⟩ := h
  have hpos : params.peers.len ≠ 0 := NumPeers.total_ne_zero hdummy
  have habove : ¬ (db.getPrevNotarizedBlock BlockRound.MAX).any
      (fun b => decide (db.getCurrentRound ≤ b.round)) = true := by
    intro hany
    obtain ⟨b, hb, hle⟩ := (Option.any_eq_true _ _).mp hany
    obtain ⟨hget, hlt, _⟩ := (getPrevNotarizedBlock_eq_some hinv.round_eq).mp hb
    rcases hinv.behind _ _ hget with hbehind | hmax
    · exact absurd (of_decide_eq_true hle) (not_le.mpr hbehind)
    · exact absurd hlt (not_lt.mpr hmax)
  have hfew : ¬ ((db.consBlocksProposals.get? db.getCurrentRound).isSome =
      true ∧ (NumPeers.mk params.peers.len).threshold ≤
        db.getNumVotesProposal db.getCurrentRound) := fun hboth =>
    absurd (hvotes hboth.1) (not_lt.mpr hboth.2)
  apply Exists.intro
  simp only [roundEndTurn, checkPin, if_true, if_neg habove, Outcome.bind_eq_ok]
  refine ⟨(), trivial, params, Db.getConsensusParams_cast hparams, _,
    ConsensusParams.numPeers_eq_ok.mpr ⟨hlen, rfl⟩, _,
    Db.getProposal_eq_ok.mpr ⟨rfl, fun p hp => (hinv.proposal _ p hp).1⟩, ?_⟩
  rw [if_neg hfew, if_neg (not_le.mpr hdummy)]
  exact Outcome.bind_eq_ok.mpr
    ⟨_, ConsensusParams.leaderIdx_eq_ok.mpr ⟨hlen, hpos, rfl⟩, rfl⟩

/-- On an idle database the round check changes nothing but the timeout. -/
theorem checkRoundEnd_of_idle {c : Consensus D S} (hinv : RoundInv c.db)
    (h : Idle c.db) : ∃ c', c.checkRoundEnd c.db.getCurrentRound = .ok c' ∧
      (c' = c ∨ c' = c.sendCurrentRound c.db.getCurrentRound true) := by
  obtain ⟨b, hturn⟩ := roundEndTurn_of_idle hinv h
  have hloop : ∀ left, roundEndLoop c.db.getCurrentRound
      (c.db.getPrevNotarizedBlock BlockRound.MAX) left
      ⟨c.db, c.db.getCurrentRound, none⟩ =
        .ok (⟨c.db, c.db.getCurrentRound, none⟩, b) := by
    intro left
    cases left <;> exact Outcome.bind_eq_ok.mpr ⟨_, hturn, rfl⟩
  have hself : updateFinalitySelfVote
      { c with
        db := advanceRound c.db c.db.getCurrentRound c.db.getCurrentRound }
      c.db.getCurrentRound none = .ok c := by
    rw [advanceRound, if_pos rfl]
    rfl
  cases b with
  | false =>
      refine ⟨c, ?_, Or.inl rfl⟩
      refine Outcome.bind_eq_ok.mpr ⟨_, hloop _, ?_⟩
      refine Outcome.bind_eq_ok.mpr ⟨_, hself, ?_⟩
      rw [if_pos ⟨rfl, rfl⟩]
      rfl
  | true =>
      refine ⟨_, ?_, Or.inr rfl⟩
      refine Outcome.bind_eq_ok.mpr ⟨_, hloop _, ?_⟩
      refine Outcome.bind_eq_ok.mpr ⟨_, hself, ?_⟩
      rw [if_neg (by simp)]
      rfl

/-! ## The own finality vote -/

/-- The vote that is counted for this peer is the one on the channel. -/
def OwnVote (c : Consensus D S) : Prop :=
  ∀ k, c.ourPeerPubkey = some k →
    c.db.getFinalityVote k = some c.finalitySelfVote

omit [Hashing D] in
theorem recalculateFinalityConsensusTx_votes {ε : Type} {c c' : Consensus D S}
    {r : BlockRound}
    (h : (c.recalculateFinalityConsensusTx r : Outcome ε _) = .ok c') :
    c'.db.consFinalityVotes = c.db.consFinalityVotes := by
  obtain ⟨params, computed, shown, _, _, _, rfl, ⟨_, rfl⟩ | rfl⟩ :=
    recalculateFinalityConsensusTx_ok h
  · rfl
  · rfl

omit [Hashing D] in
theorem updatePeerFinalityVoteRound_votes {ε : Type} {c c' : Consensus D S}
    {r v : BlockRound} {k : PeerPubkey}
    (h : (c.updatePeerFinalityVoteRound r k v : Outcome ε _) = .ok c') :
    c'.db.consFinalityVotes = c.db.consFinalityVotes.insert k v := by
  simp only [updatePeerFinalityVoteRound] at h
  split at h
  · cases h
    rfl
  · exact recalculateFinalityConsensusTx_votes h

omit [Hashing D] in
/-- Writing out the vote of the channel makes it the one that is counted. -/
theorem ownVote_of_update {ε : Type} {c c' : Consensus D S} {r : BlockRound}
    {k : PeerPubkey} (hk : c.ourPeerPubkey = some k)
    (h : (c.updatePeerFinalityVoteRound r k c.finalitySelfVote :
      Outcome ε _) = .ok c') : OwnVote c' := by
  have hf := updatePeerFinalityVoteRound_frame h
  intro k' hk'
  rw [hf.key, hk] at hk'
  cases hk'
  unfold Db.getFinalityVote
  rw [updatePeerFinalityVoteRound_votes h, hf.self]
  exact SortedTable.get?_insert_self _ _ _

omit [Hashing D] in
theorem OwnVote.congr {c c' : Consensus D S} (h : OwnVote c)
    (hkey : c'.ourPeerPubkey = c.ourPeerPubkey)
    (hself : c'.finalitySelfVote = c.finalitySelfVote)
    (hvotes : c'.db.consFinalityVotes = c.db.consFinalityVotes) :
    OwnVote c' := by
  unfold OwnVote Db.getFinalityVote
  rw [hkey, hself, hvotes]
  exact h

theorem checkRoundEnd_ownVote {c c' : Consensus D S} {start : BlockRound}
    (hown : OwnVote c) (h : c.checkRoundEnd start = .ok c') : OwnVote c' := by
  simp only [checkRoundEnd, Outcome.bind_eq_ok] at h
  obtain ⟨⟨v, b⟩, hloop, c₁, hself, h⟩ := h
  have hvotes : (advanceRound v.db start v.curRound).consFinalityVotes =
      c.db.consFinalityVotes := by
    rw [← (roundEndLoop_finality hloop).votes]
    unfold advanceRound
    split <;> rfl
  have hc₁ : OwnVote c₁ := by
    cases hlast : v.newLastNotarizedRound with
    | none =>
        rw [hlast] at hself
        cases hself
        exact hown.congr rfl rfl hvotes
    | some last =>
        rw [hlast] at hself
        simp only [updateFinalitySelfVote, Outcome.bind_eq_ok,
          BlockRound.nextExpect_eq_ok] at hself
        obtain ⟨_, ⟨_, rfl⟩, hself⟩ := hself
        split at hself
        · next hnone =>
            cases hself
            intro k hk
            exact absurd (hnone.symm.trans hk) (by simp)
        · next k hk => exact ownVote_of_update hk hself
  split at h
  · cases h
    exact hc₁
  · cases h
    unfold sendCurrentRound
    split
    · exact hc₁
    · exact hc₁.congr rfl rfl rfl

/-- Opening writes the own vote out before the round check. -/
theorem openInternal_ownVote {ε : Type} {db : Db D S} {k : Option PeerPubkey}
    {trace : Trace} {c' : Consensus D S}
    (h : (openInternal db k trace : Outcome ε _) = .ok c') : OwnVote c' := by
  simp only [openInternal, openInternalTx, Outcome.bind_eq_ok,
    Outcome.expectOk_eq_ok] at h
  obtain ⟨fs, _, c₁, hwrite, hcheck⟩ := h
  refine checkRoundEnd_ownVote ?_ hcheck
  unfold writeFinalitySelfVote at hwrite
  split at hwrite
  · next k' hk => exact ownVote_of_update hk hwrite
  · next hnone =>
      cases hwrite
      intro k' hk
      exact absurd (hnone.symm.trans hk) (by simp)

/-! ## Opening an idle database -/

/-- What makes a restart show what was shown before. -/
structure RestartInv (c : Consensus D S) : Prop extends BoundedInv c.db where
  params : ParamsInv c
  started : ∃ p, (c.db.getConsensusParams 0 : Outcome Empty _) = .ok p
  idle : Idle c.db
  self : c.finalitySelfVote = afterHighest c.db
  own : OwnVote c

theorem finalitySelf_ok {ε : Type} {db : Db D S} (h : BoundedInv db) :
    (finalitySelf db : Outcome ε _) = .ok (afterHighest db) := by
  rw [h.afterHighest_eq]
  unfold finalitySelf
  split
  · next b hb =>
      rw [hb]
      have hget := h.prev_mem hb
      exact BlockRound.nextExpect_eq_ok.mpr ⟨h.bounded _ _ hget, rfl⟩
  · next hnone =>
      rw [hnone]
      rfl

omit [Hashing D] in
/-- A vote that is counted already is not counted again. -/
theorem writeFinalitySelfVote_of_ownVote {c : Consensus D S} {r : BlockRound}
    (h : OwnVote c) : c.writeFinalitySelfVote r c.finalitySelfVote = .ok c := by
  unfold writeFinalitySelfVote
  split
  · next k hk =>
      have hprev := h k hk
      have hvotes : c.db.consFinalityVotes.insert k c.finalitySelfVote =
          c.db.consFinalityVotes := by
        refine SortedTable.ext_get? fun k' => ?_
        rw [SortedTable.get?_insert]
        split
        · next heq =>
            rw [heq]
            exact hprev.symm
        · rfl
      have hsame : c.db.updateFinalityVote k c.finalitySelfVote = c.db := by
        unfold Db.updateFinalityVote
        rw [hvotes]
      unfold updatePeerFinalityVoteRound
      simp only [hprev, Option.any_some, le_refl, decide_true, if_true, hsame]
  · rfl

theorem RestartInv.transparent {c : Consensus D S} (h : RestartInv c)
    (hchannel : c.finalityConsensus = c.db.getFinalityConsensus.getD 0) :
    Transparent c := by
  refine ⟨Outcome.returns_iff.mpr ?_, h.self⟩
  obtain ⟨p, hp⟩ := h.started
  let c₁ := fresh c.db c.ourPeerPubkey c.trace c.finalitySelfVote
  have hown : OwnVote c₁ := h.own.congr rfl rfl rfl
  obtain ⟨c', hcheck, hcases⟩ := checkRoundEnd_of_idle (c := c₁) h.toRoundInv
    h.idle
  have hopen : (openInternal c.db c.ourPeerPubkey c.trace :
      Outcome OpenError _) = .ok c' := by
    simp only [openInternal, openInternalTx, Outcome.bind_eq_ok,
      Outcome.expectOk_eq_ok]
    refine ⟨_, finalitySelf_ok h.toBoundedInv, c₁, ?_, hcheck⟩
    rw [← h.self]
    exact writeFinalitySelfVote_of_ownVote hown
  refine ⟨c', ?_, ?_⟩
  · simp only [reopen, Outcome.bind_eq_ok, Outcome.ensure_eq_ok]
    obtain ⟨e, he, hget⟩ := Db.getConsensusParams_eq_ok.mp hp
    refine ⟨some p, Db.getConsensusParamsOpt_eq_ok.mpr ?_, (), rfl, hopen⟩
    exact Or.inr ⟨e, p, he, hget, rfl⟩
  · have hpublished : c₁.published = c.published := by
      unfold published
      rw [h.params.channel, hchannel]
      rfl
    rcases hcases with rfl | rfl
    · exact hpublished
    · rw [← hpublished]
      have hround := sendCurrentRound_round c₁ c₁.db.getCurrentRound true
      unfold published
      rw [hround]
      unfold sendCurrentRound
      split <;> rfl

/-! ## Messages -/

section Messages

variable [Signing D S] {db db' : Db D S}

/-- A message that repeats a stored vote leaves the round as idle as it was,
unless it brings the proposal the other votes were waiting for. -/
theorem VoteIntake.idle {params : ConsensusParams D} {i : PeerIdx}
    {resp : WaitVoteResponse D S} (h : VoteIntake db params i resp db')
    (hrep : Repeats (beforeVote db resp) i resp.block) (hidle : Idle db)
    (hparams : (db.getConsensusParams db.getCurrentRound : Outcome Empty _) =
      .ok params)
    (hfew : ∀ vote payload, resp = .proposal vote payload →
      db.getVoteBlock db.getCurrentRound i = some vote →
      (db.storeProposal db.getCurrentRound vote.inner payload).getNumVotesProposal
        db.getCurrentRound < (NumPeers.mk params.peers.len).threshold) :
    Idle db' := by
  cases h with
  | dummy vote hround hsig hdummy =>
      rcases hrep with ⟨_, hstored⟩ | ⟨hf, _⟩
      · refine hidle.mono rfl (fun _ hp => hp) rfl (fun _ hi => hi)
          fun j hj => ?_
        have hget : ((db.consVotesDummy.insert (voteKey db.getCurrentRound i)
          vote.sig).get? (voteKey db.getCurrentRound j)).isSome = true := hj
        exact SortedTable.isSome_get?_of_insert
          (Option.isSome_iff_exists.mpr ⟨_, hstored⟩) hget
      · rw [show (WaitVoteResponse.vote vote).block = vote from rfl,
          hdummy] at hf
        cases hf
  | block vote hround hsig hdummy =>
      rcases hrep with ⟨ht, _⟩ | ⟨_, e, hstored, _⟩
      · rw [show (WaitVoteResponse.vote vote).block = vote from rfl,
          hdummy] at ht
        cases ht
      · refine hidle.mono rfl (fun _ hp => hp) rfl (fun j hj => ?_)
          fun _ hi => hi
        have hget : ((db.consVotesBlock.insert (voteKey db.getCurrentRound i)
          vote).get? (voteKey db.getCurrentRound j)).isSome = true := hj
        exact SortedTable.isSome_get?_of_insert
          (Option.isSome_iff_exists.mpr ⟨_, hstored⟩) hget
  | proposal vote payload hround hsig hdummy hleader hfits hext hnone =>
      obtain ⟨params', hp, hlen, _, hfewDummy⟩ := hidle
      rw [hparams] at hp
      cases hp
      rcases hrep with ⟨ht, _⟩ | ⟨_, e, hstored, hesig⟩
      · rw [show (WaitVoteResponse.proposal vote payload).block = vote from rfl,
          hdummy] at ht
        cases ht
      · have hmax : i < PeerIdx.MAX := lt_of_lt_of_le hsig.lt_len hlen
        obtain ⟨hold, hinner⟩ := Db.get?_retainVotesFor.mp hstored
        have heq : e = vote := by
          obtain ⟨inner, sig⟩ := e
          cases hesig
          cases hinner rfl hmax
          rfl
        have hlt := hfew vote payload rfl (by rw [← heq]; exact hold)
        refine ⟨params, hparams, hlen, fun _ => ?_, hfewDummy⟩
        refine lt_of_le_of_lt (votesAt_length_le fun j hj => ?_) hlt
        rw [show ((db.storeProposal db.getCurrentRound vote.inner
          payload).insertBlockVote db.getCurrentRound i vote).1.consVotesBlock =
            (db.storeProposal db.getCurrentRound vote.inner
              payload).consVotesBlock.insert (voteKey db.getCurrentRound i) vote
            from rfl, SortedTable.get?_insert] at hj
        split at hj
        · next hkey =>
            rw [hkey]
            exact Option.isSome_iff_exists.mpr ⟨_, hstored⟩
        · exact hj

end Messages

/-! ## Runs -/

section Runs

variable [DecidableEq S] [Signing D S]

/-- The op brings no proposal whose leader's vote is stored already, with as many
votes as it takes: such a proposal is stored, and the round check is left out. -/
def NotCompleting (c : Consensus D S) : ConsensusOp D S → Prop
  | .vote i (.proposal vote payload) =>
      (c.db.getConsensusParams c.db.getCurrentRound : Outcome Empty _).WhenOk
        fun params =>
          checkProposal c.db c.db.getCurrentRound params i vote.inner payload =
            .ok () →
          c.db.consBlocksProposals.get? c.db.getCurrentRound = none →
          c.db.getVoteBlock c.db.getCurrentRound i = some vote →
          (c.db.storeProposal c.db.getCurrentRound vote.inner
            payload).getNumVotesProposal c.db.getCurrentRound <
              (NumPeers.mk params.peers.len).threshold
  | _ => True

instance (c : Consensus D S) (op : ConsensusOp D S) :
    Decidable (NotCompleting c op) :=
  match op with
  | .vote _ (.proposal _ _) => inferInstanceAs (Decidable (Outcome.WhenOk _ _))
  | .vote _ (.vote _) => .isTrue trivial
  | .notarized _ => .isTrue trivial
  | .finality _ _ => .isTrue trivial
  | .paramsChange _ _ _ => .isTrue trivial
  | .reopen => .isTrue trivial

/-- The op leaves nothing for opening to find: no block is taken late, no
proposal completes votes that include its leader's, and the own finality vote is
not received as a message. -/
def Accounted (c : Consensus D S) : ConsensusOp D S → Prop
  | .notarized resp => resp.block.inner.isDummy = false →
      checkNotarized c.db resp = .ok () → Takes c.db resp.block.inner →
      c.db.getCurrentRound ≤ resp.block.inner.round ∧
        resp.block.inner.round < BlockRound.MAX
  | .vote i resp => NotCompleting c (.vote i resp)
  | .finality k _ => c.ourPeerPubkey ≠ some k
  | _ => True

instance (c : Consensus D S) (op : ConsensusOp D S) : Decidable (Accounted c op) :=
  match op with
  | .notarized _ => inferInstanceAs (Decidable (_ → _))
  | .vote i resp => inferInstanceAs (Decidable (NotCompleting c (.vote i resp)))
  | .finality _ _ => inferInstanceAs (Decidable (_ ≠ _))
  | .paramsChange _ _ _ => .isTrue trivial
  | .reopen => .isTrue trivial

omit [DecidableEq S] in
/-- The proposal was checked before it was stored. -/
theorem VoteIntake.checked {db db' : Db D S} {params : ConsensusParams D}
    {i : PeerIdx} {vote : Signed D S} {payload : BlockPayloadRaw}
    (h : VoteIntake db params i (.proposal vote payload) db')
    (hlen : params.peers.len ≤ 255) (hpos : params.peers.len ≠ 0) :
    checkProposal db db.getCurrentRound params i vote.inner payload = .ok () ∧
      db.consBlocksProposals.get? db.getCurrentRound = none := by
  cases h with
  | proposal _ _ hround hsig hdummy hleader hfits hext hnone =>
      refine ⟨?_, hnone⟩
      simp only [checkProposal, Outcome.bind_eq_ok,
        ConsensusParams.leaderIdx_eq_ok, Outcome.ensure_eq_ok,
        Outcome.mapErr_eq_ok, BlockHeader.verifyWithContent_eq_ok]
      exact ⟨_, ⟨hlen, hpos, rfl⟩, (), hleader.symm, (), hdummy, (), hfits, hext⟩

omit [DecidableEq S] in
theorem Accounted.notCompleting {c : Consensus D S} {op : ConsensusOp D S}
    (h : Accounted c op) : NotCompleting c op := by
  cases op with
  | vote => exact h
  | _ => trivial

/-- An op that completes no proposal leaves a round that nothing ends. -/
theorem step_idle [CollisionFree D] (c : Consensus D S) (op : ConsensusOp D S)
    (hround : RoundInv c.db) (hparams : ParamsInv c) (hidle : Idle c.db)
    (hg : NotCompleting c op) : Idle (c.step op).db := by
  have hcase := step_cases c op
  generalize c.step op = c' at hcase
  cases hcase with
  | same => exact hidle
  | vote i resp params db _ hp hin hcounted =>
      rcases hcounted with ⟨hrep, rfl⟩ | ⟨_, hcheck⟩
      · have hp' : (c.db.getConsensusParams c.db.getCurrentRound :
          Outcome Empty _) = .ok params := Db.getConsensusParams_cast hp
        refine hin.idle hrep hidle hp' ?_
        rintro vote payload rfl hstored
        obtain ⟨params', hp'', hlen, _, hfew⟩ := hidle
        rw [hp'] at hp''
        cases hp''
        have hpos : params.peers.len ≠ 0 := NumPeers.total_ne_zero hfew
        obtain ⟨hchecked, hnone⟩ := hin.checked hlen hpos
        exact Outcome.whenOk_iff.mp hg params hp' hchecked hnone hstored
      · rw [← hin.curRound] at hcheck
        obtain ⟨v, hv⟩ := checkRoundEnd_closed (hin.roundInv hround).toBlockInv hcheck
        exact hv.idle
  | notarized resp params db _ hok hver hin hcheck =>
      rw [← hin.curRound] at hcheck
      obtain ⟨v, hv⟩ := checkRoundEnd_closed (hin.blockInv hround.toBlockInv) hcheck
      exact hv.idle
  | finality k resp _ hsig hupdate =>
      exact (updatePeerFinalityVoteRound_frame hupdate).idle hidle
  | paramsChange round timestamp peers cur new hcur hnew hlt =>
      rw [hparams.channel] at hlt
      exact hidle.insertConsensusParams hparams.hash hlt
  | reopen _ hopen =>
      obtain ⟨_, _, _, hv⟩ := openInternal_closed hround.toBlockInv hopen
      exact hv.idle

/-- The params of round 0 stay. -/
theorem step_started [CollisionFree D] (c : Consensus D S)
    (op : ConsensusOp D S) (hinv : RestartInv c) :
    ∃ p, ((c.step op).db.getConsensusParams 0 : Outcome Empty _) = .ok p := by
  obtain ⟨p, hp⟩ := hinv.started
  exact ⟨p, step_getConsensusParams c op hinv.toRoundInv hinv.params
    (Nat.zero_le _) hp⟩

theorem step_restartInv [CollisionFree D] (c : Consensus D S)
    (op : ConsensusOp D S) (hinv : RestartInv c) (hg : Accounted c op) :
    RestartInv (c.step op) := by
  have hparams := step_paramsInv c op hinv.toRoundInv hinv.params
  have hstarted := step_started c op hinv
  have hidle := step_idle c op hinv.toRoundInv hinv.params hinv.idle hg.notCompleting
  have hcase := step_cases c op
  generalize c.step op = c' at hcase hparams hstarted hidle
  cases hcase with
  | same => exact hinv
  | vote i resp params db _ hp hin hcounted =>
      have hbounded := hin.boundedInv hinv.toBoundedInv
      have hown : OwnVote { c with db := db } :=
        hinv.own.congr rfl rfl hin.finality.votes
      have hself : c.finalitySelfVote = afterHighest db := by
        unfold afterHighest
        rw [hin.notarized_eq]
        exact hinv.self
      rcases hcounted with ⟨hrep, rfl⟩ | ⟨_, hcheck⟩
      · exact ⟨hbounded, hparams, hstarted, hidle, hself, hown⟩
      · rw [← hin.curRound] at hcheck
        obtain ⟨v, hv⟩ := checkRoundEnd_closed hbounded.toBlockInv hcheck
        exact ⟨hv.boundedInv hbounded.toBlockInv hbounded.bounded, hparams,
          hstarted, hidle,
          hv.self_eq hbounded.toBlockInv hbounded.bounded fun _ => hself,
          checkRoundEnd_ownVote hown hcheck⟩
  | notarized resp params db _ hok hver hin hcheck =>
      have hblock := hin.blockInv hinv.toBlockInv
      have hbounded := hin.bounded hinv.toBoundedInv fun hd ht => (hg hd hok ht).2
      have hown : OwnVote { c with db := db } :=
        hinv.own.congr rfl rfl hin.finality.votes
      rw [← hin.curRound] at hcheck
      obtain ⟨v, hv⟩ := checkRoundEnd_closed hblock hcheck
      refine ⟨hv.boundedInv hblock hbounded, hparams, hstarted, hidle,
        hv.self_eq hblock hbounded fun hbelow => ?_,
        checkRoundEnd_ownVote hown hcheck⟩
      show c.finalitySelfVote = afterHighest db
      rcases hin.adopted.takes hinv.toBoundedInv with heq | ⟨hget, hdummy, htakes⟩
      · unfold afterHighest
        rw [heq]
        exact hinv.self
      · -- a block that was taken is of the current round or a later one
        obtain ⟨hcur, hmax⟩ := hg hdummy hok htakes
        obtain ⟨b, hb, hle⟩ := notarized_le_highest hblock.round_eq hget hmax
        have hlt : b.round < db.getCurrentRound := hbelow b hb
        rw [hin.curRound] at hlt
        exact absurd (hcur.trans hle) (not_le.mpr hlt)
  | finality k resp _ hsig hupdate =>
      have hf := updatePeerFinalityVoteRound_frame hupdate
      refine ⟨hinv.toBoundedInv.congr hf.sameBlocks, hparams, hstarted, hidle, ?_, ?_⟩
      · unfold afterHighest
        rw [hf.self, hf.sameBlocks.notarized]
        exact hinv.self
      · intro k' hk'
        rw [hf.key] at hk'
        unfold Db.getFinalityVote
        rw [updatePeerFinalityVoteRound_votes hupdate, hf.self,
          SortedTable.get?_insert_of_ne]
        · exact hinv.own k' hk'
        · rintro rfl
          exact hg hk'
  | paramsChange round timestamp peers cur new hcur hnew hlt =>
      have hsame := insertConsensusParams_sameBlocks c.db new.applyRound new
      refine ⟨hinv.toBoundedInv.congr hsame, hparams, hstarted, hidle, ?_, ?_⟩
      · unfold afterHighest
        rw [hsame.notarized]
        exact hinv.self
      · exact hinv.own.congr rfl rfl (insertConsensusParams_finality _ _ _).votes
  | reopen _ hopen =>
      obtain ⟨fs, c₁, hfs, hf, hcheck⟩ := openInternal_ok hopen
      have hsame : SameBlocks c.db c₁.db := hf.sameBlocks
      have hbounded := hinv.toBoundedInv.congr hsame
      obtain ⟨v, hv⟩ := checkRoundEnd_closed hbounded.toBlockInv hcheck
      refine ⟨hv.boundedInv hbounded.toBlockInv hbounded.bounded, hparams, hstarted,
        hidle, hv.self_eq hbounded.toBlockInv hbounded.bounded fun _ => ?_,
        openInternal_ownVote hopen⟩
      unfold afterHighest
      rw [hf.self, hsame.notarized]
      rw [finalitySelf_ok hinv.toBoundedInv] at hfs
      exact (Except.ok.inj hfs).symm

omit [Hashing D] [DecidableEq S] [Signing D S] in
theorem boundedInv_empty [Hashing D] : BoundedInv (Db.empty : Db D S) where
  toBlockInv := blockInv_empty
  behind r b hb := by cases hb
  bounded r b hb := by cases hb

omit [DecidableEq S] [Signing D S] in
theorem init_restartInv {params : ConsensusParams D} {k : Option PeerPubkey}
    {pinned : Option (BlockRound × D)} {c : Consensus D S}
    (h : init params Db.empty k pinned = .ok c) : RestartInv c := by
  have hparams := init_paramsInv h
  have hstarted : (c.db.getConsensusParams 0 : Outcome Empty _) = .ok params :=
    init_scheduled h 0
  obtain ⟨fs, c₁, hfs, hf, hcheck⟩ := openInternal_ok (init_ok h)
  have hwritten := (insertConsensusParams_sameBlocks (Db.empty : Db D S) 0
    params).trans (insertPin_sameBlocks _ pinned)
  have hbounded := boundedInv_empty.congr (hwritten.trans hf.sameBlocks)
  obtain ⟨v, hv⟩ := checkRoundEnd_closed hbounded.toBlockInv hcheck
  refine ⟨hv.boundedInv hbounded.toBlockInv hbounded.bounded, hparams,
    ⟨params, hstarted⟩, hv.idle,
    hv.self_eq hbounded.toBlockInv hbounded.bounded fun _ => ?_,
    openInternal_ownVote (init_ok h)⟩
  unfold afterHighest
  rw [hf.self, hf.sameBlocks.notarized]
  rw [finalitySelf_ok (boundedInv_empty.congr hwritten)] at hfs
  exact (Except.ok.inj hfs).symm

/-- In every run whose ops leave nothing for opening to find, and whose recounts
find enough votes, a restart shows what was shown before it. -/
theorem transparent_of_accounted [CollisionFree D] {params : ConsensusParams D}
    {k : Option PeerPubkey} {pinned : Option (BlockRound × D)}
    {c : Consensus D S} {ops : List (ConsensusOp D S)}
    (hinit : init params Db.empty k pinned = .ok c)
    (hops : Trail.Guarded step Accounted c ops)
    (henough : ∀ r ∈ (c.run ops).trace.recounts, r.Enough) :
    Transparent (c.run ops) := by
  have hinv : RestartInv (c.run ops) :=
    Trail.Guarded.invariant step_restartInv (init_restartInv hinit) hops
  exact hinv.transparent (run_shownInv hinit henough).channel

end Runs

/-! ## Two peers and a block of the round before -/

section LateBlock

/-- The block of round 0 is received in round 0, that of round 1 is voted for. -/
def blockByBlockOps : List (ConsensusOp ListDigest PlainSig) :=
  let next := pairBlock (some (pairBlock none 0 [0])) 1 [1]
  [.notarized blockZero, .vote 1 (.proposal (signedBy 11 next) [1]),
   .vote 0 (.vote (signedBy 10 next))]

theorem transparent_of_blockByBlock : ∃ c : Consensus ListDigest PlainSig,
    init (plainParams [10, 11]) Db.empty (some 10) none = .ok c ∧
      Transparent (c.run blockByBlockOps) := by
  have hrun : (init (plainParams [10, 11]) (Db.empty : Db ListDigest PlainSig)
      (some 10) none).Returns fun c =>
        Trail.Guarded step Accounted c blockByBlockOps ∧
          ∀ r ∈ (c.run blockByBlockOps).trace.recounts, r.Enough := by
    decide +kernel
  obtain ⟨c, hinit, hops, henough⟩ := Outcome.returns_iff.mp hrun
  exact ⟨c, hinit, transparent_of_accounted hinit hops henough⟩

/-- The block of round 0 comes in when the dummies have ended the round. The
channel still shows 0, a restart shows 1. -/
theorem late_block_shows_at_restart :
    ¬ ∀ (c : Consensus ListDigest PlainSig)
        (ops : List (ConsensusOp ListDigest PlainSig)),
      init (plainParams [10, 11]) Db.empty (some 10) none = .ok c →
      (∀ op ∈ ops, op.IsMessage) → Transparent (c.run ops) := by
  intro h
  have hrun : (init (plainParams [10, 11]) (Db.empty : Db ListDigest PlainSig)
      (some 10) none).Returns fun c =>
        ¬ Transparent (c.run (leaveRoundZero ++ [.notarized blockZero])) := by
    decide +kernel
  obtain ⟨c, hinit, hbroken⟩ := Outcome.returns_iff.mp hrun
  refine hbroken (h c _ hinit ?_)
  simp [leaveRoundZero, ConsensusOp.IsMessage]

end LateBlock

end Consensus

end Bfte
