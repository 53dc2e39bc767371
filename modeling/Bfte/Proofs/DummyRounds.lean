import Bfte.Proofs.Accounts
import Bfte.Proofs.DummyVotes
import Bfte.Proofs.OwnProposal
import Bfte.Proofs.Pins

/-!
# Dummy votes end their round

Whatever else is going on in a round, a dummy vote of one of its peers is taken: it is
stored, or has been already, or the round is over. And as soon as there are enough of
them the round is over. What can undo that is only a finality consensus beyond the round,
for then the dummy votes of the round are dropped while the node may still be in it.
-/

namespace Bfte

namespace Consensus

variable {D S : Type} [LinearOrder D]

/-! ## Rounds with peers -/

/-- There are params from round 0 on, all with at least one peer and with no more of them
than can be counted. -/
structure Staffed (db : Db D S) : Prop where
  first : (db.consParamsSchedule.get? 0).isSome = true
  stored : ∀ r h, db.consParamsSchedule.get? r = some h →
    ∃ p, db.consParams.get? h = some p ∧ p.peers.len ≤ 255 ∧ p.peers.len ≠ 0

theorem Staffed.congr {db db' : Db D S} (h : Staffed db) (hsame : SameParams db db') :
    Staffed db' where
  first := by
    rw [hsame.schedule]
    exact h.first
  stored := by
    rw [hsame.schedule, hsame.params]
    exact h.stored

theorem Staffed.params {db : Db D S} (h : Staffed db) (r : BlockRound) :
    ∃ p, (db.getConsensusParams r : Outcome Empty _) = .ok p ∧
      p.peers.len ≤ 255 ∧ p.peers.len ≠ 0 := by
  cases hlast : db.consParamsSchedule.lastUpTo r with
  | none =>
      obtain ⟨hash, hhash⟩ := Option.isSome_iff_exists.mp h.first
      have hlt := SortedTable.lastUpTo_eq_none.mp hlast 0 hash hhash
      exact absurd hlt (Nat.not_lt_zero _)
  | some e =>
      obtain ⟨p, hp, hlen⟩ := h.stored e.1 e.2 (SortedTable.lastUpTo_eq_some.mp hlast).1
      exact ⟨p, Db.getConsensusParams_eq_ok.mpr ⟨e, hlast, hp⟩, hlen⟩

/-- New params for a round that nothing is scheduled for yet. -/
theorem Staffed.insert [Hashing D] {db : Db D S} (h : Staffed db) {r : BlockRound}
    {new : ConsensusParams D} (hfree : db.consParamsSchedule.get? r = none)
    (hlen : new.peers.len ≤ 255) (hpos : new.peers.len ≠ 0) :
    Staffed (db.insertConsensusParams r new).1 := by
  have hparams : (db.insertConsensusParams r new).1.consParams =
      db.consParams.insert (Hashing.paramsHash new) new := by
    simp only [Db.insertConsensusParams, hfree]
  constructor
  · rw [insertConsensusParams_schedule, SortedTable.get?_insert]
    split
    · rfl
    · exact h.first
  · intro q hash hq
    rw [insertConsensusParams_schedule] at hq
    rw [hparams, SortedTable.get?_insert]
    split
    · exact ⟨new, rfl, hlen, hpos⟩
    · next hne =>
        rcases SortedTable.get?_insert_eq_some hq with ⟨_, heq⟩ | hold
        · exact absurd heq hne
        · exact h.stored q hash hold

/-! ## Not enough dummy votes -/

/-- The current round has fewer dummy votes than it takes to end it. -/
def FewDummies (db : Db D S) : Prop :=
  ∃ params, (db.getConsensusParams db.getCurrentRound : Outcome Empty _) =
      .ok params ∧
    db.getNumVotesDummy db.getCurrentRound < (NumPeers.mk params.peers.len).threshold

theorem Idle.fewDummies {db : Db D S} (h : Idle db) : FewDummies db := by
  obtain ⟨params, hp, _, _, hfew⟩ := h
  exact ⟨params, hp, hfew⟩

theorem FewDummies.mono {db db' : Db D S} (h : FewDummies db)
    (hcur : db'.getCurrentRound = db.getCurrentRound)
    (hparams : ∀ p : ConsensusParams D,
      (db.getConsensusParams db.getCurrentRound : Outcome Empty _) = .ok p →
      (db'.getConsensusParams db.getCurrentRound : Outcome Empty _) = .ok p)
    (hdummy : ∀ i, (db'.getVoteDummy db.getCurrentRound i).isSome = true →
      (db.getVoteDummy db.getCurrentRound i).isSome = true) : FewDummies db' := by
  obtain ⟨params, hp, hfew⟩ := h
  unfold FewDummies
  rw [hcur]
  exact ⟨params, hparams params hp, lt_of_le_of_lt (votesAt_length_le hdummy) hfew⟩

variable [Hashing D]

/-! ## What it takes -/

/-- A dummy vote of the current round is taken, and enough of them end the round. -/
structure DummyReady (c : Consensus D S) : Prop extends BoundedInv c.db where
  params : ParamsInv c
  ahead : NoDummyAhead c.db
  staffed : Staffed c.db
  few : FewDummies c.db
  unpinned : c.db.consBlocksPinned = .empty

/-- The finality consensus has been beyond the round. -/
def Overtaken (c : Consensus D S) (r : BlockRound) : Prop :=
  ∃ v ∈ c.trace.finalityConsensus, r < v

/-- A change of params is for some peers, and for a round that no change has been made
for. -/
def ChangesFresh (c : Consensus D S) : ConsensusOp D S → Prop
  | .paramsChange round _ peers => peers.len ≤ 255 ∧ peers.len ≠ 0 ∧
      (c.db.getConsensusParams round : Outcome Empty _).WhenOk fun p =>
        c.db.consParamsSchedule.get?
          (round + (p.peers.len + ConsensusParams.coreApplyDelayBase)) = none
  | _ => True

instance (c : Consensus D S) (op : ConsensusOp D S) : Decidable (ChangesFresh c op) := by
  unfold ChangesFresh
  split <;> infer_instance

omit [LinearOrder D] [Hashing D] in
theorem makeChange_ok {ε : Type} {cur new : ConsensusParams D} {round : BlockRound}
    {t : Timestamp} {s : PeerSet} {prevMid : Option (BlockRound × D)}
    (h : (cur.makeChange round t s prevMid : Outcome ε _) = .ok new) :
    new.peers = s ∧
      new.applyRound = round + (cur.peers.len + ConsensusParams.coreApplyDelayBase) := by
  simp only [ConsensusParams.makeChange, ConsensusParams.schedulingDelay,
    Outcome.bind_eq_ok, ConsensusParams.numPeers_eq_ok, Outcome.pure_eq_ok] at h
  obtain ⟨delay, ⟨num, ⟨_, rfl⟩, rfl⟩, _, _, rfl⟩ := h
  exact ⟨rfl, rfl⟩

section Steps

variable [DecidableEq S] [Signing D S]

theorem step_staffed (c : Consensus D S) (op : ConsensusOp D S) (hround : RoundInv c.db)
    (h : Staffed c.db) (hg : ChangesFresh c op) : Staffed (c.step op).db := by
  have hcase := step_cases c op
  generalize c.step op = c' at hcase
  cases hcase with
  | same => exact h
  | vote i resp params db _ hp hin hcounted =>
      rcases hcounted with ⟨_, rfl⟩ | ⟨_, hcheck⟩
      · exact h.congr hin.sameParams
      · rw [← hin.curRound] at hcheck
        obtain ⟨v, hv⟩ := checkRoundEnd_closed (hin.roundInv hround).toBlockInv hcheck
        exact h.congr (hin.sameParams.trans hv.sameParams)
  | notarized resp params db _ hok hver hin hcheck =>
      rw [← hin.curRound] at hcheck
      obtain ⟨v, hv⟩ := checkRoundEnd_closed (hin.blockInv hround.toBlockInv) hcheck
      exact h.congr (hin.sameParams.trans hv.sameParams)
  | finality k resp _ hsig hupdate =>
      exact h.congr (updatePeerFinalityVoteRound_frame hupdate).sameParams
  | paramsChange round timestamp peers cur new hcur hnew hlt =>
      obtain ⟨hlen, hpos, hfree⟩ := hg
      obtain ⟨hpeers, happly⟩ := makeChange_ok hnew
      refine h.insert ?_ (by rwa [hpeers]) (by rwa [hpeers])
      rw [happly]
      exact Outcome.whenOk_iff.mp hfree cur hcur
  | reopen _ hopen =>
      obtain ⟨fs, c₁, _, hf, hcheck⟩ := openInternal_ok hopen
      have hsame : SameBlocks c.db c₁.db := hf.sameBlocks
      obtain ⟨v, hv⟩ := checkRoundEnd_closed (hround.congr hsame).toBlockInv hcheck
      have hparams : SameParams c.db c₁.db := hf.sameParams
      exact h.congr (hparams.trans hv.sameParams)

theorem step_fewDummies [CollisionFree D] (c : Consensus D S) (op : ConsensusOp D S)
    (hround : RoundInv c.db) (hparams : ParamsInv c) (h : FewDummies c.db) :
    FewDummies (c.step op).db := by
  have hcase := step_cases c op
  generalize c.step op = c' at hcase
  cases hcase with
  | same => exact h
  | vote i resp params db _ hp hin hcounted =>
      rcases hcounted with ⟨hrep, rfl⟩ | ⟨_, hcheck⟩
      · refine h.mono hin.curRound (fun p hp => ?_) fun j hj => ?_
        · rw [hin.sameParams.getConsensusParams]
          exact hp
        · -- the vote was stored before
          obtain ⟨sig, hs⟩ := Option.isSome_iff_exists.mp hj
          rcases hin.voteDummy_cases hs with hold | ⟨_, rfl, _, hdummy⟩
          · exact Option.isSome_iff_exists.mpr ⟨sig, hold⟩
          · rcases hrep with ⟨_, hstored⟩ | ⟨hnot, _⟩
            · cases hin with
              | dummy vote => exact Option.isSome_iff_exists.mpr ⟨_, hstored⟩
              | block vote hround hsig hnot => exact absurd (hdummy.symm.trans hnot) nofun
              | proposal vote payload hround hsig hnot =>
                  exact absurd (hdummy.symm.trans hnot) nofun
            · rw [hdummy] at hnot
              cases hnot
      · rw [← hin.curRound] at hcheck
        obtain ⟨v, hv⟩ := checkRoundEnd_closed (hin.roundInv hround).toBlockInv hcheck
        exact hv.idle.fewDummies
  | notarized resp params db _ hok hver hin hcheck =>
      rw [← hin.curRound] at hcheck
      obtain ⟨v, hv⟩ := checkRoundEnd_closed (hin.blockInv hround.toBlockInv) hcheck
      exact hv.idle.fewDummies
  | finality k resp _ hsig hupdate =>
      have hf := updatePeerFinalityVoteRound_frame hupdate
      refine h.mono hf.sameBlocks.getCurrentRound (fun p hp => ?_) fun j hj => ?_
      · rw [hf.sameParams.getConsensusParams]
        exact hp
      · obtain ⟨sig, hs⟩ := Option.isSome_iff_exists.mp hj
        exact Option.isSome_iff_exists.mpr ⟨sig, hf.dummy _ _ _ hs⟩
  | paramsChange round timestamp peers cur new hcur hnew hlt =>
      rw [hparams.channel] at hlt
      have hsame := insertConsensusParams_sameBlocks c.db new.applyRound new
      refine h.mono hsame.getCurrentRound (fun p hp => ?_) fun j hj => ?_
      · exact getConsensusParams_insert hparams.hash hlt hp
      · unfold Db.getVoteDummy at hj
        rw [(insertConsensusParams_votes c.db new.applyRound new).2] at hj
        exact hj
  | reopen _ hopen =>
      obtain ⟨_, _, _, hv⟩ := openInternal_closed hround.toBlockInv hopen
      exact hv.idle.fewDummies

theorem step_dummyReady [CollisionFree D] (c : Consensus D S) (op : ConsensusOp D S)
    (h : DummyReady c) (hg : BelowLast c op ∧ ChangesFresh c op) :
    DummyReady (c.step op) where
  toBoundedInv := step_boundedInv c op h.toBoundedInv hg.1
  params := step_paramsInv c op h.toRoundInv h.params
  ahead := step_noDummyAhead c op h.toRoundInv h.ahead
  staffed := step_staffed c op h.toRoundInv h.staffed hg.2
  few := step_fewDummies c op h.toRoundInv h.params h.few
  unpinned := (step_pins c op h.toRoundInv).trans h.unpinned

omit [DecidableEq S] [Signing D S] in
theorem init_dummyReady {params : ConsensusParams D} {k : Option PeerPubkey}
    {c : Consensus D S} (h : init params Db.empty k none = .ok c) : DummyReady c where
  toBoundedInv := (init_chainInv h).toBoundedInv
  params := init_paramsInv h
  ahead := (init_manned h).dummies
  staffed := by
    obtain ⟨p, hp, hlen, _, hfew⟩ := init_idle h
    rw [init_scheduled h] at hp
    cases hp
    refine Staffed.congr ⟨?_, fun r hash hr => ?_⟩ (init_sameParams h)
    · rw [insertConsensusParams_schedule, SortedTable.get?_insert_self]
      rfl
    · rw [insertConsensusParams_schedule] at hr
      rcases SortedTable.get?_insert_eq_some hr with ⟨_, rfl⟩ | hnone
      · exact ⟨params, SortedTable.get?_insert_self _ _ _, hlen,
          NumPeers.total_ne_zero hfew⟩
      · cases hnone
  few := (init_idle h).fewDummies
  unpinned := init_pins h

/-! ## A dummy vote is taken -/

omit [DecidableEq S] [Signing D S] in
theorem fits_newDummy (r : BlockRound) (params : ConsensusParams D) :
    (BlockHeader.newDummy r params).Fits (Hashing.paramsHash params)
      (Hashing.paramsLen params) BlockPayloadRaw.empty where
  dummy _ := rfl
  payload h := by
    rw [BlockHeader.isDummy_newDummy] at h
    cases h
  version := rfl
  paramsHash := rfl
  paramsLen := rfl

omit [DecidableEq S] in
/-- The round check that follows a dummy vote goes through. -/
theorem DummyReady.check_returns {c : Consensus D S} {db : Db D S}
    {params : ConsensusParams D} {i : PeerIdx} {vote : Signed D S} (h : DummyReady c)
    (hlast : c.db.getCurrentRound < BlockRound.MAX)
    (hin : VoteIntake c.db params i (.vote vote) db) :
    ∃ c', checkRoundEnd { c with db := db } c.db.getCurrentRound = .ok c' := by
  have hinv := hin.roundInv h.toRoundInv
  have hstaffed := h.staffed.congr hin.sameParams
  have hready : ∀ r, TurnReady db r := by
    intro r
    refine ⟨hstaffed.params r, fun p hp => ?_⟩
    obtain ⟨hround, hdummy, _⟩ := hinv.proposal r p hp
    exact ⟨hround, hdummy⟩
  refine checkRoundEnd_returns_of_enterable (fun b hb => ?_) (fun r => ?_) (hready _)
    (fun p hp => ?_) (fun _ => ?_) ?_
  · have hlt := highest_lt hinv hb
    rwa [hin.curRound] at hlt
  · have hpins : db.consBlocksPinned = c.db.consBlocksPinned := by
      cases hin <;> rfl
    show db.consBlocksPinned.get? r = none
    rw [hpins, h.unpinned]
    rfl
  · obtain ⟨p', hp', _, hpos⟩ := hstaffed.params (c.db.getCurrentRound + 1)
    cases hp.symm.trans hp'
    exact hpos
  · obtain ⟨p, hp, hlen, _⟩ := hstaffed.params (c.db.getCurrentRound + 1)
    exact ⟨hlast, p, hp, hlen⟩
  · refine untouched_of_ahead hinv.toBlockInv (hin.noDummyAhead h.ahead) ?_
    rw [hin.curRound]
    exact Nat.lt_succ_self _

/-- A dummy vote that is new goes into the table, and the round check runs. -/
theorem processVoteResponseTx_dummy {c : Consensus D S} {params : ConsensusParams D}
    {i : PeerIdx} {sig : S}
    (hparams : (c.db.getConsensusParams c.db.getCurrentRound : Outcome Empty _) =
      .ok params)
    (hsig : SigOk params.peers (.header (.newDummy c.db.getCurrentRound params)) i sig)
    (hnone : c.db.getVoteDummy c.db.getCurrentRound i = none) :
    c.processVoteResponseTx i (.vote ⟨.newDummy c.db.getCurrentRound params, sig⟩) =
      (checkRoundEnd { c with
        db := (c.db.insertDummyVote c.db.getCurrentRound i sig).1 }
          c.db.getCurrentRound).mapErr .roundInvariant := by
  have hverified : ((⟨.newDummy c.db.getCurrentRound params, sig⟩ :
      Signed D S).verifySigPeerIdx i params.peers).orRaise
        (.invalidSignature : ProcessVoteError D S) = .ok () :=
    Outcome.orRaise_eq_ok.mpr (Signed.verifySigPeerIdx_eq_ok.mpr hsig)
  have hinserted : insertVote c.db c.db.getCurrentRound params i
      ⟨.newDummy c.db.getCurrentRound params, sig⟩ =
        .ok ((c.db.insertDummyVote c.db.getCurrentRound i sig).1, .inserted) := by
    have hfits : ((BlockHeader.newDummy c.db.getCurrentRound params).verifyWithContent
        (Hashing.paramsHash params) (Hashing.paramsLen params)
          BlockPayloadRaw.empty).mapErr
            (ProcessVoteError.invalidContent (D := D) (S := S)) = .ok () :=
      Outcome.mapErr_eq_ok.mpr
        (BlockHeader.verifyWithContent_eq_ok.mpr (fits_newDummy _ _))
    unfold insertVote
    rw [if_pos (BlockHeader.isDummy_newDummy _ _), Outcome.bind_of_ok hfits]
    unfold Db.insertDummyVote
    rw [hnone]
    rfl
  refine (Outcome.bind_of_ok (Outcome.ensure_of rfl)).trans ?_
  rw [Outcome.bind_of_ok (Db.getConsensusParams_cast hparams)]
  dsimp only
  unfold countVoteTx
  rw [Outcome.bind_of_ok hverified, Outcome.bind_of_ok hinserted]

/-- A dummy vote of a peer of the round is stored, or the node has got on. -/
theorem step_dummyTaken {c : Consensus D S} {params : ConsensusParams D} {i : PeerIdx}
    {sig : S} (h : DummyReady c) (hlast : c.db.getCurrentRound < BlockRound.MAX)
    (hparams : (c.db.getConsensusParams c.db.getCurrentRound : Outcome Empty _) =
      .ok params)
    (hsig : SigOk params.peers (.header (.newDummy c.db.getCurrentRound params)) i sig) :
    let c' := c.step (.vote i (.vote ⟨.newDummy c.db.getCurrentRound params, sig⟩))
    (c'.db.getVoteDummy c.db.getCurrentRound i).isSome = true ∨
      Overtaken c' c.db.getCurrentRound := by
  intro c'
  by_cases hold : (c.db.getVoteDummy c.db.getCurrentRound i).isSome = true
  · rcases (step_accounts c _ h.toRoundInv).votes c.db.getCurrentRound with hover | hkept
    · exact Or.inr hover
    · exact Or.inl (hkept i hold)
  · have hnone : c.db.getVoteDummy c.db.getCurrentRound i = none :=
      Option.not_isSome_iff_eq_none.mp hold
    have hin : VoteIntake c.db params i
        (.vote ⟨.newDummy c.db.getCurrentRound params, sig⟩)
        (c.db.insertDummyVote c.db.getCurrentRound i sig).1 :=
      .dummy _ rfl hsig (BlockHeader.isDummy_newDummy _ _) (fits_newDummy _ _)
    obtain ⟨c'', hcheck⟩ := h.check_returns hlast hin
    have hstep : c' = c'' := by
      show c.commit (c.processVoteResponseTx i _) = c''
      rw [processVoteResponseTx_dummy hparams hsig hnone, hcheck]
      rfl
    have haccounts := checkRoundEnd_accounts (hin.roundInv h.toRoundInv).toBlockInv hcheck
    rw [hstep]
    rcases haccounts.votes c.db.getCurrentRound with hover | hkept
    · exact Or.inr hover
    · refine Or.inl (hkept i ?_)
      show ((c.db.consVotesDummy.insert (voteKey c.db.getCurrentRound i) sig).get?
        (voteKey c.db.getCurrentRound i)).isSome = true
      rw [SortedTable.get?_insert_self]
      rfl

end Steps

end Consensus

end Bfte
