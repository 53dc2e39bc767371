import Bfte.Proofs.DummyRounds
import Bfte.Proofs.Finishable
import Bfte.Proofs.Records

/-!
# Enough votes end the round

Votes come in one by one, with anything else in between: votes that do not count, blocks
of other rounds, finality votes, changes of params, restarts. Once enough peers have voted
for the proposal that is stored, or have given up, the round is over, in whatever order the
votes have come and whatever else has.

Nothing of the round is lost while it lasts, except the dummy votes for a round that the
finality consensus has gone beyond.
-/

namespace Bfte

namespace Consensus

variable {D S : Type} [LinearOrder D] [Hashing D] [DecidableEq S] [Signing D S]

/-! ## Block votes stay while the round lasts -/

omit [DecidableEq S] in
/-- What comes in for the round takes no vote out of its slot, or is a block of it. -/
theorem Phase.voteBlock_keep {c c₁ : Consensus D S} {op : ConsensusOp D S}
    (h : Phase c op c₁)
    (hprop : (c.db.consBlocksProposals.get? c.db.getCurrentRound).isSome = true)
    {i : PeerIdx} (hvote : (c.db.getVoteBlock c.db.getCurrentRound i).isSome = true) :
    (c₁.db.getVoteBlock c.db.getCurrentRound i).isSome = true ∨
      ∃ b, c₁.db.consBlocksNotarized.get? c.db.getCurrentRound = some b := by
  unfold Db.getVoteBlock at hvote ⊢
  cases h with
  | same => exact Or.inl hvote
  | vote j resp params db _ hin => exact Or.inl (hin.voteBlock_keep hprop hvote)
  | notarized resp params db _ _ hin =>
      obtain ⟨w, hw⟩ := Option.isSome_iff_exists.mp hvote
      by_cases hr : c.db.getCurrentRound = resp.block.inner.round
      · cases hdummy : resp.block.inner.isDummy with
        | false =>
            rw [hr]
            exact Or.inr (hin.exists_notarized hdummy)
        | true =>
            cases hin with
            | dummies =>
                rw [insertDummyVotes_block]
                exact Or.inl hvote
            | extend _ _ _ _ hdb =>
                exact absurd (hdummy.symm.trans (Db.insertNotarizedBlock_eq_ok.mp hdb).2.1)
                  Bool.true_eq_false_eq_False
            | replace _ _ _ _ _ _ _ hdb =>
                exact absurd (hdummy.symm.trans (Db.insertNotarizedBlock_eq_ok.mp hdb).2.1)
                  Bool.true_eq_false_eq_False
      · refine Or.inl ?_
        rw [hin.voteBlock_keep hr hw]
        rfl
  | finality k resp c₁ hf =>
      rw [hf.db]
      exact Or.inl hvote
  | paramsChange round timestamp peers new =>
      rw [(insertConsensusParams_votes c.db new.applyRound new).1]
      exact Or.inl hvote
  | reopen fs c₁ hf =>
      rw [hf.db]
      exact Or.inl hvote

/-- A vote for the proposal of the round stays, or the round is over. -/
theorem step_voteBlock_keep (c : Consensus D S) (op : ConsensusOp D S)
    (hround : RoundInv c.db) (hlast : c.db.getCurrentRound < BlockRound.MAX)
    (hprop : (c.db.consBlocksProposals.get? c.db.getCurrentRound).isSome = true)
    {i : PeerIdx} (hvote : (c.db.getVoteBlock c.db.getCurrentRound i).isSome = true) :
    c.db.getCurrentRound < (c.step op).db.getCurrentRound ∨
      ((c.step op).db.getVoteBlock c.db.getCurrentRound i).isSome = true := by
  have hinv := step_roundInv c op hround
  obtain ⟨c₁, hphase, hblock, hend⟩ := step_closed c op hround
  have hover : ∀ b, (c.step op).db.consBlocksNotarized.get? c.db.getCurrentRound = some b →
      c.db.getCurrentRound < (c.step op).db.getCurrentRound := fun b hb =>
    (hinv.behind _ b hb).resolve_right (not_le.mpr hlast)
  rcases hphase.voteBlock_keep hprop hvote with hkept | ⟨b, hb⟩
  · rcases hend with ⟨hstop, _⟩ | ⟨v, hv⟩
    · rw [hstop]
      exact Or.inr hkept
    · rcases eq_or_lt_of_le (step_onward c op hround).cur_le with hsame | hlt
      · refine Or.inr ?_
        unfold Db.getVoteBlock at hkept ⊢
        rw [hv.voteBlock_still (hsame.symm.trans hphase.curRound.symm)]
        exact hkept
      · exact Or.inl hlt
  · rcases hend with ⟨hstop, _⟩ | ⟨v, hv⟩
    · rw [← hstop] at hb
      exact Or.inl (hover b hb)
    · exact Or.inl (hover b (hv.notarized_mono hblock hb))

/-! ## A block vote that comes in -/

/-- A vote for the proposal that is new goes into the table, and the round check runs. -/
theorem processVoteResponseTx_block {c : Consensus D S} {params : ConsensusParams D}
    {i : PeerIdx} {p : BlockHeader D} {sig : S}
    (hparams : (c.db.getConsensusParams c.db.getCurrentRound : Outcome Empty _) =
      .ok params)
    (hprop : c.db.consBlocksProposals.get? c.db.getCurrentRound = some p)
    (hround : p.round = c.db.getCurrentRound) (hdummy : p.isDummy = false)
    (hsig : SigOk params.peers (.header p) i sig)
    (hnone : c.db.getVoteBlock c.db.getCurrentRound i = none) :
    c.processVoteResponseTx i (.vote ⟨p, sig⟩) =
      (checkRoundEnd { c with
        db := (c.db.insertBlockVote c.db.getCurrentRound i ⟨p, sig⟩).1 }
          c.db.getCurrentRound).mapErr .roundInvariant := by
  have hverified : ((⟨p, sig⟩ : Signed D S).verifySigPeerIdx i params.peers).orRaise
      (.invalidSignature : ProcessVoteError D S) = .ok () :=
    Outcome.orRaise_eq_ok.mpr (Signed.verifySigPeerIdx_eq_ok.mpr hsig)
  have hproposal : (c.db.getProposal c.db.getCurrentRound :
      Outcome (ProcessVoteError D S) _) = .ok (some p) := by
    refine Db.getProposal_eq_ok.mpr ⟨hprop, ?_⟩
    rintro q ⟨⟩
    exact hround
  have hinserted : insertVote c.db c.db.getCurrentRound params i ⟨p, sig⟩ =
      .ok ((c.db.insertBlockVote c.db.getCurrentRound i ⟨p, sig⟩).1, .inserted) := by
    have hsame : ∀ q ∈ some p, q = p := fun q hq => (Option.some.inj hq).symm
    unfold insertVote
    rw [if_neg (ne_true_of_eq_false hdummy), Outcome.bind_of_ok hproposal,
      Outcome.bind_of_ok (Outcome.ensure_of hsame)]
    unfold Db.insertBlockVote
    rw [hnone]
    rfl
  refine (Outcome.bind_of_ok (Outcome.ensure_of hround)).trans ?_
  rw [Outcome.bind_of_ok (Db.getConsensusParams_cast hparams)]
  dsimp only
  unfold countVoteTx
  rw [Outcome.bind_of_ok hverified, Outcome.bind_of_ok hinserted]

/-- The vote of a peer of the round for the stored proposal is stored, or the round is
over. -/
theorem step_blockVoteTaken {c : Consensus D S} {params : ConsensusParams D} {i : PeerIdx}
    {p : BlockHeader D} {sig : S} (h : DummyReady c)
    (hlast : c.db.getCurrentRound < BlockRound.MAX)
    (hparams : (c.db.getConsensusParams c.db.getCurrentRound : Outcome Empty _) =
      .ok params)
    (hprop : c.db.consBlocksProposals.get? c.db.getCurrentRound = some p)
    (hsig : SigOk params.peers (.header p) i sig) :
    let c' := c.step (.vote i (.vote ⟨p, sig⟩))
    c.db.getCurrentRound < c'.db.getCurrentRound ∨
      (c'.db.getVoteBlock c.db.getCurrentRound i).isSome = true := by
  intro c'
  by_cases hold : (c.db.getVoteBlock c.db.getCurrentRound i).isSome = true
  · exact step_voteBlock_keep c _ h.toRoundInv hlast (by rw [hprop]; rfl) hold
  · have hnone : c.db.getVoteBlock c.db.getCurrentRound i = none :=
      Option.not_isSome_iff_eq_none.mp hold
    obtain ⟨hround, hdummy, _⟩ := h.proposal _ p hprop
    have hin : VoteIntake c.db params i (.vote ⟨p, sig⟩)
        (c.db.insertBlockVote c.db.getCurrentRound i ⟨p, sig⟩).1 := by
      refine .block _ hround hsig hdummy fun q hq => ?_
      exact Option.some.inj (hq.symm.trans hprop)
    obtain ⟨c'', hcheck⟩ := h.check_returns hlast hin
    have hstep : c' = c'' := by
      show c.commit (c.processVoteResponseTx i _) = c''
      rw [processVoteResponseTx_block hparams hprop hround hdummy hsig hnone, hcheck]
      rfl
    have hstored : ((c.db.insertBlockVote c.db.getCurrentRound i
        ⟨p, sig⟩).1.consVotesBlock.get? (voteKey c.db.getCurrentRound i)).isSome = true := by
      show ((c.db.consVotesBlock.insert (voteKey c.db.getCurrentRound i) ⟨p, sig⟩).get?
        (voteKey c.db.getCurrentRound i)).isSome = true
      rw [SortedTable.get?_insert_self]
      rfl
    obtain ⟨v, hv⟩ := checkRoundEnd_closed (hin.roundInv h.toRoundInv).toBlockInv hcheck
    rw [hstep]
    rcases eq_or_lt_of_le hv.cur_le with hsame | hlt
    · refine Or.inr ?_
      unfold Db.getVoteBlock
      rw [hv.voteBlock_still hsame.symm]
      exact hstored
    · exact Or.inl hlt

/-! ## The votes of a round -/

/-- The vote of the peer for the header, or one in its place, is stored. -/
def HasVote (db : Db D S) (r : BlockRound) (h : BlockHeader D) (i : PeerIdx) : Prop :=
  if h.isDummy then (db.getVoteDummy r i).isSome = true
  else (db.getVoteBlock r i).isSome = true

/-- The header is what the round may end with: its dummy, or the proposal stored. -/
def Candidate (db : Db D S) (r : BlockRound) (params : ConsensusParams D)
    (h : BlockHeader D) : Prop :=
  h = .newDummy r params ∨ db.consBlocksProposals.get? r = some h

/-- The round is over, or the finality consensus has gone beyond it. -/
def Left (c : Consensus D S) (r : BlockRound) : Prop :=
  r < c.db.getCurrentRound ∨ Overtaken c r

/-- The node is in the round, and nothing stored ends it. -/
structure Pending (r : BlockRound) (params : ConsensusParams D) (h : BlockHeader D)
    (c : Consensus D S) : Prop where
  idle : Idle c.db
  round : c.db.getCurrentRound = r
  scheduled : (c.db.getConsensusParams r : Outcome Empty _) = .ok params
  candidate : Candidate c.db r params h

/-- What the runs are held to: no proposal and no block that the round check does not see,
and changes of params as the app makes them. -/
def Orderly (c : Consensus D S) (op : ConsensusOp D S) : Prop :=
  Seen c op ∧ ChangesFresh c op

instance (c : Consensus D S) (op : ConsensusOp D S) : Decidable (Orderly c op) :=
  inferInstanceAs (Decidable (_ ∧ _))

variable {c : Consensus D S} {op : ConsensusOp D S} {r : BlockRound}
  {params : ConsensusParams D} {h : BlockHeader D} {i : PeerIdx} {sig : S}

theorem Left.step (hleft : Left c r) (op : ConsensusOp D S) (hround : RoundInv c.db) :
    Left (c.step op) r := by
  rcases hleft with hlt | ⟨v, hv, hlt⟩
  · exact Or.inl (hlt.trans_le (step_onward c op hround).cur_le)
  · exact Or.inr ⟨v, (step_accounts c op hround).shown v hv, hlt⟩

theorem Pending.step [CollisionFree D] (hp : Pending r params h c)
    (hready : DummyReady c) (hg : Orderly c op) :
    Left (c.step op) r ∨ Pending r params h (c.step op) := by
  have honward := step_onward c op hready.toRoundInv
  rcases eq_or_lt_of_le honward.cur_le with hsame | hlt
  · refine Or.inr ⟨step_idle c op hready.toRoundInv hready.params hp.idle hg.1.1,
      hsame.symm.trans hp.round, ?_, hp.candidate.imp_right fun hprop =>
        honward.proposals _ _ hprop⟩
    exact step_getConsensusParams c op hready.toRoundInv hready.params hp.round.ge
      hp.scheduled
  · rw [hp.round] at hlt
    exact Or.inl (Or.inl hlt)

/-- A vote that is stored stays. -/
theorem Pending.keep (hp : Pending r params h c) (hround : RoundInv c.db)
    (hlast : r < BlockRound.MAX) (hcounted : HasVote c.db r h i) :
    Left (c.step op) r ∨ HasVote (c.step op).db r h i := by
  obtain rfl := hp.round
  unfold HasVote at hcounted ⊢
  split at hcounted
  · next hdummy =>
      rw [if_pos hdummy]
      rcases (step_accounts c op hround).votes c.db.getCurrentRound with hover | hkept
      · exact Or.inl (Or.inr hover)
      · exact Or.inr (hkept i hcounted)
  · next hdummy =>
      rw [if_neg hdummy]
      have hprop : c.db.consBlocksProposals.get? c.db.getCurrentRound = some h := by
        rcases hp.candidate with rfl | hprop
        · exact absurd (BlockHeader.isDummy_newDummy _ _) hdummy
        · exact hprop
      rcases step_voteBlock_keep c op hround hlast (by rw [hprop]; rfl) hcounted with
        hlt | hkept
      · exact Or.inl (Or.inl hlt)
      · exact Or.inr hkept

/-- A vote that comes in is stored. -/
theorem Pending.take (hp : Pending r params h c) (hready : DummyReady c)
    (hlast : r < BlockRound.MAX) (hsig : SigOk params.peers (.header h) i sig) :
    Left (c.step (.vote i (.vote ⟨h, sig⟩))) r ∨
      HasVote (c.step (.vote i (.vote ⟨h, sig⟩))).db r h i := by
  obtain rfl := hp.round
  unfold HasVote
  rcases hp.candidate with rfl | hprop
  · rw [if_pos (BlockHeader.isDummy_newDummy _ _)]
    rcases step_dummyTaken hready hlast hp.scheduled hsig with hstored | hover
    · exact Or.inr hstored
    · exact Or.inl (Or.inr hover)
  · rw [if_neg (ne_true_of_eq_false (hready.proposal _ h hprop).2.1)]
    rcases step_blockVoteTaken hready hlast hp.scheduled hprop hsig with hlt | hstored
    · exact Or.inl (Or.inl hlt)
    · exact Or.inr hstored

/-- The run of a round: it is over at the end, or whoever's vote was stored before or has
come in has its vote stored. -/
theorem Pending.run [CollisionFree D] {ops : List (ConsensusOp D S)}
    (hready : DummyReady c) (hlast : r < BlockRound.MAX)
    (hops : Trail.Guarded Consensus.step Orderly c ops)
    (hp : Left c r ∨ Pending r params h c ∧ (HasVote c.db r h i ∨
      ∃ sig, SigOk params.peers (.header h) i sig ∧ .vote i (.vote ⟨h, sig⟩) ∈ ops)) :
    Left (c.run ops) r ∨ Pending r params h (c.run ops) ∧ HasVote (c.run ops).db r h i := by
  induction ops generalizing c with
  | nil =>
      rcases hp with hleft | ⟨hp, hcounted | ⟨_, _, hmem⟩⟩
      · exact Or.inl hleft
      · exact Or.inr ⟨hp, hcounted⟩
      · cases hmem
  | cons op ops ih =>
      have hready' := step_dummyReady c op hready ⟨hops.1.1.2, hops.1.2⟩
      refine ih hready' hops.2 ?_
      rcases hp with hleft | ⟨hp, hcame⟩
      · exact Or.inl (hleft.step op hready.toRoundInv)
      · rcases hp.step hready hops.1 with hleft | hp'
        · exact Or.inl hleft
        · have hnow : Left (c.step op) r ∨ (HasVote (c.step op).db r h i ∨
              ∃ sig, SigOk params.peers (.header h) i sig ∧
                .vote i (.vote ⟨h, sig⟩) ∈ ops) := by
            rcases hcame with hcounted | ⟨sig, hsig, hmem⟩
            · exact (hp.keep hready.toRoundInv hlast hcounted).imp_right Or.inl
            · rcases List.mem_cons.mp hmem with rfl | hrest
              · exact (hp.take hready hlast hsig).imp_right Or.inl
              · exact Or.inr (Or.inr ⟨sig, hsig, hrest⟩)
          exact hnow.imp_right fun hcame' => ⟨hp', hcame'⟩

omit [DecidableEq S] [Signing D S] in
/-- In a round that nothing ends, fewer than enough peers have their vote stored. -/
theorem Pending.length_lt (hp : Pending r params h c) {voters : List PeerIdx}
    (hnodup : voters.Nodup) (hpeers : ∀ i ∈ voters, i < params.peers.len)
    (hcounted : ∀ i ∈ voters, HasVote c.db r h i) :
    voters.length < (NumPeers.mk params.peers.len).threshold := by
  obtain rfl := hp.round
  obtain ⟨params', hparams, hlen, hfew, hfewDummy⟩ := hp.idle
  rw [hp.scheduled] at hparams
  cases hparams
  have hle : ∀ i ∈ voters, i ≤ PeerIdx.MAX := fun i hi => (hpeers i hi).le.trans hlen
  cases hdummy : h.isDummy with
  | true =>
      refine (length_le_votesAt hnodup fun i hi => ⟨hle i hi, ?_⟩).trans_lt hfewDummy
      have hvote := hcounted i hi
      rwa [HasVote, if_pos hdummy] at hvote
  | false =>
      have hprop : c.db.consBlocksProposals.get? c.db.getCurrentRound = some h := by
        rcases hp.candidate with rfl | hprop
        · rw [BlockHeader.isDummy_newDummy] at hdummy
          cases hdummy
        · exact hprop
      refine (length_le_votesAt hnodup fun i hi => ⟨hle i hi, ?_⟩).trans_lt
        (hfew (by rw [hprop]; rfl))
      have hvote := hcounted i hi
      rwa [HasVote, if_neg (ne_true_of_eq_false hdummy)] at hvote

/-- Whatever a node has gone through, and whatever else comes in meanwhile: once enough
peers of the current round have voted for its stored proposal, or for its dummy, the round
is over, or the finality consensus has gone beyond it. -/
theorem round_ends [CollisionFree D] {params₀ : ConsensusParams D}
    {key : Option PeerPubkey} {before after : List (ConsensusOp D S)}
    {c₀ : Consensus D S} (hinit : Consensus.init params₀ Db.empty key none = .ok c₀)
    (hbefore : Trail.Guarded Consensus.step Orderly c₀ before)
    (hafter : Trail.Guarded Consensus.step Orderly (c₀.run before) after)
    (hlast : (c₀.run before).db.getCurrentRound < BlockRound.MAX)
    (hscheduled : ((c₀.run before).db.getConsensusParams
      (c₀.run before).db.getCurrentRound : Outcome Empty _) = .ok params)
    (hcandidate : Candidate (c₀.run before).db (c₀.run before).db.getCurrentRound params h)
    (voters : List PeerIdx) (hnodup : voters.Nodup)
    (henough : (NumPeers.mk params.peers.len).threshold ≤ voters.length)
    (hvotes : ∀ i ∈ voters, ∃ sig, SigOk params.peers (.header h) i sig ∧
      .vote i (.vote ⟨h, sig⟩) ∈ after) :
    Left ((c₀.run before).run after) (c₀.run before).db.getCurrentRound := by
  have hready : DummyReady (c₀.run before) :=
    (hbefore.mono fun _ _ hg => ⟨hg.1.2, hg.2⟩).invariant (I := DummyReady)
      step_dummyReady (init_dummyReady hinit)
  have hidle : Idle (c₀.run before).db := by
    have hstart : SettledInv c₀ :=
      ⟨(init_chainInv hinit).toBoundedInv, init_paramsInv hinit, init_idle hinit⟩
    exact ((hbefore.mono fun _ _ hg => hg.1).invariant (I := SettledInv)
      step_settledInv hstart).idle
  have hpending : Pending (c₀.run before).db.getCurrentRound params h (c₀.run before) :=
    ⟨hidle, rfl, hscheduled, hcandidate⟩
  by_contra hnot
  have hall : ∀ i ∈ voters, Pending (c₀.run before).db.getCurrentRound params h
      ((c₀.run before).run after) ∧
        HasVote ((c₀.run before).run after).db (c₀.run before).db.getCurrentRound h i :=
    fun i hi => (Pending.run hready hlast hafter (Or.inr ⟨hpending,
      Or.inr (hvotes i hi)⟩)).resolve_left hnot
  have hpeers : ∀ i ∈ voters, i < params.peers.len := by
    intro i hi
    obtain ⟨sig, hsig, _⟩ := hvotes i hi
    exact hsig.lt_len
  have hpos : voters ≠ [] := by
    rintro rfl
    have hfew := hpending.length_lt List.nodup_nil (fun i hi => by cases hi)
      fun i hi => by cases hi
    exact absurd henough (not_le.mpr hfew)
  obtain ⟨i, hi⟩ := List.exists_mem_of_ne_nil voters hpos
  exact absurd henough (not_le.mpr ((hall i hi).1.length_lt hnodup hpeers
    fun j hj => (hall j hj).2))

/-- The leader of two peers proposes a block. -/
def proposesFirst : List (ConsensusOp ListDigest PlainSig) :=
  [.vote 1 (.proposal (signedBy 11 firstBlock) [0])]

/-- The node restarts, and the votes of both peers come in, that of the leader again. -/
def bothVoteFirst : List (ConsensusOp ListDigest PlainSig) :=
  [.reopen, .vote 1 (.vote (signedBy 11 firstBlock)),
    .vote 0 (.vote (signedBy 10 firstBlock))]

set_option synthInstance.maxSize 400 in
theorem round_ends_after_restart : ∃ c₀ : Consensus ListDigest PlainSig,
    Consensus.init (plainParams [10, 11]) Db.empty (some 10) none = .ok c₀ ∧
    (c₀.run proposesFirst).db.getCurrentRound = 0 ∧
    Left ((c₀.run proposesFirst).run bothVoteFirst) 0 := by
  have hrun : (Consensus.init (plainParams [10, 11]) (Db.empty : Db ListDigest PlainSig)
      (some 10) none).Returns fun c₀ =>
        Trail.Guarded Consensus.step Orderly c₀ proposesFirst ∧
        Trail.Guarded Consensus.step Orderly (c₀.run proposesFirst) bothVoteFirst ∧
        (c₀.run proposesFirst).db.getCurrentRound = 0 ∧
        ((c₀.run proposesFirst).db.getConsensusParams 0 : Outcome Empty _).Returns
          (fun params => params = plainParams [10, 11]) ∧
        (c₀.run proposesFirst).db.consBlocksProposals.get? 0 = some firstBlock := by
    decide +kernel
  obtain ⟨c₀, hinit, hbefore, hafter, hround, hparams, hprop⟩ := Outcome.returns_iff.mp hrun
  obtain ⟨_, hparams, rfl⟩ := Outcome.returns_iff.mp hparams
  rw [← hround] at hparams hprop
  have hsig : ∀ (i : PeerIdx) (k : PeerPubkey), [10, 11][i]? = some k →
      SigOk (plainParams [10, 11]).peers (.header firstBlock) i (signedBy k firstBlock).sig :=
    fun i k hk => ⟨k, hk, rfl, LawfulSigning.verify_sign _ _⟩
  have hends := round_ends hinit hbefore hafter (by rw [hround]; decide) hparams
    (Or.inr hprop) [0, 1] (by decide) (by decide) fun i hi => by
      rcases List.mem_cons.mp hi with rfl | hi
      · exact ⟨_, hsig 0 10 rfl, .tail _ (.tail _ (.head _))⟩
      · obtain rfl := List.mem_singleton.mp hi
        exact ⟨_, hsig 1 11 rfl, .tail _ (.head _)⟩
  rw [hround] at hends
  exact ⟨c₀, hinit, hround, hends⟩

end Consensus

end Bfte
