import Bfte.Proofs.Params

/-!
# Where stored votes come from

The two vote tables, through each thing that changes them. A vote that is stored
after a message was stored before it or came with it; the round check adds no
votes. Block votes can be lost in two places only, when a proposal or a notarized
block of their round is stored and they are for something else.
-/

namespace Bfte

namespace Consensus

variable {D S : Type} [LinearOrder D]

/-! ## Lists of signatures -/

theorem get?_insertBlockVotes {round : BlockRound} {b : BlockHeader D}
    {l : List (PeerIdx × S)} {db : Db D S} {r : BlockRound} {j : PeerIdx}
    {v : SignedVote D S}
    (h : (db.insertBlockVotes round b l).consVotesBlock.get? (voteKey r j) =
      some v) :
    db.consVotesBlock.get? (voteKey r j) = some v ∨
      (r = round ∧ v.inner = b ∧ (j, v.sig) ∈ l) := by
  induction l generalizing db with
  | nil => exact Or.inl h
  | cons e l ih =>
      obtain ⟨i, sig⟩ := e
      rcases ih h with hold | ⟨hr, hv, hmem⟩
      · have hget : (db.consVotesBlock.insert (voteKey round i) ⟨b, sig⟩).get?
            (voteKey r j) = some v := hold
        rcases get?_insert_voteKey hget with ⟨hr, rfl, rfl⟩ | hold
        · exact Or.inr ⟨hr, rfl, List.mem_cons_self⟩
        · exact Or.inl hold
      · exact Or.inr ⟨hr, hv, List.mem_cons_of_mem _ hmem⟩

theorem get?_insertBlockVotes_of_ne {round : BlockRound} {b : BlockHeader D}
    {l : List (PeerIdx × S)} {db : Db D S} {r : BlockRound} {j : PeerIdx}
    (hr : r ≠ round) :
    (db.insertBlockVotes round b l).consVotesBlock.get? (voteKey r j) =
      db.consVotesBlock.get? (voteKey r j) := by
  induction l generalizing db with
  | nil => rfl
  | cons e l ih =>
      have hne : voteKey r j ≠ voteKey round e.1 := fun heq =>
        hr (voteKey_inj.mp heq).1
      exact ih.trans (SortedTable.get?_insert_of_ne hne)

theorem insertBlockVotes_dummy {round : BlockRound} {b : BlockHeader D}
    {l : List (PeerIdx × S)} {db : Db D S} :
    (db.insertBlockVotes round b l).consVotesDummy = db.consVotesDummy := by
  induction l generalizing db with
  | nil => rfl
  | cons e l ih => exact ih

theorem get?_insertDummyVotes {round : BlockRound} {l : List (PeerIdx × S)}
    {db : Db D S} {r : BlockRound} {j : PeerIdx} {sig : S}
    (h : (db.insertDummyVotes round l).consVotesDummy.get? (voteKey r j) =
      some sig) :
    db.consVotesDummy.get? (voteKey r j) = some sig ∨
      (r = round ∧ (j, sig) ∈ l) := by
  induction l generalizing db with
  | nil => exact Or.inl h
  | cons e l ih =>
      obtain ⟨i, s⟩ := e
      rcases ih h with hold | ⟨hr, hmem⟩
      · have hget : (db.consVotesDummy.insert (voteKey round i) s).get?
            (voteKey r j) = some sig := hold
        rcases get?_insert_voteKey hget with ⟨hr, rfl, rfl⟩ | hold
        · exact Or.inr ⟨hr, List.mem_cons_self⟩
        · exact Or.inl hold
      · exact Or.inr ⟨hr, List.mem_cons_of_mem _ hmem⟩

theorem insertDummyVotes_block {round : BlockRound} {l : List (PeerIdx × S)}
    {db : Db D S} :
    (db.insertDummyVotes round l).consVotesBlock = db.consVotesBlock := by
  induction l generalizing db with
  | nil => rfl
  | cons e l ih => exact ih

/-! ## The round check -/

variable [Hashing D]

theorem Closed.voteBlock_sub {c c' : Consensus D S} {v : RoundEnd D S}
    (h : Closed c v c') {r : BlockRound} {j : PeerIdx} {w : SignedVote D S}
    (hw : c'.db.consVotesBlock.get? (voteKey r j) = some w) :
    c.db.consVotesBlock.get? (voteKey r j) = some w := by
  rw [h.ended.db] at hw
  have hn := h.loop.notarizes
  generalize v.newLastNotarizedRound = last at hn
  generalize v.db = vdb at hn hw
  cases hn with
  | nothing => exact hw
  | received => exact hw
  | voted => exact (Db.get?_retainVotesFor.mp hw).1

theorem Closed.voteDummy_sub {c c' : Consensus D S} {v : RoundEnd D S}
    (h : Closed c v c') {r : BlockRound} {j : PeerIdx} {sig : S}
    (hs : c'.db.consVotesDummy.get? (voteKey r j) = some sig) :
    c.db.consVotesDummy.get? (voteKey r j) = some sig := by
  have hv := h.ended.dummy r j sig hs
  have hn := h.loop.notarizes
  generalize v.newLastNotarizedRound = last at hn
  generalize v.db = vdb at hn hv
  cases hn <;> exact hv

theorem Closed.voteBlock_still {c c' : Consensus D S} {v : RoundEnd D S}
    (h : Closed c v c')
    (hstill : c'.db.getCurrentRound = c.db.getCurrentRound) :
    c'.db.consVotesBlock = c.db.consVotesBlock := by
  rw [h.ended.db, h.db_eq_of_still hstill]

theorem insertConsensusParams_votes (db : Db D S) (r : BlockRound)
    (params : ConsensusParams D) :
    (db.insertConsensusParams r params).1.consVotesBlock = db.consVotesBlock ∧
      (db.insertConsensusParams r params).1.consVotesDummy =
        db.consVotesDummy := by
  unfold Db.insertConsensusParams
  dsimp only
  split <;> exact ⟨rfl, rfl⟩

theorem initTx_votes (params : ConsensusParams D)
    (pinned : Option (BlockRound × D)) :
    (insertPin ((Db.empty : Db D S).insertConsensusParams 0
        params).1 pinned).consVotesBlock = .empty ∧
      (insertPin ((Db.empty : Db D S).insertConsensusParams 0
        params).1 pinned).consVotesDummy = .empty := by
  unfold insertPin
  split <;> exact insertConsensusParams_votes _ _ _

/-- A new database has no votes. -/
theorem init_votes {params : ConsensusParams D} {k : Option PeerPubkey}
    {pinned : Option (BlockRound × D)} {c' : Consensus D S}
    (h : init params Db.empty k pinned = .ok c') (r : BlockRound) (j : PeerIdx) :
    c'.db.getVoteBlock r j = none ∧ c'.db.getVoteDummy r j = none := by
  obtain ⟨fs, c₁, hf, _, hdb, hcheck⟩ := init_checked h
  obtain ⟨v, hv⟩ := checkRoundEnd_closed hdb hcheck
  have hempty := initTx_votes (S := S) params pinned
  constructor
  · rw [Option.eq_none_iff_forall_ne_some]
    intro w hw
    have hw₁ := hv.voteBlock_sub hw
    rw [hf.db] at hw₁
    have hw₂ : (insertPin ((Db.empty : Db D S).insertConsensusParams 0
        params).1 pinned).consVotesBlock.get? (voteKey r j) = some w := hw₁
    rw [hempty.1] at hw₂
    cases hw₂
  · rw [Option.eq_none_iff_forall_ne_some]
    intro sig hs
    have hs₁ : (insertPin ((Db.empty : Db D S).insertConsensusParams 0
        params).1 pinned).consVotesDummy.get? (voteKey r j) = some sig :=
      hf.dummy _ _ _ (hv.voteDummy_sub hs)
    rw [hempty.2] at hs₁
    cases hs₁

/-! ## Notarized blocks -/

theorem insertNotarizedBlock_voteBlock {ε : Type} {db : Db D S} {r : BlockRound}
    {b : BlockHeader D} {payload : Option BlockPayloadRaw}
    {res : Db D S × InsertOutcome (BlockHeader D)}
    (h : (db.insertNotarizedBlock r b payload : Outcome ε _) = .ok res)
    {r' : BlockRound} {j : PeerIdx} {w : SignedVote D S} :
    (res.1.consVotesBlock.get? (voteKey r' j) = some w →
      db.consVotesBlock.get? (voteKey r' j) = some w) ∧
    (r' ≠ r → db.consVotesBlock.get? (voteKey r' j) = some w →
      res.1.consVotesBlock.get? (voteKey r' j) = some w) := by
  obtain ⟨_, _, ⟨e, _, rfl⟩ | ⟨_, rfl⟩⟩ := Db.insertNotarizedBlock_eq_ok.mp h
  · exact ⟨id, fun _ => id⟩
  · cases payload with
    | none =>
        exact ⟨fun hw => (Db.get?_retainVotesFor.mp hw).1,
          fun hne hw => (Db.get?_retainVotesFor_of_ne hne).trans hw⟩
    | some p =>
        exact ⟨fun hw => (Db.get?_retainVotesFor.mp hw).1,
          fun hne hw => (Db.get?_retainVotesFor_of_ne hne).trans hw⟩

theorem insertNotarizedBlock_voteDummy {ε : Type} {db : Db D S} {r : BlockRound}
    {b : BlockHeader D} {payload : Option BlockPayloadRaw}
    {res : Db D S × InsertOutcome (BlockHeader D)}
    (h : (db.insertNotarizedBlock r b payload : Outcome ε _) = .ok res) :
    res.1.consVotesDummy = db.consVotesDummy := by
  obtain ⟨_, _, ⟨e, _, rfl⟩ | ⟨_, rfl⟩⟩ := Db.insertNotarizedBlock_eq_ok.mp h
  · rfl
  · cases payload <;> rfl

/-- A block vote stored after a notarized block came in was stored before it, or
is one of its signatures. -/
theorem NotarizedIntake.voteBlock_cases {resp : WaitNotarizedBlockResponse D S}
    {db db' : Db D S} (h : NotarizedIntake db resp db') {r : BlockRound}
    {j : PeerIdx} {w : SignedVote D S}
    (hw : db'.consVotesBlock.get? (voteKey r j) = some w) :
    db.consVotesBlock.get? (voteKey r j) = some w ∨
      (r = resp.block.inner.round ∧ w.inner = resp.block.inner ∧
        (j, w.sig) ∈ resp.block.sigs.entries ∧
        resp.block.inner.isDummy = false) := by
  cases h with
  | dummies =>
      rw [insertDummyVotes_block] at hw
      exact Or.inl hw
  | extend db₁ o hlater hext hdb =>
      have hd := (Db.insertNotarizedBlock_eq_ok.mp hdb).2.1
      rcases get?_insertBlockVotes hw with hold | ⟨hr, hv, hmem⟩
      · exact Or.inl ((insertNotarizedBlock_voteBlock hdb).1 hold)
      · exact Or.inr ⟨hr, hv, hmem, hd⟩
  | replace latest db₁ o hlatest hlater hnot hext hdb =>
      have hd := (Db.insertNotarizedBlock_eq_ok.mp hdb).2.1
      rcases get?_insertBlockVotes hw with hold | ⟨hr, hv, hmem⟩
      · exact Or.inl ((insertNotarizedBlock_voteBlock hdb).1 hold)
      · exact Or.inr ⟨hr, hv, hmem, hd⟩

/-- The block votes of other rounds stay. -/
theorem NotarizedIntake.voteBlock_keep {resp : WaitNotarizedBlockResponse D S}
    {db db' : Db D S} (h : NotarizedIntake db resp db') {r : BlockRound}
    {j : PeerIdx} {w : SignedVote D S} (hr : r ≠ resp.block.inner.round)
    (hw : db.consVotesBlock.get? (voteKey r j) = some w) :
    db'.consVotesBlock.get? (voteKey r j) = some w := by
  cases h with
  | dummies =>
      rw [insertDummyVotes_block]
      exact hw
  | extend db₁ o hlater hext hdb =>
      rw [get?_insertBlockVotes_of_ne hr]
      exact (insertNotarizedBlock_voteBlock hdb).2 hr hw
  | replace latest db₁ o hlatest hlater hnot hext hdb =>
      rw [get?_insertBlockVotes_of_ne hr]
      exact (insertNotarizedBlock_voteBlock hdb).2 hr hw

/-- A dummy vote stored after a notarized block came in was stored before it, or
is one of the signatures of a notarized dummy of the current round. -/
theorem NotarizedIntake.voteDummy_cases {resp : WaitNotarizedBlockResponse D S}
    {db db' : Db D S} (h : NotarizedIntake db resp db') {r : BlockRound}
    {j : PeerIdx} {sig : S}
    (hs : db'.consVotesDummy.get? (voteKey r j) = some sig) :
    db.consVotesDummy.get? (voteKey r j) = some sig ∨
      (r = db.getCurrentRound ∧ resp.block.inner.round = r ∧
        (j, sig) ∈ resp.block.sigs.entries ∧
        resp.block.inner.isDummy = true) := by
  cases h with
  | dummies hdummy hround =>
      rcases get?_insertDummyVotes hs with hold | ⟨hr, hmem⟩
      · exact Or.inl hold
      · exact Or.inr ⟨hr, hround.trans hr.symm, hmem, hdummy⟩
  | extend db₁ o hlater hext hdb =>
      rw [insertBlockVotes_dummy, insertNotarizedBlock_voteDummy hdb] at hs
      exact Or.inl hs
  | replace latest db₁ o hlatest hlater hnot hext hdb =>
      rw [insertBlockVotes_dummy, insertNotarizedBlock_voteDummy hdb] at hs
      exact Or.inl hs

/-! ## Votes and proposals -/

section Votes

variable [Signing D S] {db db' : Db D S} {params : ConsensusParams D}
  {i : PeerIdx} {resp : WaitVoteResponse D S}

theorem VoteIntake.voteBlock_cases (h : VoteIntake db params i resp db')
    {r : BlockRound} {j : PeerIdx} {w : SignedVote D S}
    (hw : db'.consVotesBlock.get? (voteKey r j) = some w) :
    db.consVotesBlock.get? (voteKey r j) = some w ∨
      (r = db.getCurrentRound ∧ j = i ∧ w = resp.block ∧
        resp.block.inner.isDummy = false) := by
  cases h with
  | dummy => exact Or.inl hw
  | block vote hround hsig hdummy hprop =>
      have hget : (db.consVotesBlock.insert (voteKey db.getCurrentRound i)
          vote).get? (voteKey r j) = some w := hw
      rcases get?_insert_voteKey hget with ⟨hr, hj, rfl⟩ | hold
      · exact Or.inr ⟨hr, hj, rfl, hdummy⟩
      · exact Or.inl hold
  | proposal vote payload hround hsig hdummy =>
      have hget : ((db.storeProposal db.getCurrentRound vote.inner
          payload).consVotesBlock.insert (voteKey db.getCurrentRound i)
            vote).get? (voteKey r j) = some w := hw
      rcases get?_insert_voteKey hget with ⟨hr, hj, rfl⟩ | hold
      · exact Or.inr ⟨hr, hj, rfl, hdummy⟩
      · exact Or.inl (Db.get?_retainVotesFor.mp hold).1

omit [Hashing D] [Signing D S] in
/-- Next to a proposal that has been taken, only votes for it are stored. -/
theorem inner_of_storeProposal {vote w : SignedVote D S} {payload : BlockPayloadRaw}
    {r : BlockRound} {j : PeerIdx}
    (hw : ((db.storeProposal r vote.inner payload).consVotesBlock.insert
      (voteKey r i) vote).get? (voteKey r j) = some w)
    (hmax : db.getVoteBlock r j = some w → j < PeerIdx.MAX) : w.inner = vote.inner := by
  rcases get?_insert_voteKey hw with ⟨_, _, rfl⟩ | hw
  · rfl
  · obtain ⟨hold, hinner⟩ := Db.get?_retainVotesFor.mp hw
    exact hinner rfl (hmax hold)

theorem VoteIntake.voteDummy_cases (h : VoteIntake db params i resp db')
    {r : BlockRound} {j : PeerIdx} {sig : S}
    (hs : db'.consVotesDummy.get? (voteKey r j) = some sig) :
    db.consVotesDummy.get? (voteKey r j) = some sig ∨
      (r = db.getCurrentRound ∧ j = i ∧ sig = resp.block.sig ∧
        resp.block.inner.isDummy = true) := by
  cases h with
  | dummy vote hround hsig hdummy =>
      have hget : (db.consVotesDummy.insert (voteKey db.getCurrentRound i)
          vote.sig).get? (voteKey r j) = some sig := hs
      rcases get?_insert_voteKey hget with ⟨hr, hj, rfl⟩ | hold
      · exact Or.inr ⟨hr, hj, rfl, hdummy⟩
      · exact Or.inl hold
  | block => exact Or.inl hs
  | proposal => exact Or.inl hs

/-- With a proposal stored already, a message takes no vote out of its slot. -/
theorem VoteIntake.voteBlock_keep (h : VoteIntake db params i resp db')
    (hprop : (db.consBlocksProposals.get? db.getCurrentRound).isSome = true)
    {r : BlockRound} {j : PeerIdx}
    (hw : (db.consVotesBlock.get? (voteKey r j)).isSome = true) :
    (db'.consVotesBlock.get? (voteKey r j)).isSome = true := by
  cases h with
  | dummy => exact hw
  | block vote hround hsig hdummy hprop =>
      show ((db.consVotesBlock.insert (voteKey db.getCurrentRound i) vote).get?
        (voteKey r j)).isSome = true
      rw [SortedTable.get?_insert]
      split
      · rfl
      · exact hw
  | proposal vote payload hround hsig hdummy hleader hfits hext hnone =>
      rw [hnone] at hprop
      cases hprop

theorem VoteIntake.voted (h : VoteIntake db params i resp db') :
    resp.block.inner.round = db.getCurrentRound ∧
      SigOk params.peers (.header resp.block.inner) i resp.block.sig := by
  cases h with
  | dummy vote hround hsig => exact ⟨hround, hsig⟩
  | block vote hround hsig => exact ⟨hround, hsig⟩
  | proposal vote payload hround hsig => exact ⟨hround, hsig⟩

end Votes

/-! ## Where a block vote comes from -/

section Steps

/-- After a notarized block came in, some block is notarized in its round. -/
theorem NotarizedIntake.exists_notarized {resp : WaitNotarizedBlockResponse D S}
    {db db' : Db D S} (h : NotarizedIntake db resp db')
    (hdummy : resp.block.inner.isDummy = false) :
    ∃ b, db'.consBlocksNotarized.get? resp.block.inner.round = some b := by
  cases h with
  | dummies hd =>
      rw [hdummy] at hd
      cases hd
  | extend db₁ o hlater hext hdb =>
      rw [insertBlockVotes_sameBlocks.notarized]
      obtain ⟨_, _, ⟨e, he, hres⟩ | ⟨_, hres⟩⟩ :=
        Db.insertNotarizedBlock_eq_ok.mp hdb
      · cases hres
        exact ⟨e, he⟩
      · cases hres
        exact ⟨_, SortedTable.get?_insert_self _ _ _⟩
  | replace latest db₁ o hlatest hlater hnot hext hdb =>
      rw [insertBlockVotes_sameBlocks.notarized]
      obtain ⟨_, _, ⟨e, he, hres⟩ | ⟨_, hres⟩⟩ :=
        Db.insertNotarizedBlock_eq_ok.mp hdb
      · cases hres
        exact ⟨e, he⟩
      · cases hres
        exact ⟨_, SortedTable.get?_insert_self _ _ _⟩

variable [DecidableEq S] [Signing D S]

/-- How an op puts the block vote `w` of peer `j` into round `r`. -/
inductive NewVote (c : Consensus D S) (r : BlockRound) (j : PeerIdx)
    (w : SignedVote D S) : ConsensusOp D S → Prop
  /-- It was the message. -/
  | counted (resp : WaitVoteResponse D S) (params : ConsensusParams D)
      (hr : r = c.db.getCurrentRound) (hw : w = resp.block)
      (hround : w.inner.round = r) (hdummy : w.inner.isDummy = false)
      (hparams : c.db.getConsensusParams r = (.ok params : Outcome Empty _))
      (hsig : SigOk params.peers (.header w.inner) j w.sig) :
      NewVote c r j w (.vote j resp)
  /-- It was one of the signatures of a notarized block. -/
  | signed (resp : WaitNotarizedBlockResponse D S) (params : ConsensusParams D)
      (hround : w.inner.round = r) (hw : w.inner = resp.block.inner)
      (hmem : (j, w.sig) ∈ resp.block.sigs.entries)
      (hdummy : w.inner.isDummy = false)
      (hparams : c.db.getConsensusParams r = (.ok params : Outcome Empty _))
      (hsig : SigOk params.peers (.header w.inner) j w.sig)
      (hstored : ∃ b, (c.step (.notarized resp)).db.consBlocksNotarized.get? r =
        some b) :
      NewVote c r j w (.notarized resp)

theorem step_voteBlock_cases (c : Consensus D S) (op : ConsensusOp D S)
    (hinv : RoundInv c.db) {r : BlockRound} {j : PeerIdx} {w : SignedVote D S}
    (hw : (c.step op).db.getVoteBlock r j = some w) :
    c.db.getVoteBlock r j = some w ∨ NewVote c r j w op := by
  obtain ⟨c₁, hphase, hblock, hend⟩ := step_closed c op hinv
  have hw₁ : c₁.db.consVotesBlock.get? (voteKey r j) = some w := by
    rcases hend with ⟨hstop, _⟩ | ⟨v, hv⟩
    · rw [← hstop]
      exact hw
    · exact hv.voteBlock_sub hw
  unfold Db.getVoteBlock
  cases hphase with
  | same => exact Or.inl hw₁
  | vote i resp params db hparams hin =>
      refine (hin.voteBlock_cases hw₁).imp_right ?_
      rintro ⟨rfl, rfl, rfl, hdummy⟩
      obtain ⟨hround, hsig⟩ := hin.voted
      exact .counted resp params rfl rfl hround hdummy
        (Db.getConsensusParams_cast hparams) hsig
  | notarized resp params db _ hver hin =>
      refine (hin.voteBlock_cases hw₁).imp_right ?_
      rintro ⟨rfl, hinner, hmem, hdummy⟩
      obtain ⟨b, hb⟩ := hin.exists_notarized hdummy
      have hstored : (c.step (.notarized resp)).db.consBlocksNotarized.get?
          resp.block.inner.round = some b := by
        rcases hend with ⟨hstop, _⟩ | ⟨v, hv⟩
        · rw [hstop]
          exact hb
        · exact hv.notarized_mono hblock hb
      refine .signed resp params (congrArg _ hinner) hinner hmem ?_
        (Db.getConsensusParams_cast hver.scheduled) ?_ ⟨b, hstored⟩
      · rw [hinner]
        exact hdummy
      · rw [hinner]
        exact hver.sigs _ hmem
  | finality k resp c₁ hf =>
      rw [hf.db] at hw₁
      exact Or.inl hw₁
  | paramsChange =>
      rw [(insertConsensusParams_votes c.db _ _).1] at hw₁
      exact Or.inl hw₁
  | reopen fs c₁ hf =>
      rw [hf.db] at hw₁
      exact Or.inl hw₁

end Steps

end Consensus

end Bfte
