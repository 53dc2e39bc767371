import Bfte.Proofs.Restart

/-!
# How far one step moves the round

The round check leaves a round because of a block notarized there or later, of
the proposal stored for it, or of dummy votes. Proposals and dummy votes are kept
for rounds up to the current one only, and a round without a peer to vote in it is
never scheduled. So one step moves to the next round at most, unless it takes a
notarized block of a later round: then it moves to the round after the block.
-/

namespace Bfte

namespace Consensus

variable {D S : Type} [LinearOrder D]

/-- Nobody has given up on a round to come. -/
def NoDummyAhead (db : Db D S) : Prop :=
  ∀ r i sig, db.getVoteDummy r i = some sig → r ≤ db.getCurrentRound

theorem NoDummyAhead.voted_le {db : Db D S} (h : NoDummyAhead db) {r : BlockRound}
    (hr : db.getNumVotesDummy r ≠ 0) : r ≤ db.getCurrentRound := by
  obtain ⟨e, he⟩ := List.exists_mem_of_length_pos (Nat.pos_of_ne_zero hr)
  exact h r e.1 e.2 (mem_votesAt.mp he).1

/-- Every round has peers, and nobody has given up on a round to come. -/
structure Manned (db : Db D S) : Prop where
  peers : ∀ h p, db.consParams.get? h = some p → p.peers.len ≠ 0
  dummies : ∀ r i sig, db.getVoteDummy r i = some sig → r ≤ db.getCurrentRound

theorem Manned.peers_of_params {ε : Type} {db : Db D S} (h : Manned db)
    {r : BlockRound} {p : ConsensusParams D}
    (hp : (db.getConsensusParams r : Outcome ε _) = .ok p) : p.peers.len ≠ 0 := by
  obtain ⟨e, _, hget⟩ := Db.getConsensusParams_eq_ok.mp hp
  exact h.peers e.2 p hget

theorem Manned.voted_le {db : Db D S} (h : Manned db) {r : BlockRound}
    (hr : db.getNumVotesDummy r ≠ 0) : r ≤ db.getCurrentRound :=
  NoDummyAhead.voted_le h.dummies hr

variable [Hashing D]

/-! ## The round check -/

/-- The turns of the loop read the same votes, proposals and params. -/
theorem TurnCase.next_db {start : BlockRound} {highest : Option (BlockHeader D)}
    {v v' : RoundEnd D S} (h : TurnCase start highest v (.next v')) :
    v'.curRound = v.curRound ∧ SameParams v.db v'.db ∧
      v'.db.consBlocksProposals = v.db.consBlocksProposals ∧
      v'.db.consVotesDummy = v.db.consVotesDummy := by
  cases h with
  | notarized => exact ⟨rfl, .refl _, rfl, rfl⟩
  | voted params p db o above hparams hp hvotes hdb =>
      obtain ⟨_, _, hres⟩ := Db.insertNotarizedBlock_eq_ok.mp hdb
      rcases hres with ⟨_, _, hres⟩ | ⟨_, hres⟩ <;> cases hres <;>
        exact ⟨rfl, ⟨rfl, rfl⟩, rfl, rfl⟩
  | timedOut => exact ⟨rfl, .refl _, rfl, rfl⟩

/-- The round check goes to the next round at most, or past the highest block. -/
theorem checkRoundEnd_reach {c c' : Consensus D S} (hinv : BlockInv c.db)
    (hmanned : Manned c.db)
    (h : c.checkRoundEnd c.db.getCurrentRound = .ok c') :
    c'.db.getCurrentRound ≤ c.db.getCurrentRound + 1 ∨
      ∃ b ∈ c.db.getPrevNotarizedBlock BlockRound.MAX,
        c'.db.getCurrentRound ≤ b.round + 1 := by
  obtain ⟨v, b, hloop, hended⟩ := checkRoundEnd_ok h
  have hcur : c'.db.getCurrentRound = v.curRound := by
    obtain ⟨hresult, hdone⟩ := roundEndLoop_ok hinv.round_eq
      (fun r p hp => (hinv.proposal r p hp).2.2) hinv.cur_le hloop
    exact Closed.curRound ⟨hresult, ⟨b, hdone⟩, hended⟩
  rw [hcur]
  refine (roundEndLoop_induct
    (P := fun w => (w.curRound ≤ c.db.getCurrentRound + 1 ∨
        ∃ b ∈ c.db.getPrevNotarizedBlock BlockRound.MAX,
          w.curRound ≤ b.round + 1) ∧
      SameParams c.db w.db ∧
      w.db.consBlocksProposals = c.db.consBlocksProposals ∧
      w.db.consVotesDummy = c.db.consVotesDummy)
    (fun w w' ⟨_, hparams, hprop, hdummy⟩ _ hturn => ?_)
    (v := ⟨c.db, c.db.getCurrentRound, none⟩)
    (by show c.db.getCurrentRound + (BlockRound.MAX - c.db.getCurrentRound) = _
        exact Nat.add_sub_cancel' hinv.cur_le)
    ⟨Or.inl (Nat.le_succ _), .refl _, rfl, rfl⟩ hloop).1.1
  have hcase := (roundEndTurn_cases hturn).2
  obtain ⟨hsame, hparams', hprop', hdummy'⟩ := hcase.next_db
  refine ⟨?_, hparams.trans hparams', hprop'.trans hprop, hdummy'.trans hdummy⟩
  show w'.curRound + 1 ≤ _ ∨ ∃ b ∈ _, w'.curRound + 1 ≤ _
  rw [hsame]
  cases hcase with
  | notarized b hb hle => exact Or.inr ⟨b, hb, Nat.succ_le_succ hle⟩
  | voted params p db o above hparams'' hp =>
      rw [hprop] at hp
      exact Or.inl (Nat.succ_le_succ (hinv.proposal _ p hp).2.2)
  | timedOut params above hp hvotes =>
      rw [hparams.getConsensusParams] at hp
      have hsome := (NumPeers.threshold_pos (hmanned.peers_of_params hp)).ne'
      refine Or.inl (Nat.succ_le_succ (hmanned.voted_le fun hzero => ?_))
      have hcount : w.db.getNumVotesDummy w.curRound =
          c.db.getNumVotesDummy w.curRound := by
        unfold Db.getNumVotesDummy
        rw [hdummy]
      rw [hcount, hzero] at hvotes
      exact hsome (Nat.le_zero.mp hvotes)

theorem Closed.noDummyAhead {c c' : Consensus D S} {v : RoundEnd D S}
    (h : Closed c v c') (hd : NoDummyAhead c.db) : NoDummyAhead c'.db :=
  fun r i sig hs => (hd r i sig (h.voteDummy_sub hs)).trans h.cur_le

theorem Closed.manned {c c' : Consensus D S} {v : RoundEnd D S}
    (h : Closed c v c') (hmanned : Manned c.db) : Manned c'.db where
  peers := by
    rw [h.sameParams.params]
    exact hmanned.peers
  dummies := h.noDummyAhead hmanned.dummies

omit [Hashing D] in
theorem FinalityFrame.noDummyAhead {c c' : Consensus D S} (h : FinalityFrame c c')
    (hd : NoDummyAhead c.db) : NoDummyAhead c'.db := by
  intro r i sig hs
  rw [h.sameBlocks.getCurrentRound]
  exact hd r i sig (h.dummy r i sig hs)

omit [Hashing D] in
theorem FinalityFrame.manned {c c' : Consensus D S} (h : FinalityFrame c c')
    (hmanned : Manned c.db) : Manned c'.db where
  peers := by
    rw [h.sameParams.params]
    exact hmanned.peers
  dummies := h.noDummyAhead hmanned.dummies

/-- A change to a peer set that is not empty. -/
theorem Manned.paramsChange {ε : Type} {c c' : Consensus D S} {round : BlockRound}
    {t : Timestamp} {s : PeerSet} (h : Manned c.db) (hs : s.len ≠ 0)
    (hok : (c.consensusParamsChangeTx round t s : Outcome ε _) = .ok c') :
    Manned c'.db := by
  obtain ⟨cur, new, _, hnew, _, rfl⟩ := consensusParamsChangeTx_ok hok
  have hpeers : new.peers = s := by
    simp only [ConsensusParams.makeChange, Outcome.bind_eq_ok,
      Outcome.pure_eq_ok] at hnew
    obtain ⟨_, _, _, _, rfl⟩ := hnew
    rfl
  refine ⟨fun hash p hget => ?_, fun r i sig hsig => ?_⟩
  · rcases get?_insertConsensusParams hget with ⟨_, rfl⟩ | hold
    · rw [hpeers]
      exact hs
    · exact h.peers hash p hold
  · unfold Db.getVoteDummy at hsig
    rw [(insertConsensusParams_votes c.db new.applyRound new).2] at hsig
    rw [(insertConsensusParams_sameBlocks c.db new.applyRound new).getCurrentRound]
    exact h.dummies r i sig hsig

/-! ## Messages -/

section Messages

variable [Signing D S] {db db' : Db D S}

theorem VoteIntake.noDummyAhead {params : ConsensusParams D} {i : PeerIdx}
    {resp : WaitVoteResponse D S} (h : VoteIntake db params i resp db')
    (hd : NoDummyAhead db) : NoDummyAhead db' := by
  intro r j sig hs
  rw [h.curRound]
  rcases h.voteDummy_cases hs with hold | ⟨rfl, _⟩
  · exact hd r j sig hold
  · exact le_rfl

theorem VoteIntake.manned {params : ConsensusParams D} {i : PeerIdx}
    {resp : WaitVoteResponse D S} (h : VoteIntake db params i resp db')
    (hmanned : Manned db) : Manned db' where
  peers := by
    rw [h.sameParams.params]
    exact hmanned.peers
  dummies := h.noDummyAhead hmanned.dummies

omit [Signing D S] in
theorem NotarizedIntake.noDummyAhead {resp : WaitNotarizedBlockResponse D S}
    (h : NotarizedIntake db resp db') (hd : NoDummyAhead db) : NoDummyAhead db' := by
  intro r j sig hs
  rw [h.curRound]
  rcases h.voteDummy_cases hs with hold | ⟨rfl, _⟩
  · exact hd r j sig hold
  · exact le_rfl

omit [Signing D S] in
theorem NotarizedIntake.manned {resp : WaitNotarizedBlockResponse D S}
    (h : NotarizedIntake db resp db') (hmanned : Manned db) : Manned db' where
  peers := by
    rw [h.sameParams.params]
    exact hmanned.peers
  dummies := h.noDummyAhead hmanned.dummies

omit [Signing D S] in
/-- A notarized block that is new in the table is the one taken. -/
theorem Adopted.taken {block : BlockHeader D}
    {t : SortedTable BlockRound (BlockHeader D)} (h : Adopted db block t)
    {r : BlockRound} {b : BlockHeader D} (hb : t.get? r = some b) :
    db.consBlocksNotarized.get? r = some b ∨
      (r = block.round ∧ block.isDummy = false ∧ Takes db block) := by
  rcases h.cases_get? hb with hold | ⟨hr, rfl, hdummy⟩
  · exact Or.inl hold
  · cases h with
    | unchanged => exact Or.inl hb
    | extended hlater hext => exact Or.inr ⟨hr, hdummy, hlater, Or.inl hext⟩
    | replaced latest hlatest hlater hext =>
        refine Or.inr ⟨hr, hdummy, fun b' hb' => ?_, Or.inr ⟨latest, hlatest, hext⟩⟩
        rw [hlatest] at hb'
        cases hb'
        exact hlater
    | dropped latest => exact Or.inl (SortedTable.get?_remove_eq_some.mp hb).2

omit [Signing D S] in
/-- The latest notarized block is replaced by a later one at most. -/
theorem Adopted.notarized_le {block : BlockHeader D}
    {t : SortedTable BlockRound (BlockHeader D)} (h : Adopted db block t)
    {r : BlockRound} {b : BlockHeader D}
    (hb : db.consBlocksNotarized.get? r = some b) :
    ∃ r' b', t.get? r' = some b' ∧ r ≤ r' := by
  have hkeep : ∀ {latest : BlockHeader D}, r ≠ latest.round →
      (db.consBlocksNotarized.remove latest.round).get? r = some b := by
    intro latest hne
    rw [SortedTable.get?_remove, if_neg hne]
    exact hb
  cases h with
  | unchanged => exact ⟨r, b, hb, le_rfl⟩
  | extended hlater hext hfree =>
      refine ⟨r, b, ?_, le_rfl⟩
      rw [SortedTable.get?_insert_of_ne, hb]
      rintro rfl
      rw [hfree] at hb
      cases hb
  | replaced latest hlatest hlater hext hfree =>
      by_cases hr : r = latest.round
      · exact ⟨_, _, SortedTable.get?_insert_self _ _ _, hr.trans_le hlater.le⟩
      · refine ⟨r, b, ?_, le_rfl⟩
        rw [SortedTable.get?_insert_of_ne, hkeep hr]
        rintro rfl
        rw [hkeep hr] at hfree
        cases hfree
  | dropped latest hlatest hlater hfull =>
      by_cases hr : r = latest.round
      · obtain ⟨b', hb'⟩ := Option.isSome_iff_exists.mp hfull
        refine ⟨block.round, b', ?_, hr.trans_le hlater.le⟩
        rw [SortedTable.get?_remove, if_neg (ne_of_gt hlater)]
        exact hb'
      · exact ⟨r, b, hkeep hr, le_rfl⟩

end Messages

/-! ## One step -/

section Steps

variable [DecidableEq S] [Signing D S]

omit [DecidableEq S] in
theorem Phase.noDummyAhead {c c₁ : Consensus D S} {op : ConsensusOp D S}
    (h : Phase c op c₁) (hd : NoDummyAhead c.db) : NoDummyAhead c₁.db := by
  cases h with
  | same => exact hd
  | vote i resp params db _ hin => exact hin.noDummyAhead hd
  | notarized resp params db _ _ hin => exact hin.noDummyAhead hd
  | finality k resp c₁ hf => exact hf.noDummyAhead hd
  | paramsChange round timestamp peers new =>
      have hsame := insertConsensusParams_sameBlocks c.db new.applyRound new
      intro r i sig hs
      rw [hsame.getCurrentRound]
      refine hd r i sig ?_
      unfold Db.getVoteDummy at hs ⊢
      rw [← (insertConsensusParams_votes c.db new.applyRound new).2]
      exact hs
  | reopen fs c₁ hf =>
      exact FinalityFrame.noDummyAhead (c := fresh c.db c.ourPeerPubkey c.trace fs) hf hd

theorem step_noDummyAhead (c : Consensus D S) (op : ConsensusOp D S)
    (hround : RoundInv c.db) (hd : NoDummyAhead c.db) : NoDummyAhead (c.step op).db := by
  obtain ⟨c₁, hphase, _, ⟨hstop, _⟩ | ⟨v, hv⟩⟩ := step_closed c op hround
  · rw [hstop]
    exact hphase.noDummyAhead hd
  · exact hv.noDummyAhead (hphase.noDummyAhead hd)

/-- How one step moves the round. -/
structure Moved (c c' : Consensus D S) (op : ConsensusOp D S) : Prop where
  manned : Manned c'.db
  cur_le : c.db.getCurrentRound ≤ c'.db.getCurrentRound
  settled : c'.db.getCurrentRound = c.db.getCurrentRound ∨ Idle c'.db
  reach : c'.db.getCurrentRound ≤ c.db.getCurrentRound + 1 ∨
    ∃ resp, op = .notarized resp ∧ resp.block.inner.isDummy = false ∧
      checkNotarized c.db resp = .ok () ∧ Takes c.db resp.block.inner ∧
      c'.db.getCurrentRound ≤ resp.block.inner.round + 1

omit [DecidableEq S] in
/-- A step that neither moves the round nor touches a vote or the params. -/
theorem Moved.still {c c' : Consensus D S} {op : ConsensusOp D S}
    (hmanned : Manned c'.db)
    (hcur : c'.db.getCurrentRound = c.db.getCurrentRound) : Moved c c' op :=
  ⟨hmanned, hcur.symm.le, Or.inl hcur, Or.inl (by rw [hcur]; exact Nat.le_succ _)⟩

omit [Hashing D] [DecidableEq S] [Signing D S] in
theorem highest_lt [Hashing D] {db : Db D S} (h : RoundInv db)
    {b : BlockHeader D} (hb : db.getPrevNotarizedBlock BlockRound.MAX = some b) :
    b.round < db.getCurrentRound := by
  obtain ⟨hget, hlt, _⟩ := (getPrevNotarizedBlock_eq_some h.round_eq).mp hb
  exact (h.behind _ _ hget).resolve_right (not_le.mpr hlt)

theorem step_moved (c : Consensus D S) (op : ConsensusOp D S)
    (hround : RoundInv c.db) (hmanned : Manned c.db)
    (hop : ∀ r t s, op ≠ .paramsChange r t s) : Moved c (c.step op) op := by
  have hcase := step_cases c op
  generalize c.step op = c' at hcase
  cases hcase with
  | same => exact .still hmanned rfl
  | vote i resp params db _ hparams hin hcounted =>
      have hdb := hin.roundInv hround
      have hready := hin.manned hmanned
      rcases hcounted with ⟨_, rfl⟩ | ⟨_, hcheck⟩
      · exact .still hready hin.curRound
      · rw [← hin.curRound] at hcheck
        obtain ⟨v, hv⟩ := checkRoundEnd_closed hdb.toBlockInv hcheck
        refine ⟨hv.manned hready, hin.curRound ▸ hv.cur_le, Or.inr hv.idle,
          Or.inl ?_⟩
        rcases checkRoundEnd_reach hdb.toBlockInv hready hcheck with hle |
          ⟨b, hb, hle⟩
        · rw [hin.curRound] at hle
          exact hle
        · have hlt : b.round < db.getCurrentRound := highest_lt hdb hb
          rw [hin.curRound] at hlt
          exact hle.trans (Nat.succ_le_succ hlt.le)
  | notarized resp params db _ hok hver hin hcheck =>
      have hdb := hin.blockInv hround.toBlockInv
      have hready := hin.manned hmanned
      rw [← hin.curRound] at hcheck
      obtain ⟨v, hv⟩ := checkRoundEnd_closed hdb hcheck
      refine ⟨hv.manned hready, hin.curRound ▸ hv.cur_le, Or.inr hv.idle, ?_⟩
      rcases checkRoundEnd_reach hdb hready hcheck with hle | ⟨b, hb, hle⟩
      · rw [hin.curRound] at hle
        exact Or.inl hle
      · obtain ⟨hget, hlt, _⟩ := (getPrevNotarizedBlock_eq_some hdb.round_eq).mp hb
        rcases hin.adopted.taken hget with hold | ⟨hr, hdummy, htakes⟩
        · have hbehind := (hround.behind _ _ hold).resolve_right (not_le.mpr hlt)
          exact Or.inl (hle.trans (Nat.succ_le_succ hbehind.le))
        · rw [hr] at hle
          exact Or.inr ⟨resp, rfl, hdummy, hok, htakes, hle⟩
  | finality k resp _ hsig hupdate =>
      have hf := updatePeerFinalityVoteRound_frame hupdate
      exact .still (hf.manned hmanned) hf.sameBlocks.getCurrentRound
  | paramsChange r t s => exact absurd rfl (hop r t s)
  | reopen _ hopen =>
      obtain ⟨fs, c₁, _, hf, hcheck⟩ := openInternal_ok hopen
      have hsame : SameBlocks c.db c₁.db := hf.sameBlocks
      have hdb := hround.congr hsame
      have hready : Manned c₁.db := hf.manned hmanned
      obtain ⟨v, hv⟩ := checkRoundEnd_closed hdb.toBlockInv hcheck
      refine ⟨hv.manned hready, hsame.getCurrentRound ▸ hv.cur_le, Or.inr hv.idle,
        Or.inl ?_⟩
      rw [← hsame.getCurrentRound]
      rcases checkRoundEnd_reach hdb.toBlockInv hready hcheck with hle |
        ⟨b, hb, hle⟩
      · exact hle
      · exact hle.trans (Nat.succ_le_succ (highest_lt hdb hb).le)

/-- A finality vote or a restart does not move on from an idle round. -/
theorem step_of_idle (c : Consensus D S) (op : ConsensusOp D S)
    (hround : RoundInv c.db) (hidle : Idle c.db)
    (hop : op = .reopen ∨ ∃ k resp, op = .finality k resp) :
    (c.step op).db.getCurrentRound = c.db.getCurrentRound ∧
      Idle (c.step op).db := by
  have hcase := step_cases c op
  generalize c.step op = c' at hcase
  cases hcase with
  | same => exact ⟨rfl, hidle⟩
  | finality k resp _ hsig hupdate =>
      have hf := updatePeerFinalityVoteRound_frame hupdate
      exact ⟨hf.sameBlocks.getCurrentRound, hf.idle hidle⟩
  | reopen _ hopen =>
      obtain ⟨fs, c₁, _, hf, hcheck⟩ := openInternal_ok hopen
      have hsame : SameBlocks c.db c₁.db := hf.sameBlocks
      have hidle₁ : Idle c₁.db := hf.idle hidle
      obtain ⟨c₂, hcheck₂, hcases⟩ := checkRoundEnd_of_idle (hround.congr hsame)
        hidle₁
      obtain rfl : _ = c₂ := Except.ok.inj (hcheck.symm.trans hcheck₂)
      have hdb : ∀ b, (c₁.sendCurrentRound c₁.db.getCurrentRound b).db = c₁.db := by
        intro b
        unfold sendCurrentRound
        split <;> rfl
      rcases hcases with rfl | rfl
      · exact ⟨hsame.getCurrentRound, hidle₁⟩
      · rw [hdb]
        exact ⟨hsame.getCurrentRound, hidle₁⟩
  | vote => rcases hop with hop | ⟨_, _, hop⟩ <;> cases hop
  | notarized => rcases hop with hop | ⟨_, _, hop⟩ <;> cases hop
  | paramsChange => rcases hop with hop | ⟨_, _, hop⟩ <;> cases hop

omit [DecidableEq S] [Signing D S] in
/-- A database can be initialized only with params that have peers. -/
theorem init_manned {params : ConsensusParams D} {k : Option PeerPubkey}
    {pinned : Option (BlockRound × D)} {c : Consensus D S}
    (h : init params Db.empty k pinned = .ok c) : Manned c.db := by
  obtain ⟨c₁, v, hsame, hv⟩ := init_closed h
  have honly : ∀ hash p, c.db.consParams.get? hash = some p → p = params := by
    intro hash p hp
    rw [(init_sameParams h).params] at hp
    simp only [Db.insertConsensusParams, Db.empty, SortedTable.get?_empty,
      SortedTable.get?_insert] at hp
    split at hp
    · exact (Option.some.inj hp).symm
    · cases hp
  obtain ⟨p, hp, _, _, hfew⟩ := hv.idle
  obtain ⟨e, _, hget⟩ := Db.getConsensusParams_eq_ok.mp hp
  rw [honly _ _ hget] at hfew
  refine ⟨fun hash p' hp' => ?_, fun r i sig hs => ?_⟩
  · rw [honly _ _ hp']
    exact NumPeers.total_ne_zero hfew
  · rw [(init_votes h r i).2] at hs
    cases hs

omit [DecidableEq S] [Signing D S] in
theorem init_idle {params : ConsensusParams D} {k : Option PeerPubkey}
    {pinned : Option (BlockRound × D)} {c : Consensus D S}
    (h : init params Db.empty k pinned = .ok c) : Idle c.db := by
  obtain ⟨_, _, _, hv⟩ := init_closed h
  exact hv.idle

omit [DecidableEq S] [Signing D S] in
/-- A new database starts in one of the first two rounds. -/
theorem init_cur_le {params : ConsensusParams D} {k : Option PeerPubkey}
    {pinned : Option (BlockRound × D)} {c : Consensus D S}
    (h : init params Db.empty k pinned = .ok c) : c.db.getCurrentRound ≤ 1 := by
  obtain ⟨fs, c₁, hf, hsame, hdb, hcheck⟩ := init_checked h
  obtain ⟨v, hv⟩ := checkRoundEnd_closed hdb hcheck
  have hmanned : Manned c₁.db := by
    refine ⟨?_, fun r i sig hs => ?_⟩
    · rw [← hv.sameParams.params]
      exact (init_manned h).peers
    · have hwritten : (insertPin ((Db.empty : Db D S).insertConsensusParams 0
          params).1 pinned).consVotesDummy.get? (voteKey r i) = some sig :=
        hf.dummy r i sig hs
      rw [(initTx_votes params pinned).2] at hwritten
      cases hwritten
  have hzero : c₁.db.getCurrentRound = 0 := hsame.getCurrentRound
  rcases checkRoundEnd_reach hdb hmanned hcheck with hle | ⟨b, hb, _⟩
  · rw [hzero] at hle
    exact hle
  · have hget := hdb.prev_mem hb
    rw [hsame.notarized] at hget
    cases hget

/-- The latest notarized block may be replaced, but not by an earlier one. -/
theorem step_notarized_le (c : Consensus D S) (op : ConsensusOp D S)
    (hround : RoundInv c.db) {r : BlockRound} {b : BlockHeader D}
    (hb : c.db.consBlocksNotarized.get? r = some b) :
    ∃ r' b', (c.step op).db.consBlocksNotarized.get? r' = some b' ∧ r ≤ r' := by
  obtain ⟨c₁, hphase, hblock, hend⟩ := step_closed c op hround
  obtain ⟨r', b', hb', hle⟩ : ∃ r' b',
      c₁.db.consBlocksNotarized.get? r' = some b' ∧ r ≤ r' := by
    rcases hphase.notarized_cases with heq | ⟨resp, _, _, hadopted⟩
    · exact ⟨r, b, by rw [heq]; exact hb, le_rfl⟩
    · exact hadopted.notarized_le hb
  rcases hend with ⟨hstop, _⟩ | ⟨v, hv⟩
  · rw [hstop]
    exact ⟨r', b', hb', hle⟩
  · exact ⟨r', b', hv.notarized_mono hblock hb', hle⟩

/-- A notarized block that is new is of the round the step found, or was taken. -/
theorem step_notarized_cases (c : Consensus D S) (op : ConsensusOp D S)
    (hround : RoundInv c.db) {r : BlockRound} {b : BlockHeader D}
    (hb : (c.step op).db.consBlocksNotarized.get? r = some b) :
    c.db.consBlocksNotarized.get? r = some b ∨ r = c.db.getCurrentRound ∨
      ∃ resp, op = .notarized resp ∧ r = resp.block.inner.round ∧
        resp.block.inner.isDummy = false ∧ checkNotarized c.db resp = .ok () ∧
        Takes c.db resp.block.inner := by
  obtain ⟨c₁, hphase, _, hend⟩ := step_closed c op hround
  have hcases : c₁.db.consBlocksNotarized.get? r = some b ∨
      r = c.db.getCurrentRound := by
    rcases hend with ⟨hstop, _⟩ | ⟨v, hv⟩
    · rw [hstop] at hb
      exact Or.inl hb
    · rcases hv.notarized_cases hb with hold | ⟨hr, _⟩
      · exact Or.inl hold
      · exact Or.inr (hr.trans hphase.curRound)
  rcases hcases with hb₁ | hr
  · rcases hphase.notarized_cases with heq | ⟨resp, rfl, hok, hadopted⟩
    · rw [heq] at hb₁
      exact Or.inl hb₁
    · rcases hadopted.taken hb₁ with hkept | ⟨hr, hdummy, htakes⟩
      · exact Or.inl hkept
      · exact Or.inr (Or.inr ⟨resp, rfl, hr, hdummy, hok, htakes⟩)
  · exact Or.inr (Or.inl hr)

end Steps

end Consensus

end Bfte
