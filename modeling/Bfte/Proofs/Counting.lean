import Bfte.Proofs.Records
import Bfte.Proofs.RoundReach

/-!
# What the round check counts

The round check counts the block votes of a round without looking at what they are
for. While the params stay as they are, this is right: as soon as a proposal is
stored, the votes of its round are votes for it. A notarized block of the current
round that comes in brings its own votes, but then the round is over, unless it is
the last one there is; and there the round check does not get through.

So a notarized block was received with its signatures, or `Elected`: there are enough
votes for it among those stored.
-/

namespace Bfte

namespace Consensus

variable {D S : Type} [LinearOrder D]

/-- The votes stored in the round are enough, and they are for `b`. -/
structure Elected (P : ConsensusParams D) (db : Db D S) (r : BlockRound)
    (b : BlockHeader D) : Prop where
  enough : (NumPeers.mk P.peers.len).threshold ≤ db.getNumVotesProposal r
  votes : ∀ j v, db.getVoteBlock r j = some v → v.inner = b

variable [Signing D S]

/-- The params are `P` in all rounds, and the block votes are by its peers. -/
structure Fixed (P : ConsensusParams D) (db : Db D S) : Prop where
  params : ∀ r, (db.getConsensusParams r : Outcome Empty _) = .ok P
  len : P.peers.len ≤ 255
  signed : ∀ r j v, db.getVoteBlock r j = some v →
    v.inner.round = r ∧ SigOk P.peers (.header v.inner) j v.sig

/-- The block votes of the current round are for the proposal stored. -/
def ForProposal (db : Db D S) : Prop :=
  ∀ p, db.consBlocksProposals.get? db.getCurrentRound = some p →
    ∀ j v, db.getVoteBlock db.getCurrentRound j = some v → v.inner = p

/-- The invariant. -/
structure CountInv [Hashing D] (P : ConsensusParams D) (db : Db D S) : Prop
    extends RoundInv db, Fixed P db where
  counted : ForProposal db
  quiet : db.getNumVotesDummy db.getCurrentRound <
    (NumPeers.mk P.peers.len).threshold

/-- A block of the current round was notarized by the votes stored. -/
structure Full (P : ConsensusParams D) (db : Db D S) : Prop where
  block : (db.consBlocksNotarized.get? db.getCurrentRound).isSome = true
  enough : (NumPeers.mk P.peers.len).threshold ≤
    db.getNumVotesProposal db.getCurrentRound

variable {P : ConsensusParams D}

theorem Fixed.params_eq {ε : Type} {db : Db D S} (h : Fixed P db)
    {r : BlockRound} {p : ConsensusParams D}
    (hp : (db.getConsensusParams r : Outcome ε _) = .ok p) : p = P :=
  Db.getConsensusParams_unique hp (h.params r)

theorem Fixed.lt_max {db : Db D S} (h : Fixed P db) {r : BlockRound}
    {j : PeerIdx} {v : SignedVote D S} (hv : db.getVoteBlock r j = some v) :
    j < PeerIdx.MAX :=
  lt_of_lt_of_le (h.signed r j v hv).2.lt_len h.len

/-- Fewer votes under the same params. -/
theorem Fixed.mono {db db' : Db D S} (h : Fixed P db)
    (hsame : SameParams db db')
    (hvotes : ∀ r j v, db'.getVoteBlock r j = some v →
      db.getVoteBlock r j = some v ∨
        (v.inner.round = r ∧ SigOk P.peers (.header v.inner) j v.sig)) :
    Fixed P db' where
  params r := (hsame.getConsensusParams r).trans (h.params r)
  len := h.len
  signed r j v hv := (hvotes r j v hv).elim (h.signed r j v) id

variable [Hashing D]

/-! ## The round check -/

section Check

variable {c c' : Consensus D S} {v : RoundEnd D S}

theorem Closed.fixed (h : Closed c v c') (hfixed : Fixed P c.db) :
    Fixed P c'.db :=
  hfixed.mono h.sameParams fun _ _ _ hw => Or.inl (h.voteBlock_sub hw)

/-- In a round that is left as it was, there are not enough votes. -/
theorem Closed.not_full (h : Closed c v c') (hfixed : Fixed P c.db)
    (hstill : c'.db.getCurrentRound = c.db.getCurrentRound) (hfull : Full P c.db)
    (p : BlockHeader D) :
    c'.db.consBlocksProposals.get? c'.db.getCurrentRound ≠ some p := by
  intro hp
  obtain ⟨params, hparams, _, hfew, _⟩ := h.idle
  have hsame : params = P := (h.fixed hfixed).params_eq hparams
  have hvotes : c'.db.getNumVotesProposal c'.db.getCurrentRound =
      c.db.getNumVotesProposal c.db.getCurrentRound := by
    unfold Db.getNumVotesProposal
    rw [h.voteBlock_still hstill, hstill]
  have hlt := hfew (by rw [hp]; rfl)
  rw [hvotes, hsame] at hlt
  exact absurd hfull.enough (not_le.mpr hlt)

theorem Closed.countInv (h : Closed c v c') (hinv : BlockInv c.db)
    (hfixed : Fixed P c.db) (hfor : ForProposal c.db ∨ Full P c.db) :
    CountInv P c'.db where
  toRoundInv := h.roundInv hinv
  toFixed := h.fixed hfixed
  counted := by
    rcases eq_or_lt_of_le h.cur_le with hstill | hmoved
    · rcases hfor with hfor | hfull
      · unfold ForProposal Db.getVoteBlock
        rw [h.proposals_eq, ← hstill, h.voteBlock_still hstill.symm]
        exact hfor
      · intro p hp
        exact absurd hp (h.not_full hfixed hstill.symm hfull p)
    · intro p hp
      rw [h.proposal_none hinv hmoved] at hp
      cases hp
  quiet := by
    obtain ⟨params, hparams, _, _, hfew⟩ := h.idle
    have hsame : params = P := (h.fixed hfixed).params_eq hparams
    rw [← hsame]
    exact hfew

/-- What the round check notarizes is elected. -/
theorem Closed.elected (h : Closed c v c') (hinv : BlockInv c.db)
    (hfixed : Fixed P c.db) (hfor : ForProposal c.db ∨ Full P c.db)
    {r : BlockRound} {b : BlockHeader D}
    (hb : c'.db.consBlocksNotarized.get? r = some b) :
    c.db.consBlocksNotarized.get? r = some b ∨ Elected P c'.db r b := by
  rw [h.notarized_eq] at hb
  have hvotes : c'.db.consVotesBlock = v.db.consVotesBlock := by rw [h.ended.db]
  have hn := h.loop.notarizes
  generalize v.newLastNotarizedRound = last at hn
  generalize v.db = vdb at hb hn hvotes
  cases hn with
  | nothing => exact Or.inl hb
  | received => exact Or.inl hb
  | voted params p below hlt hparams hp hround hdummy henough =>
      have hfor : ForProposal c.db := by
        refine hfor.resolve_right fun hfull => ?_
        obtain ⟨b', hb'⟩ := Option.isSome_iff_exists.mp hfull.block
        obtain ⟨top, htop, hle⟩ := notarized_le_highest hinv.round_eq hb' hlt
        exact absurd (below top htop) (not_lt.mpr hle)
      have hretain : c.db.storeNotarized c.db.getCurrentRound p none =
          { c.db with consBlocksNotarized :=
              c.db.consBlocksNotarized.insert c.db.getCurrentRound p } :=
        retainVotesFor_eq_self (hfor p hp)
      rw [hretain] at hb hvotes
      have hget : (c.db.consBlocksNotarized.insert c.db.getCurrentRound p).get? r =
        some b := hb
      rcases SortedTable.get?_insert_eq_some hget with ⟨heq, hpb⟩ | hold
      · have hsame : params = P := hfixed.params_eq hparams
        rw [← hpb] at hp
        refine Or.inr ⟨?_, ?_⟩
        · unfold Db.getNumVotesProposal
          rw [hvotes, heq, ← hsame]
          exact henough
        · unfold Db.getVoteBlock
          rw [hvotes, heq]
          exact hfor b hp
      · exact Or.inl hold

end Check

theorem CountInv.frame {c c' : Consensus D S} (h : CountInv P c.db)
    (hf : FinalityFrame c c') : CountInv P c'.db where
  toRoundInv := h.toRoundInv.congr hf.sameBlocks
  toFixed := by
    refine h.toFixed.mono hf.sameParams fun r j v hv => Or.inl ?_
    rw [hf.db] at hv
    exact hv
  counted := by
    unfold ForProposal Db.getVoteBlock
    rw [hf.sameBlocks.proposals, hf.sameBlocks.getCurrentRound, hf.db]
    exact h.counted
  quiet := by
    rw [hf.sameBlocks.getCurrentRound]
    refine lt_of_le_of_lt (votesAt_length_le fun i hi => ?_) h.quiet
    obtain ⟨sig, hs⟩ := Option.isSome_iff_exists.mp hi
    rw [hf.dummy _ _ _ hs]
    rfl

/-! ## Messages -/

section Messages

variable {db db' : Db D S}

theorem VoteIntake.forProposal {i : PeerIdx} {resp : WaitVoteResponse D S}
    (h : VoteIntake db P i resp db') (hfixed : Fixed P db)
    (hfor : ForProposal db) : ForProposal db' := by
  intro p hp j w hw
  rw [h.curRound] at hp hw
  cases h with
  | dummy => exact hfor p hp j w hw
  | block vote hround hsig hdummy hprop =>
      have hget : (db.consVotesBlock.insert (voteKey db.getCurrentRound i)
        vote).get? (voteKey db.getCurrentRound j) = some w := hw
      rcases get?_insert_voteKey hget with ⟨_, _, rfl⟩ | hold
      · exact (hprop p hp).symm
      · exact hfor p hp j w hold
  | proposal vote payload hround hsig hdummy hleader hfits hext hnone =>
      have hstored : (db.consBlocksProposals.insert db.getCurrentRound
        vote.inner).get? db.getCurrentRound = some p := hp
      rw [SortedTable.get?_insert_self] at hstored
      cases hstored
      exact inner_of_storeProposal hw hfixed.lt_max

omit [Hashing D] in
/-- A dummy vote that is stored already adds none. -/
theorem VoteIntake.numVotesDummy_le [Hashing D] [DecidableEq S] {i : PeerIdx}
    {resp : WaitVoteResponse D S} (h : VoteIntake db P i resp db')
    (hrep : Repeats (beforeVote db resp) i resp.block) :
    db'.getNumVotesDummy db.getCurrentRound ≤
      db.getNumVotesDummy db.getCurrentRound := by
  cases h with
  | dummy vote hround hsig hdummy hfits =>
      refine votesAt_length_le fun j hj => ?_
      have hstored : db.getVoteDummy db.getCurrentRound i = some vote.sig := by
        rcases hrep with ⟨_, hstored⟩ | ⟨hblock, _⟩
        · exact hstored
        · rw [show vote.inner.isDummy = false from hblock] at hdummy
          cases hdummy
      have hget : ((db.consVotesDummy.insert (voteKey db.getCurrentRound i)
        vote.sig).get? (voteKey db.getCurrentRound j)).isSome = true := hj
      exact SortedTable.isSome_get?_of_insert
        (Option.isSome_iff_exists.mpr ⟨_, hstored⟩) hget
  | block => exact le_rfl
  | proposal => exact le_rfl

theorem VoteIntake.fixed {i : PeerIdx} {resp : WaitVoteResponse D S}
    (h : VoteIntake db P i resp db') (hfixed : Fixed P db) : Fixed P db' := by
  refine hfixed.mono h.sameParams fun r j w hw => ?_
  rcases h.voteBlock_cases hw with hold | ⟨rfl, rfl, rfl, _⟩
  · exact Or.inl hold
  · exact Or.inr h.voted

theorem NotarizedIntake.fixed {resp : WaitNotarizedBlockResponse D S}
    (h : NotarizedIntake db resp db') (hver : Verified db resp P)
    (hfixed : Fixed P db) : Fixed P db' := by
  refine hfixed.mono h.sameParams fun r j w hw => ?_
  rcases h.voteBlock_cases hw with hold | ⟨hr, hinner, hmem, _⟩
  · exact Or.inl hold
  · rw [hinner, hr]
    exact Or.inr ⟨rfl, hver.sigs _ hmem⟩

/-- A block that is stored comes with enough votes for it. -/
theorem NotarizedIntake.enough {resp : WaitNotarizedBlockResponse D S}
    (h : NotarizedIntake db resp db') (hver : Verified db resp P)
    (hdummy : resp.block.inner.isDummy = false) :
    (db'.consBlocksNotarized.get? resp.block.inner.round).isSome = true ∧
      (NumPeers.mk P.peers.len).threshold ≤
        db'.getNumVotesProposal resp.block.inner.round := by
  have hlen : resp.block.sigs.entries.length =
      (resp.block.sigs.entries.map Prod.fst).length :=
    (List.length_map Prod.fst).symm
  have hnodup : (resp.block.sigs.entries.map Prod.fst).Nodup :=
    List.pairwise_map.mpr (resp.block.sigs.sorted.imp fun hlt => ne_of_lt hlt)
  have hstored : ∀ {db db₁ : Db D S} {o : InsertOutcome (BlockHeader D)},
      db.insertNotarizedBlock resp.block.inner.round resp.block.inner
        (some resp.payload) =
          (.ok (db₁, o) : Outcome ProcessNotarizedBlockError _) →
      ((db₁.insertBlockVotes resp.block.inner.round resp.block.inner
        resp.block.sigs.entries).consBlocksNotarized.get?
          resp.block.inner.round).isSome = true := by
    intro db db₁ o hdb
    rw [insertBlockVotes_sameBlocks.notarized]
    obtain ⟨_, _, ⟨e, he, hres⟩ | ⟨_, hres⟩⟩ :=
      Db.insertNotarizedBlock_eq_ok.mp hdb
    · cases hres
      rw [he]
      rfl
    · cases hres
      exact Option.isSome_iff_exists.mpr ⟨_, SortedTable.get?_insert_self _ _ _⟩
  have hvotes : ∀ db₁ : Db D S, (NumPeers.mk P.peers.len).threshold ≤
      (db₁.insertBlockVotes resp.block.inner.round resp.block.inner
        resp.block.sigs.entries).getNumVotesProposal resp.block.inner.round := by
    intro db₁
    refine (hver.enough.trans_eq hlen).trans (length_le_votesAt hnodup ?_)
    intro j hj
    obtain ⟨e, he, rfl⟩ := List.mem_map.mp hj
    exact ⟨(lt_of_lt_of_le (hver.sigs e he).lt_len hver.len).le,
      insertBlockVotes_isSome (Or.inr hj)⟩
  cases h with
  | dummies hd =>
      rw [hd] at hdummy
      cases hdummy
  | extend db₁ o hlater hext hdb => exact ⟨hstored hdb, hvotes db₁⟩
  | replace latest db₁ o hlatest hlater hnot hext hdb =>
      exact ⟨hstored hdb, hvotes db₁⟩

/-- A block of the current round comes with enough votes for it. -/
theorem NotarizedIntake.counted {resp : WaitNotarizedBlockResponse D S}
    (h : NotarizedIntake db resp db') (hver : Verified db resp P)
    (hfor : ForProposal db) : ForProposal db' ∨ Full P db' := by
  by_cases hother : resp.block.inner.isDummy = true ∨
      resp.block.inner.round ≠ db.getCurrentRound
  · refine Or.inl fun p hp j w hw => ?_
    rw [h.curRound] at hp hw
    rw [h.proposals_eq] at hp
    rcases h.voteBlock_cases hw with hold | ⟨hr, _, _, hdummy⟩
    · exact hfor p hp j w hold
    · rcases hother with hd | hne
      · rw [hd] at hdummy
        cases hdummy
      · exact absurd hr.symm hne
  · push Not at hother
    obtain ⟨hdummy, hround⟩ := hother
    obtain ⟨hblock, henough⟩ := h.enough hver (Bool.eq_false_iff.mpr hdummy)
    rw [hround, ← h.curRound] at hblock henough
    exact Or.inr ⟨hblock, henough⟩

end Messages

/-! ## Steps -/

section Steps

variable [DecidableEq S]

/-- How a block that is notarized after an op got there. -/
inductive Notarization (P : ConsensusParams D) (c : Consensus D S)
    (r : BlockRound) (b : BlockHeader D) : ConsensusOp D S → Prop
  | kept (op : ConsensusOp D S) (hold : c.db.consBlocksNotarized.get? r = some b) :
      Notarization P c r b op
  | elected (op : ConsensusOp D S) (helected : Elected P (c.step op).db r b) :
      Notarization P c r b op
  | received (resp : WaitNotarizedBlockResponse D S) (hr : r = resp.block.inner.round)
      (hb : b = resp.block.inner) (hdummy : b.isDummy = false)
      (hver : Verified c.db resp P) (htakes : Takes c.db b) :
      Notarization P c r b (.notarized resp)

/-- The params do not change. -/
theorem step_counted (c : Consensus D S) (op : ConsensusOp D S)
    (hop : ∀ r t s, op ≠ .paramsChange r t s) (hinv : CountInv P c.db) :
    CountInv P (c.step op).db ∧
      ∀ r b, (c.step op).db.consBlocksNotarized.get? r = some b →
        Notarization P c r b op := by
  have hcase := step_cases c op
  generalize hc' : c.step op = c' at hcase
  cases hcase with
  | same => exact ⟨hinv, fun r b hb => .kept _ hb⟩
  | vote i resp params db _ hparams hin hcounted =>
      have hP : params = P := hinv.params_eq hparams
      subst hP
      have hround := hin.roundInv hinv.toRoundInv
      have hfixed := hin.fixed hinv.toFixed
      have hfor := hin.forProposal hinv.toFixed hinv.counted
      rcases hcounted with ⟨hrep, rfl⟩ | ⟨_, hcheck⟩
      · refine ⟨⟨hround, hfixed, hfor, ?_⟩, fun r b hb => .kept _ ?_⟩
        · rw [hin.curRound]
          exact lt_of_le_of_lt (hin.numVotesDummy_le hrep) hinv.quiet
        · rw [← hin.notarized_eq]
          exact hb
      · rw [← hin.curRound] at hcheck
        obtain ⟨v, hv⟩ := checkRoundEnd_closed hround.toBlockInv hcheck
        refine ⟨hv.countInv hround.toBlockInv hfixed (Or.inl hfor), fun r b hb => ?_⟩
        rcases hv.elected hround.toBlockInv hfixed (Or.inl hfor) hb with hold | hel
        · rw [show _ = c.db.consBlocksNotarized from hin.notarized_eq] at hold
          exact .kept _ hold
        · exact .elected _ (hc' ▸ hel)
  | notarized resp params db _ hok hver hin hcheck =>
      have hP : params = P := hinv.params_eq hver.scheduled
      subst hP
      have hblock := hin.blockInv hinv.toBlockInv
      have hfixed := hin.fixed hver hinv.toFixed
      have hfor := hin.counted hver hinv.counted
      rw [← hin.curRound] at hcheck
      obtain ⟨v, hv⟩ := checkRoundEnd_closed hblock hcheck
      refine ⟨hv.countInv hblock hfixed hfor, fun r b hb => ?_⟩
      rcases hv.elected hblock hfixed hfor hb with hold | hel
      · obtain ⟨_, hbd⟩ := hblock.notarized r b hold
        rcases hin.adopted.cases_get? hold with hkept | ⟨hr, rfl, _⟩
        · exact .kept _ hkept
        · rcases hin.adopted.taken hold with hkept | ⟨_, _, htakes⟩
          · exact .kept _ hkept
          · exact .received resp hr rfl hbd hver htakes
      · exact .elected _ (hc' ▸ hel)
  | finality k resp _ hsig hupdate =>
      have hf := updatePeerFinalityVoteRound_frame hupdate
      refine ⟨hinv.frame hf, fun r b hb => .kept _ ?_⟩
      rw [← hf.sameBlocks.notarized]
      exact hb
  | paramsChange r t s => exact absurd rfl (hop r t s)
  | reopen _ hopen =>
      obtain ⟨fs, c₁, _, hf, hcheck⟩ := openInternal_ok hopen
      have hopened : CountInv P c₁.db :=
        CountInv.frame (c := fresh c.db c.ourPeerPubkey c.trace fs) hinv hf
      have hblock := hopened.toBlockInv
      obtain ⟨v, hv⟩ := checkRoundEnd_closed hblock hcheck
      refine ⟨hv.countInv hblock hopened.toFixed (Or.inl hopened.counted),
        fun r b hb => ?_⟩
      rcases hv.elected hblock hopened.toFixed (Or.inl hopened.counted) hb with
        hold | hel
      · rw [hf.sameBlocks.notarized] at hold
        exact .kept _ hold
      · exact .elected _ (hc' ▸ hel)

omit [DecidableEq S] in
theorem init_countInv {k : Option PeerPubkey}
    {pinned : Option (BlockRound × D)} {c : Consensus D S}
    (h : init P Db.empty k pinned = .ok c) : CountInv P c.db := by
  have hnone : ∀ r j v, c.db.getVoteBlock r j ≠ some v := by
    intro r j v
    rw [(init_votes h r j).1]
    simp
  have hparams : ∀ r, (c.db.getConsensusParams r : Outcome Empty _) = .ok P :=
    init_scheduled h
  obtain ⟨p, hp, hlen, _, hfew⟩ := init_idle h
  rw [hparams] at hp
  cases hp
  exact ⟨init_roundInv h, ⟨hparams, hlen, fun r j v hv => absurd hv (hnone r j v)⟩,
    fun p _ j v hv => absurd hv (hnone _ j v), hfew⟩

end Steps

end Consensus

end Bfte
