import Bfte.Proofs.Intake
import Bfte.Consensus.Steps

/-!
# Rounds and the tables keyed by them

`RoundInv` holds in every state a consensus can be in: the tables keyed by round
store blocks under their own round, none of them dummies, no proposal is ahead
of the current round, and every notarized block is behind it. The last part has
one exception, a block of the last round number there is, which the round check
does not see.

While a message is being processed a notarized block may be ahead of the current
round, so the round check starts from the weaker `BlockInv`. `Closed` is what it
ends in.
-/

namespace Bfte

namespace Consensus

variable {D S : Type} [LinearOrder D] [Hashing D]

/-- The tables keyed by round store what their key says. -/
structure BlockInv (db : Db D S) : Prop where
  cur_le : db.getCurrentRound ≤ BlockRound.MAX
  notarized : ∀ r h, db.consBlocksNotarized.get? r = some h →
    h.round = r ∧ h.isDummy = false
  proposal : ∀ r h, db.consBlocksProposals.get? r = some h →
    h.round = r ∧ h.isDummy = false ∧ r ≤ db.getCurrentRound

/-- And the notarized blocks are behind the current round. -/
structure RoundInv (db : Db D S) : Prop extends BlockInv db where
  behind : ∀ r h, db.consBlocksNotarized.get? r = some h →
    r < db.getCurrentRound ∨ BlockRound.MAX ≤ r

theorem BlockInv.round_eq {db : Db D S} (h : BlockInv db) :
    ∀ r b, db.consBlocksNotarized.get? r = some b → b.round = r :=
  fun r b hb => (h.notarized r b hb).1

/-! ## The latest notarized block -/

omit [Hashing D] in
theorem getPrevNotarizedBlock_eq_some {db : Db D S} {r : BlockRound}
    {b : BlockHeader D}
    (hkey : ∀ r h, db.consBlocksNotarized.get? r = some h → h.round = r) :
    db.getPrevNotarizedBlock r = some b ↔
      db.consBlocksNotarized.get? b.round = some b ∧ b.round < r ∧
        ∀ r' b', db.consBlocksNotarized.get? r' = some b' → r' < r →
          r' ≤ b.round := by
  unfold Db.getPrevNotarizedBlock
  constructor
  · intro h
    obtain ⟨⟨k, v⟩, hl, rfl⟩ := Option.map_eq_some_iff.mp h
    have hspec := SortedTable.lastBelow_eq_some.mp hl
    rw [hkey k v hspec.1]
    exact hspec
  · intro h
    rw [SortedTable.lastBelow_eq_some.mpr h, Option.map_some]

/-- The next block is stored under its round, and no other before it is. -/
theorem BlockInv.next_spec {db : Db D S} (h : BlockInv db) {r : BlockRound}
    {b : BlockHeader D} (hb : db.getNextNotarizedBlock r = some b) :
    db.consBlocksNotarized.get? b.round = some b ∧ r ≤ b.round ∧
      ∀ r' b', db.consBlocksNotarized.get? r' = some b' → r ≤ r' →
        b.round ≤ r' := by
  obtain ⟨⟨k, b'⟩, hfirst, rfl⟩ := Option.map_eq_some_iff.mp hb
  have hspec := SortedTable.firstFrom_eq_some.mp hfirst
  rw [← h.round_eq k b' hspec.1] at hspec
  exact hspec

theorem BlockInv.prev_mem {db : Db D S} (h : BlockInv db) {r : BlockRound}
    {b : BlockHeader D} (hb : db.getPrevNotarizedBlock r = some b) :
    db.consBlocksNotarized.get? b.round = some b :=
  ((getPrevNotarizedBlock_eq_some h.round_eq).mp hb).1

theorem BlockInv.prev_lt {db : Db D S} (h : BlockInv db) {r : BlockRound}
    {b : BlockHeader D} (hb : db.getPrevNotarizedBlock r = some b) : b.round < r :=
  ((getPrevNotarizedBlock_eq_some h.round_eq).mp hb).2.1

omit [Hashing D] in
theorem getPrevNotarizedBlock_eq_none {db : Db D S} {r : BlockRound} :
    db.getPrevNotarizedBlock r = none ↔
      ∀ r' b', db.consBlocksNotarized.get? r' = some b' → r ≤ r' := by
  unfold Db.getPrevNotarizedBlock
  rw [Option.map_eq_none_iff, SortedTable.lastBelow_eq_none]

/-! ## The round check -/

/-- The round check, run on `c`, stopped at `v` and ended in `c'`. -/
structure Closed (c : Consensus D S) (v : RoundEnd D S) (c' : Consensus D S) :
    Prop where
  loop : LoopResult c.db c.db.getCurrentRound v
  settled : ∃ b, TurnCase c.db.getCurrentRound
    (c.db.getPrevNotarizedBlock BlockRound.MAX) v (.done b)
  ended : RoundEnded c c.db.getCurrentRound v c'

theorem checkRoundEnd_closed {c c' : Consensus D S} (hinv : BlockInv c.db)
    (h : c.checkRoundEnd c.db.getCurrentRound = .ok c') : ∃ v, Closed c v c' := by
  obtain ⟨v, b, hloop, hended⟩ := checkRoundEnd_ok h
  obtain ⟨hresult, hdone⟩ := roundEndLoop_ok hinv.round_eq
    (fun r p hp => (hinv.proposal r p hp).2.2) hinv.cur_le hloop
  exact ⟨v, hresult, ⟨b, hdone⟩, hended⟩

theorem Notarizes.curRound {db db' : Db D S} {start : BlockRound}
    {last : Option BlockRound} (h : Notarizes db start db' last) :
    db'.consCurrentRound = db.consCurrentRound := by
  cases h <;> rfl

namespace Closed

variable {c c' : Consensus D S} {v : RoundEnd D S}

theorem curRound (h : Closed c v c') : c'.db.getCurrentRound = v.curRound := by
  unfold Db.getCurrentRound
  rw [h.ended.cur]
  split
  · next heq =>
      rw [h.loop.notarizes.curRound]
      exact heq
  · rfl

theorem cur_le (h : Closed c v c') :
    c.db.getCurrentRound ≤ c'.db.getCurrentRound := by
  rw [h.curRound]
  exact h.loop.start_le

theorem notarized_eq (h : Closed c v c') :
    c'.db.consBlocksNotarized = v.db.consBlocksNotarized := by
  rw [h.ended.db]

theorem proposals_eq (h : Closed c v c') :
    c'.db.consBlocksProposals = c.db.consBlocksProposals := by
  rw [← h.loop.notarizes.proposals, h.ended.db]

/-- A notarized block after the check was one before it, or is the proposal of
the round the check started in. -/
theorem notarized_cases (h : Closed c v c') {r : BlockRound} {b : BlockHeader D}
    (hb : c'.db.consBlocksNotarized.get? r = some b) :
    c.db.consBlocksNotarized.get? r = some b ∨
      (r = c.db.getCurrentRound ∧ r < c'.db.getCurrentRound ∧
        c.db.consBlocksProposals.get? r = some b ∧ b.round = r ∧
        b.isDummy = false) := by
  rw [h.notarized_eq] at hb
  have hlast := h.loop.last_lt
  have hn := h.loop.notarizes
  generalize v.newLastNotarizedRound = last at hlast hn
  generalize hvdb : v.db = vdb at hb hn
  cases hn with
  | nothing => exact Or.inl hb
  | received => exact Or.inl hb
  | voted params p below hlt hparams hp hround hdummy =>
      have hget : (c.db.consBlocksNotarized.insert c.db.getCurrentRound p).get? r =
          some b := hb
      rcases SortedTable.get?_insert_eq_some hget with ⟨rfl, rfl⟩ | hold
      · refine Or.inr ⟨rfl, ?_, hp, hround, hdummy⟩
        rw [h.curRound]
        exact hlast _ rfl
      · exact Or.inl hold

/-- What was notarized before the check still is. -/
theorem notarized_mono (h : Closed c v c') (hinv : BlockInv c.db) {r : BlockRound}
    {b : BlockHeader D} (hb : c.db.consBlocksNotarized.get? r = some b) :
    c'.db.consBlocksNotarized.get? r = some b := by
  rw [h.notarized_eq]
  have hn := h.loop.notarizes
  generalize v.newLastNotarizedRound = last at hn
  generalize v.db = vdb at hn
  cases hn with
  | nothing => exact hb
  | received => exact hb
  | voted params p below hlt hparams hp hround hdummy =>
      show (c.db.consBlocksNotarized.insert c.db.getCurrentRound p).get? r = some b
      rw [SortedTable.get?_insert_of_ne, hb]
      rintro rfl
      obtain ⟨b', hb', hle⟩ := notarized_le_highest hinv.round_eq hb hlt
      have := below b' hb'
      lia

/-- In the round the check started in, it changed no block. -/
theorem db_eq_of_still (h : Closed c v c')
    (hstill : c'.db.getCurrentRound = c.db.getCurrentRound) : v.db = c.db := by
  rw [h.curRound] at hstill
  have hlast := h.loop.last_lt
  have hn := h.loop.notarizes
  generalize v.newLastNotarizedRound = last at hlast hn
  generalize v.db = vdb at hn
  cases hn with
  | nothing => rfl
  | received => rfl
  | voted params p below hlt hparams hp hround hdummy =>
      have := hlast _ rfl
      lia

/-- Past the round the check started in, there is no proposal yet. -/
theorem proposal_none (h : Closed c v c') (hinv : BlockInv c.db)
    (hmoved : c.db.getCurrentRound < c'.db.getCurrentRound) :
    c'.db.consBlocksProposals.get? c'.db.getCurrentRound = none := by
  rw [h.proposals_eq]
  by_contra hsome
  obtain ⟨p, hp⟩ := Option.ne_none_iff_exists'.mp hsome
  have := (hinv.proposal _ p hp).2.2
  lia

theorem roundInv (h : Closed c v c') (hinv : BlockInv c.db) : RoundInv c'.db where
  cur_le := by
    rw [h.curRound]
    exact h.loop.cur_le
  notarized r b hb := by
    rcases h.notarized_cases hb with hold | ⟨_, _, _, hround, hdummy⟩
    · exact hinv.notarized r b hold
    · exact ⟨hround, hdummy⟩
  proposal r p hp := by
    rw [h.proposals_eq] at hp
    obtain ⟨hround, hdummy, hle⟩ := hinv.proposal r p hp
    exact ⟨hround, hdummy, hle.trans h.cur_le⟩
  behind r b hb := by
    rcases h.notarized_cases hb with hold | ⟨_, hlt, _⟩
    · by_cases hr : r < BlockRound.MAX
      · obtain ⟨b', hb', hle⟩ := notarized_le_highest hinv.round_eq hold hr
        have := h.loop.above b' hb'
        rw [h.curRound]
        exact Or.inl (lt_of_le_of_lt hle this)
      · exact Or.inr (not_lt.mp hr)
    · exact Or.inl hlt

end Closed

/-! ## Messages -/

/-- Two databases with the same blocks in the same round. -/
structure SameBlocks (db db' : Db D S) : Prop where
  curRound : db'.consCurrentRound = db.consCurrentRound
  notarized : db'.consBlocksNotarized = db.consBlocksNotarized
  proposals : db'.consBlocksProposals = db.consBlocksProposals

omit [Hashing D] in
theorem SameBlocks.getCurrentRound {db db' : Db D S} (h : SameBlocks db db') :
    db'.getCurrentRound = db.getCurrentRound := by
  unfold Db.getCurrentRound
  rw [h.curRound]

theorem BlockInv.congr {db db' : Db D S} (h : SameBlocks db db')
    (hinv : BlockInv db) : BlockInv db' where
  cur_le := by
    rw [h.getCurrentRound]
    exact hinv.cur_le
  notarized := by
    rw [h.notarized]
    exact hinv.notarized
  proposal := by
    rw [h.proposals, h.getCurrentRound]
    exact hinv.proposal

theorem RoundInv.congr {db db' : Db D S} (h : SameBlocks db db')
    (hinv : RoundInv db) : RoundInv db' where
  toBlockInv := hinv.toBlockInv.congr h
  behind := by
    rw [h.notarized, h.getCurrentRound]
    exact hinv.behind

omit [Hashing D] in
theorem FinalityFrame.sameBlocks {c c' : Consensus D S} (h : FinalityFrame c c') :
    SameBlocks c.db c'.db := by
  rw [h.db]
  exact ⟨rfl, rfl, rfl⟩

omit [Hashing D] in
theorem insertDummyVotes_sameBlocks {round : BlockRound} {l : List (PeerIdx × S)}
    {db : Db D S} : SameBlocks db (db.insertDummyVotes round l) := by
  induction l generalizing db with
  | nil => exact ⟨rfl, rfl, rfl⟩
  | cons e l ih =>
      have h := @ih (db.insertDummyVote round e.1 e.2).1
      exact ⟨h.curRound, h.notarized, h.proposals⟩

omit [Hashing D] in
theorem insertBlockVotes_sameBlocks {round : BlockRound} {b : BlockHeader D}
    {l : List (PeerIdx × S)} {db : Db D S} :
    SameBlocks db (db.insertBlockVotes round b l) := by
  induction l generalizing db with
  | nil => exact ⟨rfl, rfl, rfl⟩
  | cons e l ih =>
      have h := @ih (db.insertBlockVote round e.1 ⟨b, e.2⟩).1
      exact ⟨h.curRound, h.notarized, h.proposals⟩

section Intake

variable [Signing D S] {db db' : Db D S}

theorem VoteIntake.notarized_eq {params : ConsensusParams D} {i : PeerIdx}
    {resp : WaitVoteResponse D S} (h : VoteIntake db params i resp db') :
    db'.consBlocksNotarized = db.consBlocksNotarized := by
  cases h <;> rfl

theorem VoteIntake.curRound {params : ConsensusParams D} {i : PeerIdx}
    {resp : WaitVoteResponse D S} (h : VoteIntake db params i resp db') :
    db'.getCurrentRound = db.getCurrentRound := by
  cases h <;> rfl

/-- A proposal stored after the message was stored before it, or is what the
message proposed. -/
theorem VoteIntake.proposal_cases {params : ConsensusParams D} {i : PeerIdx}
    {resp : WaitVoteResponse D S} (h : VoteIntake db params i resp db')
    {r : BlockRound} {p : BlockHeader D}
    (hp : db'.consBlocksProposals.get? r = some p) :
    db.consBlocksProposals.get? r = some p ∨
      (r = db.getCurrentRound ∧ p = resp.block.inner ∧ p.round = r ∧
        p.isDummy = false ∧ p.Extends (db.getPrevNotarizedBlock r) ∧
        db.consBlocksProposals.get? r = none) := by
  cases h with
  | dummy => exact Or.inl hp
  | block => exact Or.inl hp
  | proposal vote payload hround hsig hdummy hleader hfits hext hnone =>
      have hget : (db.consBlocksProposals.insert db.getCurrentRound
          vote.inner).get? r = some p := hp
      rcases SortedTable.get?_insert_eq_some hget with ⟨rfl, rfl⟩ | hold
      · exact Or.inr ⟨rfl, rfl, hround, hdummy, hext, hnone⟩
      · exact Or.inl hold

theorem VoteIntake.roundInv {params : ConsensusParams D} {i : PeerIdx}
    {resp : WaitVoteResponse D S} (h : VoteIntake db params i resp db')
    (hinv : RoundInv db) : RoundInv db' where
  cur_le := by
    rw [h.curRound]
    exact hinv.cur_le
  notarized := by
    rw [h.notarized_eq]
    exact hinv.notarized
  behind := by
    rw [h.notarized_eq, h.curRound]
    exact hinv.behind
  proposal r p hp := by
    rw [h.curRound]
    rcases h.proposal_cases hp with hold | ⟨rfl, _, hround, hdummy, _⟩
    · exact hinv.proposal r p hold
    · exact ⟨hround, hdummy, le_refl _⟩

omit [Signing D S] in
theorem NotarizedIntake.curRound {resp : WaitNotarizedBlockResponse D S}
    (h : NotarizedIntake db resp db') :
    db'.getCurrentRound = db.getCurrentRound := by
  cases h with
  | dummies => exact insertDummyVotes_sameBlocks.getCurrentRound
  | extend db₁ o hlater hext hdb =>
      rw [insertBlockVotes_sameBlocks.getCurrentRound]
      obtain ⟨_, _, ⟨e, _, hres⟩ | ⟨_, hres⟩⟩ :=
        Db.insertNotarizedBlock_eq_ok.mp hdb <;> cases hres <;> rfl
  | replace latest db₁ o hlatest hlater hnot hext hdb =>
      rw [insertBlockVotes_sameBlocks.getCurrentRound]
      obtain ⟨_, _, ⟨e, _, hres⟩ | ⟨_, hres⟩⟩ :=
        Db.insertNotarizedBlock_eq_ok.mp hdb <;> cases hres <;> rfl

omit [Signing D S] in
theorem NotarizedIntake.proposals_eq {resp : WaitNotarizedBlockResponse D S}
    (h : NotarizedIntake db resp db') :
    db'.consBlocksProposals = db.consBlocksProposals := by
  cases h with
  | dummies => exact insertDummyVotes_sameBlocks.proposals
  | extend db₁ o hlater hext hdb =>
      rw [insertBlockVotes_sameBlocks.proposals]
      obtain ⟨_, _, ⟨e, _, hres⟩ | ⟨_, hres⟩⟩ :=
        Db.insertNotarizedBlock_eq_ok.mp hdb <;> cases hres <;> rfl
  | replace latest db₁ o hlatest hlater hnot hext hdb =>
      rw [insertBlockVotes_sameBlocks.proposals]
      obtain ⟨_, _, ⟨e, _, hres⟩ | ⟨_, hres⟩⟩ :=
        Db.insertNotarizedBlock_eq_ok.mp hdb <;> cases hres <;> rfl

/-- The notarized table after a notarized block was taken: as it was, or with
the block on top, perhaps in place of the latest one. -/
inductive Adopted (db : Db D S) (block : BlockHeader D) :
    SortedTable BlockRound (BlockHeader D) → Prop
  | unchanged : Adopted db block db.consBlocksNotarized
  | extended (hlater : ∀ b ∈ db.getPrevNotarizedBlock db.getCurrentRound,
        b.round < block.round)
      (hext : block.Extends (db.getPrevNotarizedBlock db.getCurrentRound))
      (hfree : db.consBlocksNotarized.get? block.round = none)
      (hdummy : block.isDummy = false) :
      Adopted db block (db.consBlocksNotarized.insert block.round block)
  | replaced (latest : BlockHeader D)
      (hlatest : db.getPrevNotarizedBlock db.getCurrentRound = some latest)
      (hlater : latest.round < block.round)
      (hext : block.Extends (db.getPrevNotarizedBlock latest.round))
      (hfree : (db.consBlocksNotarized.remove latest.round).get? block.round =
        none)
      (hdummy : block.isDummy = false) :
      Adopted db block
        ((db.consBlocksNotarized.remove latest.round).insert block.round block)
  | dropped (latest : BlockHeader D)
      (hlatest : db.getPrevNotarizedBlock db.getCurrentRound = some latest)
      (hlater : latest.round < block.round)
      (hfull : (db.consBlocksNotarized.get? block.round).isSome = true) :
      Adopted db block (db.consBlocksNotarized.remove latest.round)

omit [Signing D S] in
theorem NotarizedIntake.adopted {resp : WaitNotarizedBlockResponse D S}
    (h : NotarizedIntake db resp db') :
    Adopted db resp.block.inner db'.consBlocksNotarized := by
  cases h with
  | dummies =>
      rw [insertDummyVotes_sameBlocks.notarized]
      exact .unchanged
  | extend db₁ o hlater hext hdb =>
      rw [insertBlockVotes_sameBlocks.notarized]
      obtain ⟨_, hdummy, hres⟩ := Db.insertNotarizedBlock_eq_ok.mp hdb
      rcases hres with ⟨e, _, hres⟩ | ⟨hfree, hres⟩
      · cases hres
        exact .unchanged
      · cases hres
        exact .extended hlater hext hfree hdummy
  | replace latest db₁ o hlatest hlater hnot hext hdb =>
      rw [insertBlockVotes_sameBlocks.notarized]
      obtain ⟨_, hdummy, hres⟩ := Db.insertNotarizedBlock_eq_ok.mp hdb
      rcases hres with ⟨e, he, hres⟩ | ⟨hfree, hres⟩
      · cases hres
        refine .dropped latest hlatest hlater ?_
        have hget : (db.consBlocksNotarized.remove latest.round).get?
          resp.block.inner.round = some e := he
        rw [(SortedTable.get?_remove_eq_some.mp hget).2]
        rfl
      · cases hres
        exact .replaced latest hlatest hlater hext hfree hdummy

omit [Signing D S] in
theorem Adopted.cases_get? {block : BlockHeader D}
    {t : SortedTable BlockRound (BlockHeader D)} (h : Adopted db block t)
    {r : BlockRound} {b : BlockHeader D} (hb : t.get? r = some b) :
    db.consBlocksNotarized.get? r = some b ∨
      (r = block.round ∧ b = block ∧ block.isDummy = false) := by
  have hremoved : ∀ k, (db.consBlocksNotarized.remove k).get? r = some b →
      db.consBlocksNotarized.get? r = some b :=
    fun k hk => (SortedTable.get?_remove_eq_some.mp hk).2
  cases h with
  | unchanged => exact Or.inl hb
  | extended hlater hext hfree hdummy =>
      rcases SortedTable.get?_insert_eq_some hb with ⟨hr, heq⟩ | hold
      · exact Or.inr ⟨hr, heq, hdummy⟩
      · exact Or.inl hold
  | replaced latest hlatest hlater hext hfree hdummy =>
      rcases SortedTable.get?_insert_eq_some hb with ⟨hr, heq⟩ | hold
      · exact Or.inr ⟨hr, heq, hdummy⟩
      · exact Or.inl (hremoved _ hold)
  | dropped latest => exact Or.inl (hremoved _ hb)

omit [Signing D S] in
theorem NotarizedIntake.blockInv {resp : WaitNotarizedBlockResponse D S}
    (h : NotarizedIntake db resp db') (hinv : BlockInv db) : BlockInv db' where
  cur_le := by
    rw [h.curRound]
    exact hinv.cur_le
  notarized r b hb := by
    rcases h.adopted.cases_get? hb with hold | ⟨rfl, rfl, hdummy⟩
    · exact hinv.notarized r b hold
    · exact ⟨rfl, hdummy⟩
  proposal := by
    rw [h.proposals_eq, h.curRound]
    exact hinv.proposal

end Intake

/-! ## Opening -/

omit [Hashing D] in
theorem writeFinalitySelfVote_frame {c c' : Consensus D S} {r v : BlockRound}
    (h : c.writeFinalitySelfVote r v = .ok c') : FinalityFrame c c' := by
  unfold writeFinalitySelfVote at h
  split at h
  · exact updatePeerFinalityVoteRound_frame h
  · cases h
    exact .refl c

/-- A consensus opened on a database has run the round check on it, with the
same blocks. -/
theorem openInternal_ok {ε : Type} {db : Db D S} {k : Option PeerPubkey}
    {trace : Trace} {c' : Consensus D S}
    (h : (openInternal db k trace : Outcome ε _) = .ok c') :
    ∃ fs c₁, finalitySelf db = (.ok fs : Outcome ε _) ∧
      FinalityFrame (fresh db k trace fs) c₁ ∧
      c₁.checkRoundEnd c₁.db.getCurrentRound = .ok c' := by
  simp only [openInternal, openInternalTx, Outcome.bind_eq_ok,
    Outcome.expectOk_eq_ok] at h
  obtain ⟨fs, hfs, c₁, hwrite, hcheck⟩ := h
  have hf := writeFinalitySelfVote_frame hwrite
  refine ⟨fs, c₁, hfs, hf, ?_⟩
  rw [hf.sameBlocks.getCurrentRound]
  exact hcheck

theorem openInternal_closed {ε : Type} {db : Db D S} {k : Option PeerPubkey}
    {trace : Trace} {c' : Consensus D S} (hinv : BlockInv db)
    (h : (openInternal db k trace : Outcome ε _) = .ok c') :
    ∃ c₁ v, SameBlocks db c₁.db ∧ Closed c₁ v c' := by
  obtain ⟨fs, c₁, _, hf, hcheck⟩ := openInternal_ok h
  have hsame : SameBlocks db c₁.db := hf.sameBlocks
  obtain ⟨v, hv⟩ := checkRoundEnd_closed (hinv.congr hsame) hcheck
  exact ⟨c₁, v, hsame, hv⟩

theorem reopen_ok {c c' : Consensus D S} (h : c.reopen = .ok c') :
    (openInternal c.db c.ourPeerPubkey c.trace : Outcome OpenError _) =
      .ok c' := by
  simp only [reopen, Outcome.bind_eq_ok] at h
  obtain ⟨_, _, _, _, h⟩ := h
  exact h

omit [Hashing D] in
theorem insertPin_sameBlocks (db : Db D S) (pinned : Option (BlockRound × D)) :
    SameBlocks db (insertPin db pinned) := by
  unfold insertPin
  split <;> exact ⟨rfl, rfl, rfl⟩

theorem insertConsensusParams_sameBlocks (db : Db D S) (r : BlockRound)
    (params : ConsensusParams D) :
    SameBlocks db (db.insertConsensusParams r params).1 := by
  unfold Db.insertConsensusParams
  dsimp only
  split <;> exact ⟨rfl, rfl, rfl⟩

/-- What `init` opens: the given params for round 0, perhaps a pin. -/
theorem init_ok {params : ConsensusParams D} {db : Db D S}
    {k : Option PeerPubkey} {pinned : Option (BlockRound × D)}
    {c' : Consensus D S} (h : init params db k pinned = .ok c') :
    (openInternal (insertPin (db.insertConsensusParams 0 params).1 pinned) k
      Trace.empty : Outcome OpenError _) = .ok c' := by
  simp only [init, initTx, Outcome.bind_eq_ok] at h
  obtain ⟨db₁, hdb, h⟩ := h
  split at hdb
  · next db₂ e heq =>
      split at hdb
      · cases hdb
        rw [heq]
        exact h
      · cases hdb
  · next db₂ heq =>
      cases hdb
      rw [heq]
      exact h

omit [Hashing D] in
theorem SameBlocks.trans {db db' db'' : Db D S} (h : SameBlocks db db')
    (h' : SameBlocks db' db'') : SameBlocks db db'' :=
  ⟨h'.curRound.trans h.curRound, h'.notarized.trans h.notarized,
    h'.proposals.trans h.proposals⟩

theorem blockInv_empty : BlockInv (Db.empty : Db D S) where
  cur_le := Nat.zero_le _
  notarized r h hget := by cases hget
  proposal r h hget := by cases hget

/-- Opening a new database runs the round check on the params and the pin alone. -/
theorem init_checked {params : ConsensusParams D} {k : Option PeerPubkey}
    {pinned : Option (BlockRound × D)} {c' : Consensus D S}
    (h : init params Db.empty k pinned = .ok c') :
    ∃ fs c₁, FinalityFrame (fresh (insertPin ((Db.empty : Db D S).insertConsensusParams
        0 params).1 pinned) k Trace.empty fs) c₁ ∧
      SameBlocks Db.empty c₁.db ∧ BlockInv c₁.db ∧
      c₁.checkRoundEnd c₁.db.getCurrentRound = .ok c' := by
  obtain ⟨fs, c₁, _, hf, hcheck⟩ := openInternal_ok (init_ok h)
  have hsame : SameBlocks Db.empty c₁.db :=
    ((insertConsensusParams_sameBlocks _ 0 params).trans
      (insertPin_sameBlocks _ pinned)).trans hf.sameBlocks
  exact ⟨fs, c₁, hf, hsame, blockInv_empty.congr hsame, hcheck⟩

theorem init_closed {params : ConsensusParams D} {k : Option PeerPubkey}
    {pinned : Option (BlockRound × D)} {c' : Consensus D S}
    (h : init params Db.empty k pinned = .ok c') :
    ∃ c₁ v, SameBlocks Db.empty c₁.db ∧ Closed c₁ v c' := by
  obtain ⟨fs, c₁, _, hsame, hdb, hcheck⟩ := init_checked h
  obtain ⟨v, hv⟩ := checkRoundEnd_closed hdb hcheck
  exact ⟨c₁, v, hsame, hv⟩

theorem init_roundInv {params : ConsensusParams D} {k : Option PeerPubkey}
    {pinned : Option (BlockRound × D)} {c' : Consensus D S}
    (h : init params Db.empty k pinned = .ok c') : RoundInv c'.db := by
  obtain ⟨c₁, v, hsame, hv⟩ := init_closed h
  exact hv.roundInv (blockInv_empty.congr hsame)

/-! ## Every step keeps the invariant -/

theorem consensusParamsChangeTx_ok {ε : Type} {c c' : Consensus D S}
    {r : BlockRound} {t : Timestamp} {peers : PeerSet}
    (h : (c.consensusParamsChangeTx r t peers : Outcome ε _) = .ok c') :
    ∃ cur new, c.db.getConsensusParams r = (.ok cur : Outcome ε _) ∧
      cur.makeChange r t peers ((c.db.getPrevNotarizedBlock r.half).map
        fun b => (b.round, Hashing.blockHash b)) = (.ok new : Outcome ε _) ∧
      c.currentRoundWithTimeout.1 < new.applyRound ∧
      c' = { c with db := (c.db.insertConsensusParams new.applyRound new).1 } := by
  simp only [consensusParamsChangeTx, Outcome.bind_eq_ok,
    Outcome.assertThat_eq_ok, Outcome.pure_eq_ok] at h
  obtain ⟨cur, hcur, new, hnew, _, hlt, rfl⟩ := h
  exact ⟨cur, new, hcur, hnew, hlt, rfl⟩

omit [Hashing D] in
theorem processFinalityVoteUpdateResponseTx_ok [Signing D S]
    {c c' : Consensus D S} {k : PeerPubkey} {resp : WaitFinalityVoteResponse S}
    (h : c.processFinalityVoteUpdateResponseTx k resp = .ok c') :
    Signing.verify k resp.sig (.finality resp.update : SignMsg D) = true ∧
      c.updatePeerFinalityVoteRound c.db.getCurrentRound k resp.update =
        (.ok c' : Outcome ProcessFinalityVoteError _) := by
  simp only [processFinalityVoteUpdateResponseTx, Outcome.bind_eq_ok,
    Outcome.orRaise_eq_ok, verifyHashSignature_eq_ok] at h
  obtain ⟨_, ⟨_, hsig⟩, h⟩ := h
  exact ⟨hsig, h⟩

section Steps

variable [DecidableEq S] [Signing D S]

/-- What an op can do to a consensus. -/
inductive StepCase (c : Consensus D S) :
    ConsensusOp D S → Consensus D S → Prop
  /-- It failed, or there was nothing to change. -/
  | same (op : ConsensusOp D S) : StepCase c op c
  | vote (i : PeerIdx) (resp : WaitVoteResponse D S) (params : ConsensusParams D)
      (db : Db D S) (c' : Consensus D S)
      (hparams : c.db.getConsensusParams c.db.getCurrentRound =
        (.ok params : Outcome (ProcessVoteError D S) _))
      (hin : VoteIntake c.db params i resp db)
      (hcounted : Counted c i resp.block (beforeVote c.db resp) db c') :
      StepCase c (.vote i resp) c'
  | notarized (resp : WaitNotarizedBlockResponse D S)
      (params : ConsensusParams D) (db : Db D S) (c' : Consensus D S)
      (hcheckNotarized : checkNotarized c.db resp = .ok ())
      (hverified : Verified c.db resp params)
      (hin : NotarizedIntake c.db resp db)
      (hcheck : checkRoundEnd { c with db := db } c.db.getCurrentRound =
        .ok c') : StepCase c (.notarized resp) c'
  | finality (k : PeerPubkey) (resp : WaitFinalityVoteResponse S)
      (c' : Consensus D S)
      (hsig : Signing.verify k resp.sig (.finality resp.update : SignMsg D) =
        true)
      (hupdate : c.updatePeerFinalityVoteRound c.db.getCurrentRound k
        resp.update = (.ok c' : Outcome ProcessFinalityVoteError _)) :
      StepCase c (.finality k resp) c'
  | paramsChange (round : BlockRound) (timestamp : Timestamp) (peers : PeerSet)
      (cur new : ConsensusParams D)
      (hcur : c.db.getConsensusParams round = (.ok cur : Outcome Empty _))
      (hnew : cur.makeChange round timestamp peers
        ((c.db.getPrevNotarizedBlock round.half).map fun b =>
          (b.round, Hashing.blockHash b)) = (.ok new : Outcome Empty _))
      (hlt : c.currentRoundWithTimeout.1 < new.applyRound) :
      StepCase c (.paramsChange round timestamp peers)
        { c with db := (c.db.insertConsensusParams new.applyRound new).1 }
  | reopen (c' : Consensus D S)
      (hopen : (openInternal c.db c.ourPeerPubkey c.trace :
        Outcome OpenError _) = .ok c') : StepCase c .reopen c'

theorem step_cases (c : Consensus D S) (op : ConsensusOp D S) :
    StepCase c op (c.step op) := by
  cases op with
  | vote i resp =>
      refine commit_induct (P := StepCase c _) (.same _) fun c' h => ?_
      rcases processVoteResponseTx_ok h with ⟨rfl, _⟩ | ⟨params, db, hp, hin, hc⟩
      · exact .same _
      · exact .vote i resp params db c' hp hin hc
  | notarized resp =>
      refine commit_induct (P := StepCase c _) (.same _) fun c' h => ?_
      have hcheckNotarized := processNotarizedBlockResponseTx_checked h
      obtain ⟨⟨params, hver⟩, hcases⟩ := processNotarizedBlockResponseTx_ok h
      rcases hcases with ⟨_, rfl, _⟩ | ⟨db, hin, hcheck⟩
      · exact .same _
      · exact .notarized resp params db c' hcheckNotarized hver hin hcheck
  | finality k resp =>
      refine commit_induct (P := StepCase c _) (.same _) fun c' h => ?_
      obtain ⟨hsig, hupdate⟩ := processFinalityVoteUpdateResponseTx_ok h
      exact .finality k resp c' hsig hupdate
  | paramsChange round timestamp peers =>
      refine commit_induct (P := StepCase c _) (.same _) fun c' h => ?_
      obtain ⟨cur, new, hcur, hnew, hlt, rfl⟩ := consensusParamsChangeTx_ok h
      exact .paramsChange round timestamp peers cur new hcur hnew hlt
  | reopen =>
      refine commit_induct (P := StepCase c _) (.same _) fun c' h => ?_
      exact .reopen c' (reopen_ok h)

/-- What an op has done to a consensus before the round check, if that is run. -/
inductive Phase (c : Consensus D S) : ConsensusOp D S → Consensus D S → Prop
  | same (op : ConsensusOp D S) : Phase c op c
  | vote (i : PeerIdx) (resp : WaitVoteResponse D S) (params : ConsensusParams D)
      (db : Db D S) (hparams : c.db.getConsensusParams c.db.getCurrentRound =
        (.ok params : Outcome (ProcessVoteError D S) _))
      (hin : VoteIntake c.db params i resp db) :
      Phase c (.vote i resp) { c with db := db }
  | notarized (resp : WaitNotarizedBlockResponse D S) (params : ConsensusParams D)
      (db : Db D S) (hok : checkNotarized c.db resp = .ok ())
      (hver : Verified c.db resp params) (hin : NotarizedIntake c.db resp db) :
      Phase c (.notarized resp) { c with db := db }
  | finality (k : PeerPubkey) (resp : WaitFinalityVoteResponse S)
      (c₁ : Consensus D S) (hf : FinalityFrame c c₁) : Phase c (.finality k resp) c₁
  | paramsChange (round : BlockRound) (timestamp : Timestamp) (peers : PeerSet)
      (new : ConsensusParams D) (hlt : c.currentRoundWithTimeout.1 < new.applyRound) :
      Phase c (.paramsChange round timestamp peers)
        { c with db := (c.db.insertConsensusParams new.applyRound new).1 }
  | reopen (fs : BlockRound) (c₁ : Consensus D S)
      (hf : FinalityFrame (fresh c.db c.ourPeerPubkey c.trace fs) c₁) :
      Phase c .reopen c₁

omit [DecidableEq S] in
theorem Phase.blockInv {c c₁ : Consensus D S} {op : ConsensusOp D S}
    (h : Phase c op c₁) (hinv : RoundInv c.db) : BlockInv c₁.db := by
  cases h with
  | same => exact hinv.toBlockInv
  | vote i resp params db _ hin => exact (hin.roundInv hinv).toBlockInv
  | notarized resp params db _ _ hin => exact hin.blockInv hinv.toBlockInv
  | finality k resp c₁ hf => exact hinv.toBlockInv.congr hf.sameBlocks
  | paramsChange =>
      exact hinv.toBlockInv.congr (insertConsensusParams_sameBlocks _ _ _)
  | reopen fs c₁ hf =>
      have hsame : SameBlocks c.db c₁.db := hf.sameBlocks
      exact hinv.toBlockInv.congr hsame

omit [DecidableEq S] in
theorem Phase.curRound {c c₁ : Consensus D S} {op : ConsensusOp D S}
    (h : Phase c op c₁) : c₁.db.getCurrentRound = c.db.getCurrentRound := by
  cases h with
  | same => rfl
  | vote i resp params db _ hin => exact hin.curRound
  | notarized resp params db _ _ hin => exact hin.curRound
  | finality k resp c₁ hf => exact hf.sameBlocks.getCurrentRound
  | paramsChange => exact (insertConsensusParams_sameBlocks _ _ _).getCurrentRound
  | reopen fs c₁ hf => exact hf.sameBlocks.getCurrentRound

omit [DecidableEq S] in
/-- Only a vote writes the proposals. -/
theorem Phase.proposals_cases {c c₁ : Consensus D S} {op : ConsensusOp D S}
    (h : Phase c op c₁) :
    c₁.db.consBlocksProposals = c.db.consBlocksProposals ∨
      ∃ i resp params, op = .vote i resp ∧
        c.db.getConsensusParams c.db.getCurrentRound =
          (.ok params : Outcome (ProcessVoteError D S) _) ∧
        VoteIntake c.db params i resp c₁.db := by
  cases h with
  | same => exact Or.inl rfl
  | vote i resp params db hparams hin =>
      exact Or.inr ⟨i, resp, params, rfl, hparams, hin⟩
  | notarized resp params db _ _ hin => exact Or.inl hin.proposals_eq
  | finality k resp c₁ hf => exact Or.inl hf.sameBlocks.proposals
  | paramsChange => exact Or.inl (insertConsensusParams_sameBlocks _ _ _).proposals
  | reopen fs c₁ hf => exact Or.inl hf.sameBlocks.proposals

omit [DecidableEq S] in
/-- Only a notarized block writes the notarized blocks, before the round check. -/
theorem Phase.notarized_cases {c c₁ : Consensus D S} {op : ConsensusOp D S}
    (h : Phase c op c₁) :
    c₁.db.consBlocksNotarized = c.db.consBlocksNotarized ∨
      ∃ resp, op = .notarized resp ∧ checkNotarized c.db resp = .ok () ∧
        Adopted c.db resp.block.inner c₁.db.consBlocksNotarized := by
  cases h with
  | same => exact Or.inl rfl
  | vote i resp params db _ hin => exact Or.inl hin.notarized_eq
  | notarized resp params db hok _ hin => exact Or.inr ⟨resp, rfl, hok, hin.adopted⟩
  | finality k resp c₁ hf => exact Or.inl hf.sameBlocks.notarized
  | paramsChange => exact Or.inl (insertConsensusParams_sameBlocks _ _ _).notarized
  | reopen fs c₁ hf => exact Or.inl hf.sameBlocks.notarized

/-- An op ends there, or with the round check. -/
theorem step_phase (c : Consensus D S) (op : ConsensusOp D S)
    (hinv : RoundInv c.db) : ∃ c₁, Phase c op c₁ ∧
      ((c.step op = c₁ ∧ RoundInv c₁.db) ∨
        c₁.checkRoundEnd c₁.db.getCurrentRound = .ok (c.step op)) := by
  have hcase := step_cases c op
  generalize c.step op = c' at hcase
  cases hcase with
  | same => exact ⟨c, .same op, Or.inl ⟨rfl, hinv⟩⟩
  | vote i resp params db _ hparams hin hcounted =>
      refine ⟨_, .vote i resp params db hparams hin, ?_⟩
      rcases hcounted with ⟨_, rfl⟩ | ⟨_, hcheck⟩
      · exact Or.inl ⟨rfl, hin.roundInv hinv⟩
      · rw [← hin.curRound] at hcheck
        exact Or.inr hcheck
  | notarized resp params db _ hok hver hin hcheck =>
      rw [← hin.curRound] at hcheck
      exact ⟨_, .notarized resp params db hok hver hin, Or.inr hcheck⟩
  | finality k resp _ hsig hupdate =>
      have hf := updatePeerFinalityVoteRound_frame hupdate
      exact ⟨_, .finality k resp _ hf, Or.inl ⟨rfl, hinv.congr hf.sameBlocks⟩⟩
  | paramsChange round timestamp peers cur new hcur hnew hlt =>
      exact ⟨_, .paramsChange round timestamp peers new hlt,
        Or.inl ⟨rfl, hinv.congr (insertConsensusParams_sameBlocks _ _ _)⟩⟩
  | reopen _ hopen =>
      obtain ⟨fs, c₁, _, hf, hcheck⟩ := openInternal_ok hopen
      exact ⟨c₁, .reopen fs c₁ hf, Or.inr hcheck⟩

/-- The same with what the round check does. -/
theorem step_closed (c : Consensus D S) (op : ConsensusOp D S)
    (hinv : RoundInv c.db) : ∃ c₁, Phase c op c₁ ∧ BlockInv c₁.db ∧
      ((c.step op = c₁ ∧ RoundInv c₁.db) ∨ ∃ v, Closed c₁ v (c.step op)) := by
  obtain ⟨c₁, hphase, hend⟩ := step_phase c op hinv
  have hblock := hphase.blockInv hinv
  exact ⟨c₁, hphase, hblock, hend.imp_right (checkRoundEnd_closed hblock)⟩

theorem step_roundInv (c : Consensus D S) (op : ConsensusOp D S)
    (hinv : RoundInv c.db) : RoundInv (c.step op).db := by
  obtain ⟨c₁, _, hblock, ⟨hstop, hround⟩ | ⟨v, hv⟩⟩ := step_closed c op hinv
  · rw [hstop]
    exact hround
  · exact hv.roundInv hblock

/-- Only a vote changes the proposals. -/
theorem step_proposals (c : Consensus D S) (op : ConsensusOp D S)
    (hinv : RoundInv c.db) :
    (c.step op).db.consBlocksProposals = c.db.consBlocksProposals ∨
      ∃ i resp params db, op = .vote i resp ∧
        c.db.getConsensusParams c.db.getCurrentRound =
          (.ok params : Outcome (ProcessVoteError D S) _) ∧
        VoteIntake c.db params i resp db ∧
        (c.step op).db.consBlocksProposals = db.consBlocksProposals := by
  obtain ⟨c₁, hphase, _, hend⟩ := step_closed c op hinv
  have heq : (c.step op).db.consBlocksProposals = c₁.db.consBlocksProposals := by
    rcases hend with ⟨hstop, _⟩ | ⟨v, hv⟩
    · rw [hstop]
    · exact hv.proposals_eq
  rcases hphase.proposals_cases with hsame | ⟨i, resp, params, hop, hparams, hin⟩
  · exact Or.inl (heq.trans hsame)
  · exact Or.inr ⟨i, resp, params, c₁.db, hop, hparams, hin, heq⟩

end Steps

end Consensus

end Bfte
