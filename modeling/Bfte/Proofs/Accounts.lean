import Bfte.Proofs.Nodes
import Bfte.Proofs.Pins
import Bfte.Proofs.Records
import Bfte.Proofs.RoundReach

/-!
# Why the rounds below are over

A round is left with a notarized block of it or of a later round, or with enough
dummy votes. The block may be replaced afterwards, but by a later one; the dummy
votes are dropped when the finality consensus passes the round. So for every round
below the current one there is a reason in the tables, or a finality consensus above
it has been shown. The one block that upsets the count is one of the last round
number there is, which no current round can be above.
-/

namespace Bfte

namespace Consensus

variable {D S : Type} [LinearOrder D]

/-- What shows that a round is over. -/
def AccountedFor (c : Consensus D S) (r : BlockRound) : Prop :=
  (∃ r' b, c.db.consBlocksNotarized.get? r' = some b ∧ r ≤ r') ∨
    ((c.db.getConsensusParams r : Outcome Empty _).Returns fun params =>
      (NumPeers.mk params.peers.len).threshold ≤ c.db.getNumVotesDummy r) ∨
    ∃ v ∈ c.trace.finalityConsensus, r < v

/-! ## Dummy votes that are dropped -/

/-- Dummy votes are dropped for rounds below a finality consensus that has been
shown. -/
structure DummiesKept (c c' : Consensus D S) : Prop where
  shown : ∀ v ∈ c.trace.finalityConsensus, v ∈ c'.trace.finalityConsensus
  votes : ∀ r, (∃ v ∈ c'.trace.finalityConsensus, r < v) ∨
    ∀ i, (c.db.getVoteDummy r i).isSome = true →
      (c'.db.getVoteDummy r i).isSome = true

theorem DummiesKept.of_eq {c c' : Consensus D S}
    (hshown : c'.trace.finalityConsensus = c.trace.finalityConsensus)
    (hvotes : c'.db.consVotesDummy = c.db.consVotesDummy) : DummiesKept c c' where
  shown _ hv := hshown ▸ hv
  votes r := Or.inr fun i hi => by
    rw [Db.getVoteDummy, hvotes]
    exact hi

theorem DummiesKept.trans {c c₁ c₂ : Consensus D S} (h : DummiesKept c c₁)
    (h' : DummiesKept c₁ c₂) : DummiesKept c c₂ where
  shown v hv := h'.shown v (h.shown v hv)
  votes r := by
    rcases h'.votes r with hfinal | hkept
    · exact Or.inl hfinal
    · rcases h.votes r with ⟨v, hv, hlt⟩ | hfirst
      · exact Or.inl ⟨v, h'.shown v hv, hlt⟩
      · exact Or.inr fun i hi => hkept i (hfirst i hi)

theorem recalculateFinalityConsensusTx_dummiesKept {ε : Type}
    {c c' : Consensus D S} {r : BlockRound}
    (h : (c.recalculateFinalityConsensusTx r : Outcome ε _) = .ok c') :
    DummiesKept c c' := by
  obtain ⟨params, computed, shown, _, _, _, rfl, ⟨_, rfl⟩ | rfl⟩ :=
    recalculateFinalityConsensusTx_ok h
  · exact .of_eq rfl rfl
  · refine ⟨fun v hv => List.mem_append_left _ hv, fun r' => ?_⟩
    rcases Nat.lt_or_ge r' shown with hbelow | habove
    · exact Or.inl ⟨shown, List.mem_append_right _ List.mem_cons_self, hbelow⟩
    · refine Or.inr fun i hi => ?_
      obtain ⟨sig, hsig⟩ := Option.isSome_iff_exists.mp hi
      exact Option.isSome_iff_exists.mpr
        ⟨sig, Db.get?_pruneDummyVotes.mpr ⟨hsig, habove⟩⟩

theorem updatePeerFinalityVoteRound_dummiesKept {ε : Type}
    {c c' : Consensus D S} {r v : BlockRound} {k : PeerPubkey}
    (h : (c.updatePeerFinalityVoteRound r k v : Outcome ε _) = .ok c') :
    DummiesKept c c' := by
  simp only [updatePeerFinalityVoteRound] at h
  have hwrite : DummiesKept c { c with db := c.db.updateFinalityVote k v } :=
    .of_eq rfl rfl
  split at h
  · cases h
    exact hwrite
  · exact hwrite.trans (recalculateFinalityConsensusTx_dummiesKept h)

theorem updateFinalitySelfVote_dummiesKept {c c' : Consensus D S} {r : BlockRound}
    {last : Option BlockRound} (h : c.updateFinalitySelfVote r last = .ok c') :
    DummiesKept c c' := by
  cases last with
  | none =>
      cases h
      exact .of_eq rfl rfl
  | some last =>
      simp only [updateFinalitySelfVote, Outcome.bind_eq_ok] at h
      obtain ⟨v, _, h⟩ := h
      have hsend : DummiesKept c (c.sendFinalitySelfVote v) := .of_eq rfl rfl
      split at h
      · cases h
        exact hsend
      · exact hsend.trans (updatePeerFinalityVoteRound_dummiesKept h)

/-! ## Evidence that is kept -/

/-- What is notarized is kept or replaced by something later, and the dummy votes
as long as they matter. -/
structure EvidenceKept (c c' : Consensus D S) : Prop extends DummiesKept c c' where
  blocks : ∀ r b, c.db.consBlocksNotarized.get? r = some b →
    ∃ r' b', c'.db.consBlocksNotarized.get? r' = some b' ∧ r ≤ r'

theorem EvidenceKept.trans {c c₁ c₂ : Consensus D S} (h : EvidenceKept c c₁)
    (h' : EvidenceKept c₁ c₂) : EvidenceKept c c₂ where
  toDummiesKept := h.toDummiesKept.trans h'.toDummiesKept
  blocks r b hb := by
    obtain ⟨r₁, b₁, hb₁, hle₁⟩ := h.blocks r b hb
    obtain ⟨r₂, b₂, hb₂, hle₂⟩ := h'.blocks r₁ b₁ hb₁
    exact ⟨r₂, b₂, hb₂, hle₁.trans hle₂⟩

theorem DummiesKept.sameBlocks {c c' : Consensus D S} (h : DummiesKept c c')
    (hsame : c'.db.consBlocksNotarized = c.db.consBlocksNotarized) :
    EvidenceKept c c' where
  toDummiesKept := h
  blocks r b hb := ⟨r, b, hsame ▸ hb, le_rfl⟩

theorem AccountedFor.kept {c c' : Consensus D S} {r : BlockRound}
    (h : AccountedFor c r) (hkept : EvidenceKept c c')
    (hparams : ∀ p : ConsensusParams D,
      (c.db.getConsensusParams r : Outcome Empty _) = .ok p →
      (c'.db.getConsensusParams r : Outcome Empty _) = .ok p) : AccountedFor c' r := by
  rcases h with ⟨r', b, hb, hle⟩ | hdummies | ⟨v, hv, hlt⟩
  · obtain ⟨r'', b', hb', hle'⟩ := hkept.blocks r' b hb
    exact Or.inl ⟨r'', b', hb', hle.trans hle'⟩
  · rcases hkept.votes r with hfinal | hvotes
    · exact Or.inr (Or.inr hfinal)
    · obtain ⟨params, hp, henough⟩ := Outcome.returns_iff.mp hdummies
      refine Or.inr (Or.inl (Outcome.returns_iff.mpr ⟨params, hparams params hp, ?_⟩))
      exact henough.trans (votesAt_length_le hvotes)
  · exact Or.inr (Or.inr ⟨v, hkept.shown v hv, hlt⟩)

variable [Hashing D]

/-! ## The round check -/

/-- Why the loop of the round check has left a round, in the tables `db` it was
started on and `db'` it has come to. -/
def LeftFor (highest : Option (BlockHeader D)) (db db' : Db D S)
    (r : BlockRound) : Prop :=
  (∃ h ∈ highest, r ≤ h.round) ∨ (∃ b, db'.consBlocksNotarized.get? r = some b) ∨
    ((db.getConsensusParams r : Outcome Empty _).Returns fun params =>
      (NumPeers.mk params.peers.len).threshold ≤ db.getNumVotesDummy r)

/-- A turn that goes on to the next round has a reason to leave this one. -/
theorem TurnCase.leftFor {db : Db D S} {start : BlockRound}
    {highest : Option (BlockHeader D)} {v v' : RoundEnd D S}
    (h : TurnCase start highest v (.next v')) (hparams : SameParams db v.db)
    (hdummy : v.db.consVotesDummy = db.consVotesDummy) :
    LeftFor highest db v'.db v.curRound := by
  cases h with
  | notarized b hb hle => exact Or.inl ⟨b, hb, hle⟩
  | voted params p db' o above hparams' hp hvotes hdb =>
      refine Or.inr (Or.inl ?_)
      obtain ⟨_, _, ⟨b, hb, hres⟩ | ⟨_, hres⟩⟩ := Db.insertNotarizedBlock_eq_ok.mp hdb
      · cases hres
        exact ⟨b, hb⟩
      · cases hres
        exact ⟨p, SortedTable.get?_insert_self _ _ _⟩
  | timedOut params above hp hvotes =>
      rw [hparams.getConsensusParams] at hp
      refine Or.inr (Or.inr (Outcome.returns_iff.mpr
        ⟨params, Db.getConsensusParams_cast hp, ?_⟩))
      unfold Db.getNumVotesDummy at hvotes ⊢
      rw [← hdummy]
      exact hvotes

theorem roundEndLoop_leftFor {db : Db D S} {start : BlockRound}
    {highest : Option (BlockHeader D)} {v : RoundEnd D S} {b : Bool}
    (hstart : start ≤ BlockRound.MAX)
    (h : roundEndLoop start highest (BlockRound.MAX - start) ⟨db, start, none⟩ =
      .ok (v, b)) :
    v.db.consVotesDummy = db.consVotesDummy ∧
      ∀ r, start ≤ r → r < v.curRound → LeftFor highest db v.db r := by
  have hinv := (roundEndLoop_induct
    (P := fun w => SameParams db w.db ∧
      w.db.consVotesDummy = db.consVotesDummy ∧
      ∀ r, start ≤ r → r < w.curRound → LeftFor highest db w.db r)
    (fun w w' ⟨hparams, hdummy, hleft⟩ _ hturn => by
      have hcase := (roundEndTurn_cases hturn).2
      obtain ⟨hcur, hparams', _, hdummy'⟩ := hcase.next_db
      refine ⟨hparams.trans hparams', hdummy'.trans hdummy, fun r hr hlt => ?_⟩
      have hlt' : r < w'.curRound + 1 := hlt
      rcases Nat.lt_or_ge r w.curRound with hold | hnew
      · rcases hleft r hr hold with hhigh | ⟨b, hb⟩ | hvotes
        · exact Or.inl hhigh
        · obtain ⟨b', hb', _⟩ := hcase.keeps.2 r (Hashing.blockHash b) ⟨b, hb, rfl⟩
          exact Or.inr (Or.inl ⟨b', hb'⟩)
        · exact Or.inr (Or.inr hvotes)
      · have hr : r = w.curRound := by lia
        rw [hr]
        exact hcase.leftFor hparams hdummy)
    (by show start + (BlockRound.MAX - start) = BlockRound.MAX; lia)
    ⟨.refl _, rfl, fun r hr hlt => absurd hlt (not_lt.mpr hr)⟩ h).1
  exact ⟨hinv.2.1, hinv.2.2⟩

/-- The evidence is kept, and there is some for the rounds that have been left. -/
structure Accounts (c c' : Consensus D S) : Prop extends EvidenceKept c c' where
  left : ∀ r, c.db.getCurrentRound ≤ r → r < c'.db.getCurrentRound →
    AccountedFor c' r

omit [Hashing D] in
theorem EvidenceKept.still {c c' : Consensus D S} (h : EvidenceKept c c')
    (hcur : c'.db.getCurrentRound = c.db.getCurrentRound) : Accounts c c' where
  toEvidenceKept := h
  left r hr hlt := by
    rw [hcur] at hlt
    exact absurd hr (not_le.mpr hlt)

theorem checkRoundEnd_accounts {c c' : Consensus D S} (hinv : BlockInv c.db)
    (h : c.checkRoundEnd c.db.getCurrentRound = .ok c') : Accounts c c' := by
  obtain ⟨v, b, hloop, hended⟩ := checkRoundEnd_ok h
  obtain ⟨hresult, hdone⟩ := roundEndLoop_ok hinv.round_eq
    (fun r p hp => (hinv.proposal r p hp).2.2) hinv.cur_le hloop
  have hv : Closed c v c' := ⟨hresult, ⟨b, hdone⟩, hended⟩
  obtain ⟨hdummy, hleft⟩ := roundEndLoop_leftFor hinv.cur_le hloop
  have hdummies : DummiesKept c c' := by
    simp only [checkRoundEnd, Outcome.bind_eq_ok] at h
    obtain ⟨⟨w, needsATimeout⟩, hloop', c₁, hself, h⟩ := h
    rw [hloop] at hloop'
    cases hloop'
    have hmoved : DummiesKept c { c with
        db := advanceRound v.db c.db.getCurrentRound v.curRound } := by
      refine .of_eq rfl ?_
      rw [← hdummy]
      unfold advanceRound
      split <;> rfl
    have hc₁ := hmoved.trans (updateFinalitySelfVote_dummiesKept hself)
    split at h
    · cases h
      exact hc₁
    · cases h
      refine hc₁.trans ?_
      unfold sendCurrentRound
      split <;> exact .of_eq rfl rfl
  have hkept : EvidenceKept c c' :=
    ⟨hdummies, fun r b hb => ⟨r, b, hv.notarized_mono hinv hb, le_rfl⟩⟩
  refine ⟨hkept, fun r hr hlt => ?_⟩
  rw [hv.curRound] at hlt
  rcases hleft r hr hlt with ⟨b, hb, hle⟩ | ⟨b, hb⟩ | hvotes
  · have hget := hinv.prev_mem hb
    exact Or.inl ⟨b.round, b, hv.notarized_mono hinv hget, hle⟩
  · exact Or.inl ⟨r, b, hv.notarized_eq ▸ hb, le_rfl⟩
  · refine AccountedFor.kept (c := c) (Or.inr (Or.inl hvotes)) hkept fun p hp => ?_
    rw [hv.sameParams.getConsensusParams]
    exact hp

/-- An op that keeps the evidence and then runs the round check. -/
theorem EvidenceKept.checked {c c₁ c' : Consensus D S} (h : EvidenceKept c c₁)
    (hcur : c₁.db.getCurrentRound = c.db.getCurrentRound) (hinv : BlockInv c₁.db)
    (hcheck : c₁.checkRoundEnd c₁.db.getCurrentRound = .ok c') : Accounts c c' := by
  have hchecked := checkRoundEnd_accounts hinv hcheck
  exact ⟨h.trans hchecked.toEvidenceKept, hcur ▸ hchecked.left⟩

/-- A restart keeps the evidence before it runs the round check. -/
theorem openInternal_evidence {ε : Type} {c c' : Consensus D S}
    (h : (openInternal c.db c.ourPeerPubkey c.trace : Outcome ε _) = .ok c') :
    ∃ c₁, EvidenceKept c c₁ ∧ SameBlocks c.db c₁.db ∧
      c₁.checkRoundEnd c₁.db.getCurrentRound = .ok c' := by
  simp only [openInternal, openInternalTx, Outcome.bind_eq_ok,
    Outcome.expectOk_eq_ok] at h
  obtain ⟨fs, _, c₁, hwrite, hcheck⟩ := h
  have hsame : SameBlocks c.db c₁.db := (writeFinalitySelfVote_frame hwrite).sameBlocks
  have hfresh : DummiesKept c (fresh c.db c.ourPeerPubkey c.trace fs) :=
    ⟨fun _ hv => List.mem_append_left _ hv, fun r => Or.inr fun i hi => hi⟩
  have hkept : DummiesKept c c₁ := by
    unfold writeFinalitySelfVote at hwrite
    split at hwrite
    · exact hfresh.trans (updatePeerFinalityVoteRound_dummiesKept hwrite)
    · cases hwrite
      exact hfresh
  refine ⟨c₁, hkept.sameBlocks hsame.notarized, hsame, ?_⟩
  rw [hsame.getCurrentRound]
  exact hcheck

/-! ## Messages -/

omit [Hashing D] in
theorem insertDummyVotes_keep {round : BlockRound} {l : List (PeerIdx × S)}
    {db : Db D S} {r : BlockRound} {i : PeerIdx}
    (hi : (db.getVoteDummy r i).isSome = true) :
    ((db.insertDummyVotes round l).getVoteDummy r i).isSome = true := by
  induction l generalizing db with
  | nil => exact hi
  | cons e l ih =>
      refine @ih (db.insertDummyVote round e.1 e.2).1 ?_
      show ((db.consVotesDummy.insert (voteKey round e.1) e.2).get?
        (voteKey r i)).isSome = true
      rw [SortedTable.get?_insert]
      split
      · rfl
      · exact hi

theorem VoteIntake.voteDummy_keep [Signing D S] {db db' : Db D S}
    {params : ConsensusParams D} {i : PeerIdx} {resp : WaitVoteResponse D S}
    (h : VoteIntake db params i resp db')
    {r : BlockRound} {j : PeerIdx} (hj : (db.getVoteDummy r j).isSome = true) :
    (db'.getVoteDummy r j).isSome = true := by
  cases h with
  | dummy vote => exact insertDummyVotes_keep (l := [(i, vote.sig)]) hj
  | block => exact hj
  | proposal => exact hj

theorem NotarizedIntake.voteDummy_keep {db db' : Db D S}
    {resp : WaitNotarizedBlockResponse D S} (h : NotarizedIntake db resp db')
    {r : BlockRound} {j : PeerIdx}
    (hj : (db.getVoteDummy r j).isSome = true) :
    (db'.getVoteDummy r j).isSome = true := by
  cases h with
  | dummies => exact insertDummyVotes_keep hj
  | extend db₁ o hlater hext hdb =>
      rw [Db.getVoteDummy, insertBlockVotes_dummy, insertNotarizedBlock_voteDummy hdb]
      exact hj
  | replace latest db₁ o hlatest hlater hnot hext hdb =>
      rw [Db.getVoteDummy, insertBlockVotes_dummy, insertNotarizedBlock_voteDummy hdb]
      exact hj

/-! ## Steps -/

section Steps

variable [DecidableEq S] [Signing D S]

theorem step_accounts (c : Consensus D S) (op : ConsensusOp D S)
    (hround : RoundInv c.db) : Accounts c (c.step op) := by
  have hcase := step_cases c op
  generalize c.step op = c' at hcase
  cases hcase with
  | same => exact ((DummiesKept.of_eq rfl rfl).sameBlocks rfl).still rfl
  | vote i resp params db _ hparams hin hcounted =>
      have hkept : EvidenceKept c { c with db := db } := by
        refine DummiesKept.sameBlocks ⟨fun _ => id, fun r => Or.inr fun j => ?_⟩
          hin.notarized_eq
        exact hin.voteDummy_keep
      rcases hcounted with ⟨_, rfl⟩ | ⟨_, hcheck⟩
      · exact hkept.still hin.curRound
      · rw [← hin.curRound] at hcheck
        exact hkept.checked hin.curRound (hin.roundInv hround).toBlockInv hcheck
  | notarized resp params db _ hok hver hin hcheck =>
      have hkept : EvidenceKept c { c with db := db } :=
        ⟨⟨fun _ => id, fun r => Or.inr fun j => hin.voteDummy_keep⟩,
          fun r b hb => hin.adopted.notarized_le hb⟩
      rw [← hin.curRound] at hcheck
      exact hkept.checked hin.curRound (hin.blockInv hround.toBlockInv) hcheck
  | finality k resp _ hsig hupdate =>
      have hsame := (updatePeerFinalityVoteRound_frame hupdate).sameBlocks
      exact ((updatePeerFinalityVoteRound_dummiesKept hupdate).sameBlocks
        hsame.notarized).still hsame.getCurrentRound
  | paramsChange round timestamp peers cur new =>
      have hsame := insertConsensusParams_sameBlocks c.db new.applyRound new
      have hvotes := (insertConsensusParams_votes c.db new.applyRound new).2
      have hkept : DummiesKept c { c with
          db := (c.db.insertConsensusParams new.applyRound new).1 } :=
        .of_eq rfl hvotes
      exact (hkept.sameBlocks hsame.notarized).still hsame.getCurrentRound
  | reopen _ hopen =>
      obtain ⟨c₁, hkept, hsame, hcheck⟩ := openInternal_evidence hopen
      exact hkept.checked hsame.getCurrentRound (hround.congr hsame).toBlockInv hcheck

omit [Hashing D] [DecidableEq S] [Signing D S] in
/-- Nothing is removed from the table, or one block, and one of a higher round is
added. -/
def Replaces (t t' : SortedTable BlockRound (BlockHeader D)) : Prop :=
  (∀ r b, t.get? r = some b → t'.get? r = some b) ∨
    ∃ r old r' new, t.get? r = some old ∧ r < r' ∧ t.get? r' = none ∧
      t'.get? r' = some new ∧
      ∀ k b, k ≠ r → t.get? k = some b → t'.get? k = some b

omit [Signing D S] [DecidableEq S] in
theorem Adopted.replaces {db : Db D S} {block : BlockHeader D}
    {t : SortedTable BlockRound (BlockHeader D)} (h : Adopted db block t)
    (hinv : BoundedInv db) : Replaces db.consBlocksNotarized t := by
  cases h with
  | unchanged => exact Or.inl fun _ _ => id
  | extended hlater hext hfree =>
      refine Or.inl fun r b hb => ?_
      rw [SortedTable.get?_insert_of_ne, hb]
      rintro rfl
      rw [hfree] at hb
      cases hb
  | replaced latest hlatest hlater hext hfree =>
      have hold := hinv.prev_mem hlatest
      rw [SortedTable.get?_remove, if_neg (ne_of_gt hlater)] at hfree
      refine Or.inr ⟨latest.round, latest, block.round, block, hold, hlater, hfree,
        SortedTable.get?_insert_self _ _ _, fun k b hk hb => ?_⟩
      rw [SortedTable.get?_insert_of_ne, SortedTable.get?_remove, if_neg hk, hb]
      rintro rfl
      rw [hfree] at hb
      cases hb
  | dropped latest hlatest hlater hfull =>
      obtain ⟨b, hb⟩ := Option.isSome_iff_exists.mp hfull
      exact absurd hlater (not_lt.mpr (hinv.le_of_latest hlatest hb))

theorem step_replaces (c : Consensus D S) (op : ConsensusOp D S)
    (hinv : BoundedInv c.db) :
    Replaces c.db.consBlocksNotarized (c.step op).db.consBlocksNotarized := by
  obtain ⟨c₁, hphase, hblock, hend⟩ := step_closed c op hinv.toRoundInv
  have hkept : ∀ r b, c₁.db.consBlocksNotarized.get? r = some b →
      (c.step op).db.consBlocksNotarized.get? r = some b := by
    rcases hend with ⟨hstop, _⟩ | ⟨v, hv⟩
    · rw [hstop]
      exact fun _ _ => id
    · exact fun r b => hv.notarized_mono hblock
  rcases hphase.notarized_cases with heq | ⟨resp, _, _, hadopted⟩
  · exact Or.inl fun r b hb => hkept r b (by rw [heq]; exact hb)
  · rcases hadopted.replaces hinv with hmono |
      ⟨r, old, r', new, hold, hlt, hfree, hnew, hmono⟩
    · exact Or.inl fun r b hb => hkept r b (hmono r b hb)
    · exact Or.inr ⟨r, old, r', new, hold, hlt, hfree, hkept r' new hnew,
        fun k b hk hb => hkept k b (hmono k b hk hb)⟩

/-! ## Runs -/

omit [DecidableEq S] [Signing D S] [Hashing D] in
/-- All notarized blocks are below the current round, and all rounds below it are
over for a reason. -/
structure RoundsAccounted (c : Consensus D S) : Prop where
  below : ∀ r b, c.db.consBlocksNotarized.get? r = some b →
    r < c.db.getCurrentRound
  accounted : ∀ r, r < c.db.getCurrentRound → AccountedFor c r

/-- Neither the current round nor the highest notarized one falls, and at most one
block is removed, for one of a higher round. -/
structure Advances (c c' : Consensus D S) : Prop where
  cur_le : c.db.getCurrentRound ≤ c'.db.getCurrentRound
  highest_le : ∀ r b, c.db.consBlocksNotarized.get? r = some b →
    ∃ r' b', c'.db.consBlocksNotarized.get? r' = some b' ∧ r ≤ r'
  replaces : Replaces c.db.consBlocksNotarized c'.db.consBlocksNotarized

/-- What the reasons rest on. -/
structure AccountsInv (c : Consensus D S) : Prop where
  bounded : BoundedInv c.db
  params : ParamsInv c
  accounted : ∀ r, r < c.db.getCurrentRound → AccountedFor c r

theorem step_advances (c : Consensus D S) (op : ConsensusOp D S)
    (hinv : BoundedInv c.db) : Advances c (c.step op) where
  cur_le := (step_onward c op hinv.toRoundInv).cur_le
  highest_le := (step_accounts c op hinv.toRoundInv).blocks
  replaces := step_replaces c op hinv

theorem step_accountsInv [CollisionFree D] (c : Consensus D S)
    (op : ConsensusOp D S) (hinv : AccountsInv c) (hg : BelowLast c op) :
    AccountsInv (c.step op) where
  bounded := step_boundedInv c op hinv.bounded hg
  params := step_paramsInv c op hinv.bounded.toRoundInv hinv.params
  accounted r hr := by
    have hround := hinv.bounded.toRoundInv
    have haccounts := step_accounts c op hround
    rcases Nat.lt_or_ge r c.db.getCurrentRound with hold | hleft
    · exact (hinv.accounted r hold).kept haccounts.toEvidenceKept fun p hp =>
        step_getConsensusParams c op hround hinv.params hold.le hp
    · exact haccounts.left r hleft hr

omit [DecidableEq S] [Signing D S] in
theorem init_accountsInv {params : ConsensusParams D} {k : Option PeerPubkey}
    {pinned : Option (BlockRound × D)} {c : Consensus D S}
    (h : init params Db.empty k pinned = .ok c) : AccountsInv c where
  bounded := (init_chainInv h).toBoundedInv
  params := init_paramsInv h
  accounted r hr := by
    obtain ⟨fs, c₁, _, hsame, hdb, hcheck⟩ := init_checked h
    have hzero : c₁.db.getCurrentRound = 0 := hsame.getCurrentRound
    refine (checkRoundEnd_accounts hdb hcheck).left r ?_ hr
    rw [hzero]
    exact Nat.zero_le r

/-- In every run in which no block of the last round number is taken, every round
below the current one is over for a reason, and every step advances. -/
theorem rounds_accounted_of_belowLast [CollisionFree D] {params : ConsensusParams D}
    {k : Option PeerPubkey} {pinned : Option (BlockRound × D)} {c : Consensus D S}
    {ops : List (ConsensusOp D S)} (hinit : init params Db.empty k pinned = .ok c)
    (hops : Trail.Guarded step BelowLast c ops) :
    RoundsAccounted (c.run ops) ∧
      ∀ before op, before ++ [op] <+: ops →
        Advances (c.run before) (c.run (before ++ [op])) := by
  have hreached : ∀ before rest, before ++ rest = ops → AccountsInv (c.run before) := by
    rintro before rest rfl
    exact Trail.Guarded.invariant step_accountsInv (init_accountsInv hinit)
      (Trail.guarded_append.mp hops).1
  constructor
  · have hinv := hreached ops [] (List.append_nil ops)
    exact ⟨fun r b => hinv.bounded.lt_cur, hinv.accounted⟩
  · rintro before op ⟨rest, hrest⟩
    have hinv := hreached before (op :: rest) (by simpa using hrest)
    have hrun : c.run (before ++ [op]) = (c.run before).step op :=
      Trail.run_append c before [op]
    rw [hrun]
    exact step_advances _ op hinv.bounded

end Steps

/-! ## A block of the last round -/

section LastRound

theorem rounds_accounted_while_extended : ∃ c : Consensus ListDigest PlainSig,
    init (plainParams [10, 11]) Db.empty (some 10) none = .ok c ∧
      RoundsAccounted (c.run blockInTimeOps) ∧
        ∀ before op, before ++ [op] <+: blockInTimeOps →
          Advances (c.run before) (c.run (before ++ [op])) := by
  have hrun : (init (plainParams [10, 11]) (Db.empty : Db ListDigest PlainSig)
      (some 10) none).Returns fun c =>
        Trail.Guarded step BelowLast c blockInTimeOps := by decide +kernel
  obtain ⟨c, hinit, hops⟩ := Outcome.returns_iff.mp hrun
  exact ⟨c, hinit, rounds_accounted_of_belowLast hinit hops⟩

/-- The round check does not see the block and stays in round 0. -/
theorem last_round_ahead_of_current :
    ¬ ∀ (c : Consensus ListDigest PlainSig)
        (ops : List (ConsensusOp ListDigest PlainSig)),
      init (plainParams [10, 11]) Db.empty (some 10) none = .ok c →
      (∀ op ∈ ops, op.IsMessage) → RoundsAccounted (c.run ops) := by
  intro h
  have hrun : (init (plainParams [10, 11]) (Db.empty : Db ListDigest PlainSig)
      (some 10) none).Returns fun c =>
        let db := (c.run [.notarized (lastBlock [0])]).db
        db.getCurrentRound = 0 ∧
          db.consBlocksNotarized.get? BlockRound.MAX =
            some (lastBlock [0]).block.inner := by decide +kernel
  obtain ⟨c, hinit, hcur, hblock⟩ := Outcome.returns_iff.mp hrun
  have hbelow := (h c [.notarized (lastBlock [0])] hinit
    (by simp [ConsensusOp.IsMessage])).below _ _ hblock
  rw [hcur] at hbelow
  exact absurd hbelow (Nat.not_lt_zero _)

end LastRound

end Consensus

end Bfte
