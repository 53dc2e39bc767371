import Bfte.Proofs.FinishRound
import Bfte.Proofs.Notarizations

/-!
# What a message puts into the database

The two receiving transactions have many branches, and most of them only fail.
What is left when one of them commits is a short list: `VoteIntake` for a vote
or a proposal, `NotarizedIntake` for a notarized block. Each constructor carries
what has been checked on the way, and each ends in the database that the round
check is then run on. The two theorems at the end are the only place where the
transactions themselves are taken apart.
-/

namespace Bfte

namespace Consensus

variable {D S : Type} [LinearOrder D] [Hashing D] [Signing D S]

/-- What a vote or a proposal from peer `i` writes. -/
inductive VoteIntake (db : Db D S) (params : ConsensusParams D) (i : PeerIdx) :
    WaitVoteResponse D S → Db D S → Prop
  | dummy (vote : Signed D S) (hround : vote.inner.round = db.getCurrentRound)
      (hsig : SigOk params.peers (.header vote.inner) i vote.sig)
      (hdummy : vote.inner.isDummy = true)
      (hfits : vote.inner.Fits (Hashing.paramsHash params)
        (Hashing.paramsLen params) BlockPayloadRaw.empty) :
      VoteIntake db params i (.vote vote)
        (db.insertDummyVote db.getCurrentRound i vote.sig).1
  | block (vote : Signed D S) (hround : vote.inner.round = db.getCurrentRound)
      (hsig : SigOk params.peers (.header vote.inner) i vote.sig)
      (hdummy : vote.inner.isDummy = false)
      (hprop : ∀ p, db.consBlocksProposals.get? db.getCurrentRound = some p →
        p = vote.inner) :
      VoteIntake db params i (.vote vote)
        (db.insertBlockVote db.getCurrentRound i vote).1
  | proposal (vote : Signed D S) (payload : BlockPayloadRaw)
      (hround : vote.inner.round = db.getCurrentRound)
      (hsig : SigOk params.peers (.header vote.inner) i vote.sig)
      (hdummy : vote.inner.isDummy = false)
      (hleader : i = Hashing.roundHash D db.getCurrentRound % params.peers.len)
      (hfits : vote.inner.Fits (Hashing.paramsHash params)
        (Hashing.paramsLen params) payload)
      (hext : vote.inner.Extends (db.getPrevNotarizedBlock db.getCurrentRound))
      (hnone : db.consBlocksProposals.get? db.getCurrentRound = none) :
      VoteIntake db params i (.proposal vote payload)
        ((db.storeProposal db.getCurrentRound vote.inner payload).insertBlockVote
          db.getCurrentRound i vote).1

/-- The peer's vote of the same kind is stored already, with this signature. -/
def Repeats (db : Db D S) (i : PeerIdx) (vote : Signed D S) : Prop :=
  (vote.inner.isDummy = true ∧
    db.getVoteDummy db.getCurrentRound i = some vote.sig) ∨
  (vote.inner.isDummy = false ∧
    ∃ e, db.getVoteBlock db.getCurrentRound i = some e ∧ e.sig = vote.sig)

/-- The peer has no vote of the same kind stored. -/
def Fresh (db : Db D S) (i : PeerIdx) (vote : Signed D S) : Prop :=
  (vote.inner.isDummy = true → db.getVoteDummy db.getCurrentRound i = none) ∧
  (vote.inner.isDummy = false → db.getVoteBlock db.getCurrentRound i = none)

/-- What `process_notarized_block_response_tx` checks first. -/
structure Verified (db : Db D S) (resp : WaitNotarizedBlockResponse D S)
    (params : ConsensusParams D) : Prop where
  scheduled : db.getConsensusParams resp.block.inner.round =
    (.ok params : Outcome ProcessNotarizedBlockError _)
  len : params.peers.len ≤ 255
  enough : (NumPeers.mk params.peers.len).threshold ≤
    resp.block.sigs.entries.length
  sigs : ∀ e ∈ resp.block.sigs.entries,
    SigOk params.peers (.header resp.block.inner) e.1 e.2
  fits : resp.block.inner.Fits (Hashing.paramsHash params)
    (Hashing.paramsLen params) resp.payload

theorem Verified.valid {db : Db D S} {resp : WaitNotarizedBlockResponse D S}
    {params : ConsensusParams D} (h : Verified db resp params) :
    resp.block.Valid params :=
  ⟨h.len, by rw [Notarized.card_signers]; exact h.enough, h.sigs⟩

/-- What a notarized block writes. -/
inductive NotarizedIntake (db : Db D S) (resp : WaitNotarizedBlockResponse D S) :
    Db D S → Prop
  | dummies (hdummy : resp.block.inner.isDummy = true)
      (hround : resp.block.inner.round = db.getCurrentRound) :
      NotarizedIntake db resp
        (db.insertDummyVotes db.getCurrentRound resp.block.sigs.entries)
  | extend (db₁ : Db D S) (o : InsertOutcome (BlockHeader D))
      (hlater : ∀ b ∈ db.getPrevNotarizedBlock db.getCurrentRound,
        b.round < resp.block.inner.round)
      (hext : resp.block.inner.Extends
        (db.getPrevNotarizedBlock db.getCurrentRound))
      (hdb : db.insertNotarizedBlock resp.block.inner.round resp.block.inner
        (some resp.payload) =
          (.ok (db₁, o) : Outcome ProcessNotarizedBlockError _)) :
      NotarizedIntake db resp (db₁.insertBlockVotes resp.block.inner.round
        resp.block.inner resp.block.sigs.entries)
  | replace (latest : BlockHeader D) (db₁ : Db D S)
      (o : InsertOutcome (BlockHeader D))
      (hlatest : db.getPrevNotarizedBlock db.getCurrentRound = some latest)
      (hlater : latest.round < resp.block.inner.round)
      (hnot : ¬ resp.block.inner.Extends (some latest))
      (hext : resp.block.inner.Extends (db.getPrevNotarizedBlock latest.round))
      (hdb : (db.deleteNotarizedBlock latest.round).insertNotarizedBlock
        resp.block.inner.round resp.block.inner (some resp.payload) =
          (.ok (db₁, o) : Outcome ProcessNotarizedBlockError _)) :
      NotarizedIntake db resp (db₁.insertBlockVotes resp.block.inner.round
        resp.block.inner resp.block.sigs.entries)

/-! ## Votes and proposals -/

section Votes

variable [DecidableEq S]

/-- Where counting a vote ends up, once it has been put into the tables `before`
and they have become `db`. -/
def Counted (c : Consensus D S) (i : PeerIdx) (vote : Signed D S)
    (before db : Db D S) (c' : Consensus D S) : Prop :=
  (Repeats before i vote ∧ c' = { c with db := db }) ∨
    (Fresh before i vote ∧
      checkRoundEnd { c with db := db } c.db.getCurrentRound = .ok c')

omit [DecidableEq S] [Signing D S] in
theorem insertVote_ok {db : Db D S} {params : ConsensusParams D} {i : PeerIdx}
    {vote : Signed D S} {res : Db D S × InsertOutcome S}
    (h : insertVote db db.getCurrentRound params i vote = .ok res) :
    (∀ e, res.2 = .alreadyPresent e → e = vote.sig → Repeats db i vote) ∧
      (res.2 = .inserted → Fresh db i vote) ∧
      ((vote.inner.isDummy = true ∧
        vote.inner.Fits (Hashing.paramsHash params) (Hashing.paramsLen params)
          BlockPayloadRaw.empty ∧
        res.1 = (db.insertDummyVote db.getCurrentRound i vote.sig).1) ∨
      (vote.inner.isDummy = false ∧
        (∀ p, db.consBlocksProposals.get? db.getCurrentRound = some p →
          p = vote.inner) ∧
        res.1 = (db.insertBlockVote db.getCurrentRound i vote).1)) := by
  unfold insertVote at h
  split at h
  · next hd =>
      simp only [Outcome.bind_eq_ok, Outcome.mapErr_eq_ok,
        BlockHeader.verifyWithContent_eq_ok, Outcome.pure_eq_ok] at h
      obtain ⟨_, hfits, rfl⟩ := h
      refine ⟨fun e he heq => Or.inl ⟨hd, ?_⟩,
        fun he => ⟨fun _ => ?_, fun hf => absurd hf (by simp [hd])⟩,
        Or.inl ⟨hd, hfits, rfl⟩⟩
      · simp only [Db.insertDummyVote] at he
        split at he
        · next e' he' =>
            cases he
            rw [he', heq]
        · cases he
      · simp only [Db.insertDummyVote] at he
        split at he
        · cases he
        · next he' => exact he'
  · next hd =>
      have hd' : vote.inner.isDummy = false := by simpa using hd
      simp only [Outcome.bind_eq_ok, Db.getProposal_eq_ok, Outcome.ensure_eq_ok,
        Outcome.pure_eq_ok] at h
      obtain ⟨o, ⟨rfl, _⟩, _, hprop, rfl⟩ := h
      refine ⟨fun e he heq => Or.inr ⟨hd', ?_⟩,
        fun he => ⟨fun ht => absurd ht hd, fun _ => ?_⟩,
        Or.inr ⟨hd', fun p hp => hprop p hp, rfl⟩⟩
      · simp only [Db.insertBlockVote] at he
        split at he
        · next e' he' =>
            cases he
            exact ⟨e', he', heq⟩
        · cases he
      · simp only [Db.insertBlockVote] at he
        split at he
        · cases he
        · next he' => exact he'

theorem countVoteTx_ok {c c' : Consensus D S} {params : ConsensusParams D}
    {i : PeerIdx} {vote : Signed D S}
    (h : c.countVoteTx c.db.getCurrentRound params i vote = .ok c') :
    SigOk params.peers (.header vote.inner) i vote.sig ∧
      ∃ res, insertVote c.db c.db.getCurrentRound params i vote = .ok res ∧
        Counted c i vote c.db res.1 c' := by
  simp only [countVoteTx, Outcome.bind_eq_ok, Outcome.orRaise_eq_ok,
    Signed.verifySigPeerIdx_eq_ok] at h
  obtain ⟨_, hsig, ⟨db, o⟩, hins, h⟩ := h
  refine ⟨hsig, (db, o), hins, ?_⟩
  cases o with
  | inserted =>
      simp only [Outcome.mapErr_eq_ok] at h
      exact Or.inr ⟨(insertVote_ok hins).2.1 rfl, h⟩
  | alreadyPresent e =>
      simp only at h
      split at h
      · next heq =>
          cases h
          exact Or.inl ⟨(insertVote_ok hins).1 e rfl heq, rfl⟩
      · cases h

/-- The tables the vote of a message goes into: a proposal is stored first. -/
def beforeVote (db : Db D S) : WaitVoteResponse D S → Db D S
  | .vote _ => db
  | .proposal block payload =>
      db.storeProposal db.getCurrentRound block.inner payload

theorem processVoteResponseTx_round {c c' : Consensus D S} {i : PeerIdx}
    {resp : WaitVoteResponse D S} (h : c.processVoteResponseTx i resp = .ok c') :
    resp.block.inner.round = c.db.getCurrentRound := by
  simp only [processVoteResponseTx, Outcome.bind_eq_ok, Outcome.ensure_eq_ok] at h
  obtain ⟨_, hround, _⟩ := h
  exact hround

/-- A committed vote or proposal is the proposal stored already, or went in as
`VoteIntake` says and was counted. -/
theorem processVoteResponseTx_ok {c c' : Consensus D S} {i : PeerIdx}
    {resp : WaitVoteResponse D S} (h : c.processVoteResponseTx i resp = .ok c') :
    (c' = c ∧ c.db.consBlocksProposals.get? resp.block.inner.round =
        some resp.block.inner) ∨ ∃ params db, c.db.getConsensusParams c.db.getCurrentRound =
        (.ok params : Outcome (ProcessVoteError D S) _) ∧
      VoteIntake c.db params i resp db ∧
      Counted c i resp.block (beforeVote c.db resp) db c' := by
  simp only [processVoteResponseTx, Outcome.bind_eq_ok,
    Outcome.ensure_eq_ok] at h
  obtain ⟨_, hround, params, hparams, h⟩ := h
  cases resp with
  | vote block =>
      obtain ⟨hsig, res, hins, hcounted⟩ := countVoteTx_ok h
      refine Or.inr ⟨params, res.1, hparams, ?_, hcounted⟩
      rcases (insertVote_ok hins).2.2 with ⟨hd, hfits, hres⟩ | ⟨hd, hprop, hres⟩
      · rw [hres]
        exact .dummy block hround hsig hd hfits
      · rw [hres]
        exact .block block hround hsig hd hprop
  | proposal block payload =>
      simp only [Outcome.bind_eq_ok, checkProposal,
        ConsensusParams.leaderIdx_eq_ok, Outcome.ensure_eq_ok,
        Outcome.mapErr_eq_ok, BlockHeader.verifyWithContent_eq_ok,
        Db.insertBlockProposal_eq_ok] at h
      obtain ⟨_, ⟨leader, ⟨_, _, hl⟩, _, rfl, _, hd, _, hfits, hext⟩, ⟨db, o⟩,
        ⟨_, hstored⟩, h⟩ := h
      rcases hstored with ⟨e, he, hres⟩ | ⟨hnone, hres⟩
      · cases hres
        simp only at h
        split at h
        · next heq =>
            cases h
            rw [heq, ← hround] at he
            exact Or.inl ⟨rfl, he⟩
        · cases h
      · cases hres
        obtain ⟨hsig, res, hins, hcounted⟩ := countVoteTx_ok
          (c := { c with
            db := c.db.storeProposal c.db.getCurrentRound block.inner payload }) h
        refine Or.inr ⟨params, res.1, hparams, ?_, hcounted⟩
        rcases (insertVote_ok hins).2.2 with ⟨hd', _⟩ | ⟨_, _, hres⟩
        · rw [hd] at hd'
          cases hd'
        · rw [hres]
          exact .proposal block payload hround hsig hd hl hfits hext hnone

end Votes

/-! ## Notarized blocks -/

omit [Signing D S] in
theorem insertNotarizedBlock_ok {c c' : Consensus D S} {block : Notarized D S}
    {payload : BlockPayloadRaw}
    (h : c.insertNotarizedBlock block payload = .ok c') :
    ∃ db₁ o, c.db.insertNotarizedBlock block.inner.round block.inner
        (some payload) = (.ok (db₁, o) : Outcome ProcessNotarizedBlockError _) ∧
      c' = { c with
        db := db₁.insertBlockVotes block.inner.round block.inner
          block.sigs.entries } := by
  simp only [insertNotarizedBlock, Outcome.bind_eq_ok, Outcome.pure_eq_ok] at h
  obtain ⟨⟨db₁, o⟩, hdb, rfl⟩ := h
  exact ⟨db₁, o, hdb, rfl⟩

theorem checkNotarized_ok {db : Db D S} {resp : WaitNotarizedBlockResponse D S}
    {u : Unit} (h : checkNotarized db resp = .ok u) :
    ∃ params, Verified db resp params := by
  simp only [checkNotarized, Outcome.bind_eq_ok, Outcome.mapErr_eq_ok,
    Notarized.verifySigs_eq_ok, BlockHeader.verifyWithContent_eq_ok] at h
  obtain ⟨params, hparams, _, ⟨hlen, henough, hsigs⟩, hfits⟩ := h
  exact ⟨params, hparams, hlen, henough, hsigs, hfits⟩

theorem processNotarizedBlockResponseTx_checked {c c' : Consensus D S}
    {resp : WaitNotarizedBlockResponse D S}
    (h : c.processNotarizedBlockResponseTx resp = .ok c') :
    checkNotarized c.db resp = .ok () := by
  simp only [processNotarizedBlockResponseTx, Outcome.bind_eq_ok] at h
  obtain ⟨_, hcheck, _⟩ := h
  exact hcheck

/-- A committed notarized block is our latest already, or went in as
`NotarizedIntake` says and was followed by the round check. -/
theorem processNotarizedBlockResponseTx_ok {c c' : Consensus D S}
    {resp : WaitNotarizedBlockResponse D S}
    (h : c.processNotarizedBlockResponseTx resp = .ok c') :
    (∃ params, Verified c.db resp params) ∧
      ((resp.block.inner.isDummy = false ∧ c' = c ∧
          c.db.getPrevNotarizedBlock c.db.getCurrentRound =
            some resp.block.inner) ∨
        ∃ db, NotarizedIntake c.db resp db ∧
          checkRoundEnd { c with db := db } c.db.getCurrentRound = .ok c') := by
  simp only [processNotarizedBlockResponseTx, Outcome.bind_eq_ok] at h
  obtain ⟨_, hcheck, h⟩ := h
  refine ⟨checkNotarized_ok hcheck, ?_⟩
  split at h
  · next hd =>
      simp only [processNotarizedDummyTx, Outcome.bind_eq_ok,
        Outcome.ensure_eq_ok, Outcome.mapErr_eq_ok] at h
      obtain ⟨_, hround, h⟩ := h
      exact Or.inr ⟨_, .dummies hd hround, h⟩
  · next hd =>
      have hd' : resp.block.inner.isDummy = false := by simpa using hd
      simp only [processNotarizedTx] at h
      split at h
      · simp only [Outcome.bind_eq_ok, Outcome.assertThat_eq_ok,
          Outcome.pure_eq_ok] at h
        obtain ⟨_, hlatest, rfl⟩ := h
        exact Or.inl ⟨hd', rfl, hlatest⟩
      · simp only [Outcome.bind_eq_ok, Outcome.ensure_eq_ok,
          Outcome.mapErr_eq_ok, not_le] at h
        obtain ⟨_, hlater, c₁, hput, h⟩ := h
        refine Or.inr ?_
        simp only [extendOrReplaceTx] at hput
        split at hput
        · next hext =>
            obtain ⟨db₁, o, hdb, rfl⟩ := insertNotarizedBlock_ok hput
            exact ⟨_, .extend db₁ o hlater hext hdb, h⟩
        · next hnot =>
            simp only [Outcome.bind_eq_ok, Outcome.expect_eq_ok,
              Outcome.ensure_eq_ok] at hput
            obtain ⟨latest, hlatest, _, hext, hput⟩ := hput
            obtain ⟨db₁, o, hdb, rfl⟩ := insertNotarizedBlock_ok hput
            rw [hlatest] at hnot
            exact ⟨_, .replace latest db₁ o hlatest (hlater latest hlatest) hnot
              hext hdb, h⟩

end Consensus

end Bfte
