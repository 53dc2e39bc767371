import Bfte.Proofs.Restart

/-!
# What is recorded with a notarized block

A notarized block is served to other peers with its payload and the votes it was
notarized by, and these are in three other tables. The payload is stored with the
proposal or with the block itself. The votes are collected before a proposal is
known, thinned out when one comes in, and thinned out again, and overwritten, when
a block is notarized; when the round check counts them it does not look at what
they are for.

`Backed` is what holds of a stored proposal and its votes, `Recorded` adds that
there are enough of them. Votes of a round that has been left do not change any
more, since a block is taken only where none is: that fails for the last round
number there is, where the round check and the search for the latest block do not
see a block.
-/

namespace Bfte

namespace Consensus

variable {D S : Type} [LinearOrder D] [Hashing D] [Signing D S]

/-- The payload of a block is stored. -/
def PayloadStored (db : Db D S) (b : BlockHeader D) : Prop :=
  ∃ payload, db.getBlockPayload b.payloadHash = some payload ∧
    Hashing.payloadHash payload = b.payloadHash ∧
    payload.length = b.payloadLen

/-- The payload of `b` is stored, `b` is under the params of round `r`, and the
block votes of that round are valid votes for `b`. -/
structure Backed (db : Db D S) (r : BlockRound) (b : BlockHeader D)
    (p : ConsensusParams D) : Prop where
  scheduled : (db.getConsensusParams r : Outcome Empty _) = .ok p
  payload : PayloadStored db b
  paramsHash : b.consensusParamsHash = Hashing.paramsHash p
  paramsLen : b.consensusParamsLen = Hashing.paramsLen p
  votes : ∀ i w, db.getVoteBlock r i = some w →
    w.inner = b ∧ SigOk p.peers (.header b) i w.sig

/-- And there are enough of them. -/
structure Recorded (db : Db D S) (r : BlockRound) (b : BlockHeader D)
    (p : ConsensusParams D) : Prop extends Backed db r b p where
  enough : (NumPeers.mk p.peers.len).threshold ≤ db.getNumVotesProposal r

/-- Notarized blocks are recorded, and the votes of the current round are for the
proposal stored. -/
structure Complete (db : Db D S) : Prop where
  notarized : ∀ r b, db.consBlocksNotarized.get? r = some b →
    ∃ p, Recorded db r b p
  proposal : ∀ b, db.consBlocksProposals.get? db.getCurrentRound = some b →
    ∃ p, Backed db db.getCurrentRound b p

/-! ## Frames -/

/-- Stored payloads that are what their hash says stay. -/
def PayloadsKept (db db' : Db D S) : Prop :=
  ∀ payload, db.getBlockPayload (Hashing.payloadHash payload) = some payload →
    db'.getBlockPayload (Hashing.payloadHash payload) = some payload

omit [Signing D S] in
theorem PayloadsKept.of_eq {db db' : Db D S}
    (h : db'.consBlocksPayloads = db.consBlocksPayloads) :
    PayloadsKept db db' := by
  intro payload hget
  unfold Db.getBlockPayload
  rw [h]
  exact hget

omit [Signing D S] in
theorem payloadsKept_insertPayload [CollisionFree D] {db : Db D S} {h : D}
    {payload : BlockPayloadRaw} (hhash : Hashing.payloadHash payload = h) :
    PayloadsKept db (db.insertPayload h payload) := by
  intro payload' hget
  show (db.consBlocksPayloads.insert h payload).get?
    (Hashing.payloadHash payload') = some payload'
  rw [SortedTable.get?_insert]
  split
  · next heq =>
      rw [← hhash] at heq
      rw [CollisionFree.payloadHash_inj payload' payload heq]
  · exact hget

omit [Signing D S] in
theorem PayloadStored.kept {db db' : Db D S} {b : BlockHeader D}
    (h : PayloadStored db b) (hkept : PayloadsKept db db') :
    PayloadStored db' b := by
  obtain ⟨payload, hget, hhash, hlen⟩ := h
  rw [← hhash] at hget
  exact ⟨payload, hhash ▸ hkept payload hget, hhash, hlen⟩

theorem Backed.frame {db db' : Db D S} {r : BlockRound} {b : BlockHeader D}
    {p : ConsensusParams D} (h : Backed db r b p) (hkept : PayloadsKept db db')
    (hparams : (db'.getConsensusParams r : Outcome Empty _) = .ok p)
    (hvotes : ∀ i, db'.getVoteBlock r i = db.getVoteBlock r i) :
    Backed db' r b p where
  scheduled := hparams
  payload := h.payload.kept hkept
  paramsHash := h.paramsHash
  paramsLen := h.paramsLen
  votes i w hw := h.votes i w (by rw [← hvotes]; exact hw)

theorem Recorded.frame {db db' : Db D S} {r : BlockRound} {b : BlockHeader D}
    {p : ConsensusParams D} (h : Recorded db r b p)
    (hkept : PayloadsKept db db')
    (hparams : (db'.getConsensusParams r : Outcome Empty _) = .ok p)
    (hvotes : ∀ i, db'.getVoteBlock r i = db.getVoteBlock r i) :
    Recorded db' r b p where
  toBacked := h.toBacked.frame hkept hparams hvotes
  enough := by
    refine h.enough.trans (votesAt_length_le fun i hi => ?_)
    show (db'.getVoteBlock r i).isSome = true
    rw [hvotes]
    exact hi

/-! ## The round check -/

/-- The invariant. While a message is being processed, votes may be stored for a
block notarized ahead of the current round, and a block notarized in the current
round may have other votes than its proposal. -/
structure RecordsInv (db : Db D S) : Prop where
  seated : ∃ p, (db.getConsensusParams db.getCurrentRound : Outcome Empty _) =
    .ok p ∧ p.peers.len ≤ 255
  reached : ∀ r i w, db.getVoteBlock r i = some w →
    r ≤ db.getCurrentRound ∨ (db.consBlocksNotarized.get? r).isSome = true
  signed : ∀ r i w, db.getVoteBlock r i = some w →
    ∃ p, (db.getConsensusParams r : Outcome Empty _) = .ok p ∧
      SigOk p.peers (.header w.inner) i w.sig
  notarized : ∀ r b, db.consBlocksNotarized.get? r = some b →
    ∃ p, Recorded db r b p
  proposal : ∀ b, db.consBlocksProposals.get? db.getCurrentRound = some b →
    (∃ p, Backed db db.getCurrentRound b p) ∨
      (db.consBlocksNotarized.get? db.getCurrentRound).isSome = true

omit [Hashing D] [Signing D S] in
/-- Votes that are all for one block are all retained. -/
theorem retainVotesFor_eq_self {db : Db D S} {r : BlockRound}
    {b : BlockHeader D}
    (h : ∀ i w, db.getVoteBlock r i = some w → w.inner = b) :
    db.retainVotesFor r b = db := by
  have htable : (db.retainVotesFor r b).consVotesBlock = db.consVotesBlock := by
    refine SortedTable.ext_get? fun k => Option.ext fun w => ?_
    obtain ⟨r', i⟩ := k
    refine Db.get?_retainVotesFor.trans ⟨And.left, fun hw => ⟨hw, ?_⟩⟩
    rintro rfl _
    exact h i w hw
  exact congrArg (fun t => { db with consVotesBlock := t }) htable

/-- What the loop notarizes is recorded, and it drops no vote. -/
theorem Notarizes.records {db db' : Db D S} {last : Option BlockRound}
    (h : Notarizes db db.getCurrentRound db' last) (hinv : BlockInv db)
    (hrec : RecordsInv db) :
    db'.consVotesBlock = db.consVotesBlock ∧
      db'.consBlocksPayloads = db.consBlocksPayloads ∧
      ∀ r b, db'.consBlocksNotarized.get? r = some b → ∃ p, Recorded db r b p := by
  cases h with
  | nothing => exact ⟨rfl, rfl, hrec.notarized⟩
  | received => exact ⟨rfl, rfl, hrec.notarized⟩
  | voted params p below hlt hparams hp hround hdummy hvotes =>
      have hfree : ¬ (db.consBlocksNotarized.get?
          db.getCurrentRound).isSome = true := by
        intro hsome
        obtain ⟨b, hb⟩ := Option.isSome_iff_exists.mp hsome
        obtain ⟨b', hb', hle⟩ := notarized_le_highest hinv.round_eq hb hlt
        exact absurd (below b' hb') (not_lt.mpr hle)
      obtain ⟨params', hbacked⟩ := (hrec.proposal p hp).resolve_right hfree
      have hsame : params' = params := by
        have := hbacked.scheduled
        rw [Db.getConsensusParams_cast hparams] at this
        exact (Except.ok.inj this).symm
      subst hsame
      have hretain : (db.storeNotarized db.getCurrentRound p none) =
          { db with consBlocksNotarized :=
              db.consBlocksNotarized.insert db.getCurrentRound p } :=
        retainVotesFor_eq_self fun i w hw => (hbacked.votes i w hw).1
      rw [hretain]
      refine ⟨rfl, rfl, fun r b hb => ?_⟩
      have hget : (db.consBlocksNotarized.insert db.getCurrentRound p).get? r =
        some b := hb
      rcases SortedTable.get?_insert_eq_some hget with ⟨rfl, rfl⟩ | hold
      · exact ⟨params', hbacked, hvotes⟩
      · exact hrec.notarized r b hold

theorem Closed.recordsInv {c c' : Consensus D S} {v : RoundEnd D S}
    (h : Closed c v c') (hinv : BlockInv c.db)
    (hbounded : ∀ r b, c.db.consBlocksNotarized.get? r = some b →
      r < BlockRound.MAX) (hrec : RecordsInv c.db) : RecordsInv c'.db := by
  obtain ⟨hvotes, hpayloads, hnot⟩ := h.loop.notarizes.records hinv hrec
  have hvotes' : c'.db.consVotesBlock = c.db.consVotesBlock := by
    rw [h.ended.db, ← hvotes]
  have hget : ∀ r i, c'.db.getVoteBlock r i = c.db.getVoteBlock r i := by
    intro r i
    unfold Db.getVoteBlock
    rw [hvotes']
  have hkept : PayloadsKept c.db c'.db := by
    refine .of_eq ?_
    rw [h.ended.db, ← hpayloads]
  have hparams : ∀ {r : BlockRound} {p : ConsensusParams D},
      (c.db.getConsensusParams r : Outcome Empty _) = .ok p →
      (c'.db.getConsensusParams r : Outcome Empty _) = .ok p := by
    intro r p hp
    rw [h.sameParams.getConsensusParams]
    exact hp
  have hbehind := h.boundedInv hinv hbounded
  refine ⟨?_, ?_, ?_, ?_, ?_⟩
  · obtain ⟨p, hp, hlen, _⟩ := h.idle
    exact ⟨p, hp, hlen⟩
  · intro r i w hw
    rw [hget] at hw
    rcases hrec.reached r i w hw with hle | hsome
    · exact Or.inl (hle.trans h.cur_le)
    · obtain ⟨b, hb⟩ := Option.isSome_iff_exists.mp hsome
      rw [h.notarized_mono hinv hb]
      exact Or.inr rfl
  · intro r i w hw
    rw [hget] at hw
    obtain ⟨p, hp, hsig⟩ := hrec.signed r i w hw
    exact ⟨p, hparams hp, hsig⟩
  · intro r b hb
    rw [h.notarized_eq] at hb
    obtain ⟨p, hp⟩ := hnot r b hb
    exact ⟨p, hp.frame hkept (hparams hp.scheduled) (hget r)⟩
  · intro b hb
    rcases eq_or_lt_of_le h.cur_le with hstill | hmoved
    · rw [h.proposals_eq, ← hstill] at hb
      rw [← hstill]
      rcases hrec.proposal b hb with ⟨p, hp⟩ | hsome
      · exact Or.inl ⟨p, hp.frame hkept (hparams hp.scheduled) (hget _)⟩
      · -- a block notarized here would have ended the round
        obtain ⟨b', hb'⟩ := Option.isSome_iff_exists.mp hsome
        have := hbehind.lt_cur (h.notarized_mono hinv hb')
        lia
    · rw [h.proposal_none hinv hmoved] at hb
      cases hb

/-- What changes neither blocks, payloads and block votes nor the params of a round
that matters. -/
theorem RecordsInv.frame {db db' : Db D S} (h : RecordsInv db)
    (hsame : SameBlocks db db') (hkept : PayloadsKept db db')
    (hvotes : db'.consVotesBlock = db.consVotesBlock)
    (hparams : ∀ r (p : ConsensusParams D), r ≤ db.getCurrentRound ∨
        (db.consBlocksNotarized.get? r).isSome = true →
      (db.getConsensusParams r : Outcome Empty _) = .ok p →
      (db'.getConsensusParams r : Outcome Empty _) = .ok p) :
    RecordsInv db' := by
  have hget : ∀ r i, db'.getVoteBlock r i = db.getVoteBlock r i := by
    intro r i
    unfold Db.getVoteBlock
    rw [hvotes]
  refine ⟨?_, ?_, ?_, ?_, ?_⟩
  · obtain ⟨p, hp, hlen⟩ := h.seated
    rw [hsame.getCurrentRound]
    exact ⟨p, hparams _ p (Or.inl le_rfl) hp, hlen⟩
  · intro r i w hw
    rw [hget] at hw
    rw [hsame.getCurrentRound, hsame.notarized]
    exact h.reached r i w hw
  · intro r i w hw
    rw [hget] at hw
    obtain ⟨p, hp, hsig⟩ := h.signed r i w hw
    exact ⟨p, hparams r p (h.reached r i w hw) hp, hsig⟩
  · intro r b hb
    rw [hsame.notarized] at hb
    obtain ⟨p, hp⟩ := h.notarized r b hb
    have hp' := hparams r p (Or.inr (by rw [hb]; rfl)) hp.scheduled
    exact ⟨p, hp.frame hkept hp' (hget r)⟩
  · intro b hb
    rw [hsame.proposals, hsame.getCurrentRound] at hb
    rw [hsame.notarized, hsame.getCurrentRound]
    refine (h.proposal b hb).imp_left fun ⟨p, hp⟩ => ⟨p, ?_⟩
    exact hp.frame hkept (hparams _ p (Or.inl le_rfl) hp.scheduled) (hget _)

theorem RecordsInv.finality {c c' : Consensus D S} (h : RecordsInv c.db)
    (hf : FinalityFrame c c') : RecordsInv c'.db := by
  refine h.frame hf.sameBlocks (.of_eq ?_) ?_ fun r p _ hp => ?_
  · rw [hf.db]
  · rw [hf.db]
  · rw [hf.sameParams.getConsensusParams]
    exact hp

omit [Signing D S] in
theorem insertConsensusParams_payloads (db : Db D S) (r : BlockRound)
    (params : ConsensusParams D) :
    (db.insertConsensusParams r params).1.consBlocksPayloads =
      db.consBlocksPayloads := by
  unfold Db.insertConsensusParams
  dsimp only
  split <;> rfl

/-! ## Messages -/

section Messages

variable {db db' : Db D S}

theorem VoteIntake.payloadsKept [CollisionFree D] {params : ConsensusParams D}
    {i : PeerIdx} {resp : WaitVoteResponse D S}
    (h : VoteIntake db params i resp db') : PayloadsKept db db' := by
  cases h with
  | dummy => exact .of_eq rfl
  | block => exact .of_eq rfl
  | proposal vote payload hround hsig hdummy hleader hfits =>
      exact payloadsKept_insertPayload (hfits.payload hdummy).1

theorem VoteIntake.voteBlock_of_ne {params : ConsensusParams D}
    {i : PeerIdx} {resp : WaitVoteResponse D S}
    (h : VoteIntake db params i resp db') {r : BlockRound}
    (hr : r ≠ db.getCurrentRound) (j : PeerIdx) :
    db'.getVoteBlock r j = db.getVoteBlock r j := by
  have hkey : voteKey r j ≠ voteKey db.getCurrentRound i := fun heq =>
    hr (voteKey_inj.mp heq).1
  cases h with
  | dummy => rfl
  | block => exact SortedTable.get?_insert_of_ne hkey
  | proposal vote payload =>
      refine (SortedTable.get?_insert_of_ne hkey).trans (Option.ext fun w => ?_)
      refine Db.get?_retainVotesFor.trans ⟨And.left, fun hw => ⟨hw, ?_⟩⟩
      exact fun heq => absurd heq hr

theorem VoteIntake.recordsInv [CollisionFree D] {params : ConsensusParams D}
    {i : PeerIdx} {resp : WaitVoteResponse D S}
    (h : VoteIntake db params i resp db') (hinv : BoundedInv db)
    (hparams : (db.getConsensusParams db.getCurrentRound : Outcome Empty _) =
      .ok params) (hrec : RecordsInv db) : RecordsInv db' := by
  obtain ⟨hround, hsig⟩ := h.voted
  have hcur := h.curRound
  have hsched : ∀ r, (db'.getConsensusParams r : Outcome Empty _) =
      db.getConsensusParams r := h.sameParams.getConsensusParams
  have hfree : ¬ (db.consBlocksNotarized.get?
      db.getCurrentRound).isSome = true := by
    intro hsome
    obtain ⟨b, hb⟩ := Option.isSome_iff_exists.mp hsome
    exact lt_irrefl _ (hinv.lt_cur hb)
  refine ⟨?_, ?_, ?_, ?_, ?_⟩
  · rw [hsched, hcur]
    exact hrec.seated
  · intro r j w hw
    rw [hcur, h.notarized_eq]
    rcases h.voteBlock_cases hw with hold | ⟨rfl, _⟩
    · exact hrec.reached r j w hold
    · exact Or.inl le_rfl
  · intro r j w hw
    rw [hsched]
    rcases h.voteBlock_cases hw with hold | ⟨rfl, rfl, rfl, _⟩
    · exact hrec.signed r j w hold
    · exact ⟨params, hparams, hsig⟩
  · intro r b hb
    rw [h.notarized_eq] at hb
    obtain ⟨p, hp⟩ := hrec.notarized r b hb
    refine ⟨p, hp.frame h.payloadsKept ((hsched r).trans hp.scheduled) ?_⟩
    exact h.voteBlock_of_ne (ne_of_lt (hinv.lt_cur hb))
  · intro b hb
    refine Or.inl ?_
    rw [hcur] at hb ⊢
    obtain ⟨p, hp, hlen⟩ := hrec.seated
    rw [hparams] at hp
    cases hp
    have hvotes : ∀ j w, db'.getVoteBlock db.getCurrentRound j = some w →
        w.inner = b → SigOk params.peers (.header b) j w.sig := by
      rintro j w hw rfl
      rcases h.voteBlock_cases hw with hold | ⟨_, rfl, rfl, _⟩
      · obtain ⟨p, hp, hsig⟩ := hrec.signed _ j w hold
        rw [hparams] at hp
        cases hp
        exact hsig
      · exact hsig
    cases h with
    | dummy =>
        obtain ⟨p, hp⟩ := (hrec.proposal b hb).resolve_right hfree
        exact ⟨p, hp.frame (.of_eq rfl) hp.scheduled fun _ => rfl⟩
    | block vote hround hsig hdummy hprop =>
        obtain ⟨p, hp⟩ := (hrec.proposal b hb).resolve_right hfree
        have hsame := hp.scheduled
        rw [hparams] at hsame
        cases hsame
        refine ⟨params, hparams, hp.payload, hp.paramsHash, hp.paramsLen, ?_⟩
        intro j w hw
        suffices hinner : w.inner = b from ⟨hinner, hvotes j w hw hinner⟩
        have hget : (db.consVotesBlock.insert (voteKey db.getCurrentRound i)
          vote).get? (voteKey db.getCurrentRound j) = some w := hw
        rcases get?_insert_voteKey hget with ⟨_, _, rfl⟩ | hold
        · exact (hprop b hb).symm
        · exact (hp.votes j w hold).1
    | proposal vote payload hround hsig hdummy hleader hfits hext hnone =>
        have hget : (db.consBlocksProposals.insert db.getCurrentRound
          vote.inner).get? db.getCurrentRound = some b := hb
        rw [SortedTable.get?_insert_self] at hget
        cases hget
        refine ⟨params, hparams, ⟨payload, ?_, hfits.payload hdummy⟩,
          hfits.paramsHash, hfits.paramsLen, ?_⟩
        · exact SortedTable.get?_insert_self _ _ _
        · intro j w hw
          suffices hinner : w.inner = vote.inner from
            ⟨hinner, hvotes j w hw hinner⟩
          refine inner_of_storeProposal hw fun hold => ?_
          obtain ⟨p, hp, hsig⟩ := hrec.signed _ j w hold
          rw [hparams] at hp
          cases hp
          exact lt_of_lt_of_le hsig.lt_len hlen

omit [Hashing D] [Signing D S] in
theorem insertBlockVotes_isSome {round : BlockRound} {b : BlockHeader D}
    {l : List (PeerIdx × S)} {db : Db D S} {j : PeerIdx}
    (h : (db.getVoteBlock round j).isSome = true ∨ j ∈ l.map Prod.fst) :
    ((db.insertBlockVotes round b l).getVoteBlock round j).isSome = true := by
  induction l generalizing db with
  | nil => exact h.resolve_right List.not_mem_nil
  | cons e l ih =>
      obtain ⟨i, sig⟩ := e
      refine ih ?_
      have hget : (db.insertBlockVote round i ⟨b, sig⟩).1.getVoteBlock round j =
          if voteKey round j = voteKey round i then some ⟨b, sig⟩
          else db.getVoteBlock round j := SortedTable.get?_insert _ _ _ _
      rw [hget]
      rcases h with hold | hmem
      · refine Or.inl ?_
        split
        · rfl
        · exact hold
      · rcases List.mem_cons.mp hmem with rfl | hmem
        · rw [if_pos rfl]
          exact Or.inl rfl
        · exact Or.inr hmem

omit [Hashing D] [Signing D S] in
theorem insertDummyVotes_isSome {round : BlockRound} {l : List (PeerIdx × S)}
    {db : Db D S} {j : PeerIdx}
    (h : (db.getVoteDummy round j).isSome = true ∨ j ∈ l.map Prod.fst) :
    ((db.insertDummyVotes round l).getVoteDummy round j).isSome = true := by
  induction l generalizing db with
  | nil => exact h.resolve_right List.not_mem_nil
  | cons e l ih =>
      obtain ⟨i, sig⟩ := e
      refine ih ?_
      have hget : (db.insertDummyVote round i sig).1.getVoteDummy round j =
          if voteKey round j = voteKey round i then some sig
          else db.getVoteDummy round j := SortedTable.get?_insert _ _ _ _
      rw [hget]
      split
      · exact Or.inl rfl
      · next hne =>
          rcases h with hold | hmem
          · exact Or.inl hold
          · rcases List.mem_cons.mp hmem with rfl | hmem
            · exact absurd rfl hne
            · exact Or.inr hmem

omit [Hashing D] [Signing D S] in
theorem insertBlockVotes_payloads {round : BlockRound} {b : BlockHeader D}
    {l : List (PeerIdx × S)} {db : Db D S} :
    (db.insertBlockVotes round b l).consBlocksPayloads = db.consBlocksPayloads := by
  induction l generalizing db with
  | nil => rfl
  | cons e l ih => exact ih

omit [Hashing D] [Signing D S] in
theorem insertDummyVotes_payloads {round : BlockRound} {l : List (PeerIdx × S)}
    {db : Db D S} :
    (db.insertDummyVotes round l).consBlocksPayloads = db.consBlocksPayloads := by
  induction l generalizing db with
  | nil => rfl
  | cons e l ih => exact ih

omit [LinearOrder D] [Hashing D] [Signing D S] in
/-- Peers that have a vote in a round are counted. -/
theorem length_le_votesAt {V : Type} {t : SortedTable VoteKey V} {r : BlockRound}
    {l : List PeerIdx} (hnodup : l.Nodup)
    (h : ∀ j ∈ l, j ≤ PeerIdx.MAX ∧ (t.get? (voteKey r j)).isSome = true) :
    l.length ≤ (votesAt t r).length := by
  rw [← (List.length_map Prod.fst : ((votesAt t r).map Prod.fst).length = _)]
  refine hnodup.length_le_of_subset fun j hj => ?_
  obtain ⟨hle, hsome⟩ := h j hj
  obtain ⟨w, hw⟩ := Option.isSome_iff_exists.mp hsome
  exact List.mem_map.mpr ⟨(j, w), mem_votesAt.mpr ⟨hw, hle⟩, rfl⟩

/-- The database after `block` was stored as notarized with its votes, where `t`
was left of the notarized table. -/
def afterTaken (db : Db D S) (t : SortedTable BlockRound (BlockHeader D))
    (resp : WaitNotarizedBlockResponse D S) : Db D S :=
  (({ db with consBlocksNotarized := t }).storeNotarized resp.block.inner.round
    resp.block.inner (some resp.payload)).insertBlockVotes
      resp.block.inner.round resp.block.inner resp.block.sigs.entries

section Taken

variable {t : SortedTable BlockRound (BlockHeader D)}
  {resp : WaitNotarizedBlockResponse D S}

omit [Hashing D] [Signing D S] in
theorem afterTaken_voteBlock_of_ne {r : BlockRound}
    (hr : r ≠ resp.block.inner.round) (j : PeerIdx) :
    (afterTaken db t resp).getVoteBlock r j = db.getVoteBlock r j := by
  unfold afterTaken Db.getVoteBlock
  rw [get?_insertBlockVotes_of_ne hr]
  refine Option.ext fun w => Db.get?_retainVotesFor.trans ?_
  exact ⟨And.left, fun hw => ⟨hw, fun heq => absurd heq hr⟩⟩

omit [Hashing D] [Signing D S] in
theorem afterTaken_sameParams : SameParams db (afterTaken db t resp) := by
  have hstore : SameParams db (({ db with
      consBlocksNotarized := t }).storeNotarized resp.block.inner.round
        resp.block.inner (some resp.payload)) := ⟨rfl, rfl⟩
  exact hstore.trans insertBlockVotes_sameParams

omit [Hashing D] [Signing D S] in
theorem afterTaken_notarized : (afterTaken db t resp).consBlocksNotarized =
    t.insert resp.block.inner.round resp.block.inner :=
  insertBlockVotes_sameBlocks.notarized

omit [Hashing D] [Signing D S] in
theorem afterTaken_payloads : (afterTaken db t resp).consBlocksPayloads =
    db.consBlocksPayloads.insert resp.block.inner.payloadHash resp.payload :=
  insertBlockVotes_payloads

omit [Signing D S] in
theorem afterTaken_payloadsKept [CollisionFree D]
    (hhash : Hashing.payloadHash resp.payload = resp.block.inner.payloadHash) :
    PayloadsKept db (afterTaken db t resp) := by
  intro payload hget
  unfold Db.getBlockPayload
  rw [afterTaken_payloads]
  exact payloadsKept_insertPayload hhash payload hget

/-- The block taken is recorded. -/
theorem afterTaken_recorded {params : ConsensusParams D}
    (hver : Verified db resp params)
    (hdummy : resp.block.inner.isDummy = false) (hrec : RecordsInv db) :
    Recorded (afterTaken db t resp) resp.block.inner.round resp.block.inner
      params := by
  have hscheduled : (db.getConsensusParams resp.block.inner.round :
      Outcome Empty _) = .ok params := Db.getConsensusParams_cast hver.scheduled
  refine ⟨⟨?_, ⟨resp.payload, ?_, hver.fits.payload hdummy⟩,
    hver.fits.paramsHash, hver.fits.paramsLen, ?_⟩, ?_⟩
  · rw [afterTaken_sameParams.getConsensusParams]
    exact hscheduled
  · unfold Db.getBlockPayload
    rw [afterTaken_payloads]
    exact SortedTable.get?_insert_self _ _ _
  · intro j w hw
    rcases get?_insertBlockVotes hw with hold | ⟨_, hinner, hmem⟩
    · obtain ⟨hold, hinner⟩ := Db.get?_retainVotesFor.mp hold
      obtain ⟨p, hp, hsig⟩ := hrec.signed _ j w hold
      rw [hscheduled] at hp
      cases hp
      have hlt : j < PeerIdx.MAX := lt_of_lt_of_le hsig.lt_len hver.len
      rw [hinner rfl hlt] at hsig
      exact ⟨hinner rfl hlt, hsig⟩
    · exact ⟨hinner, hver.sigs _ hmem⟩
  · refine hver.enough.trans ?_
    rw [← (List.length_map Prod.fst :
      (resp.block.sigs.entries.map Prod.fst).length = _)]
    refine length_le_votesAt ?_ fun j hj => ⟨?_, ?_⟩
    · exact List.pairwise_map.mpr
        (resp.block.sigs.sorted.imp fun hlt => ne_of_lt hlt)
    · obtain ⟨e, he, rfl⟩ := List.mem_map.mp hj
      exact (lt_of_lt_of_le (hver.sigs e he).lt_len hver.len).le
    · exact insertBlockVotes_isSome (Or.inr hj)

theorem afterTaken_recordsInv [CollisionFree D] {params : ConsensusParams D}
    (hver : Verified db resp params)
    (hdummy : resp.block.inner.isDummy = false)
    (hsub : ∀ r b, t.get? r = some b → db.consBlocksNotarized.get? r = some b)
    (hinv : BoundedInv db) (hrec : RecordsInv db) :
    RecordsInv (afterTaken db t resp) := by
  have hkept : PayloadsKept db (afterTaken db t resp) :=
    afterTaken_payloadsKept (hver.fits.payload hdummy).1
  have hparams : ∀ r, ((afterTaken db t resp).getConsensusParams r :
      Outcome Empty _) = db.getConsensusParams r :=
    afterTaken_sameParams.getConsensusParams
  have hcur : (afterTaken db t resp).getCurrentRound = db.getCurrentRound :=
    insertBlockVotes_sameBlocks.getCurrentRound
  have hprop : (afterTaken db t resp).consBlocksProposals =
    db.consBlocksProposals := insertBlockVotes_sameBlocks.proposals
  have htaken := afterTaken_recorded (t := t) hver hdummy hrec
  have hsome : ((t.insert resp.block.inner.round resp.block.inner).get?
      resp.block.inner.round).isSome = true := by
    rw [SortedTable.get?_insert_self]
    rfl
  refine ⟨?_, ?_, ?_, ?_, ?_⟩
  · rw [hparams, hcur]
    exact hrec.seated
  · intro r j w hw
    rw [hcur, afterTaken_notarized]
    by_cases hr : r = resp.block.inner.round
    · rw [hr]
      exact Or.inr hsome
    · rw [afterTaken_voteBlock_of_ne hr] at hw
      refine Or.inl ((hrec.reached r j w hw).elim id fun hfull => ?_)
      obtain ⟨b, hb⟩ := Option.isSome_iff_exists.mp hfull
      exact (hinv.lt_cur hb).le
  · intro r j w hw
    rw [hparams]
    by_cases hr : r = resp.block.inner.round
    · subst hr
      obtain ⟨hinner, hsig⟩ := htaken.votes j w hw
      rw [hinner, ← hparams]
      exact ⟨params, htaken.scheduled, hsig⟩
    · rw [afterTaken_voteBlock_of_ne hr] at hw
      exact hrec.signed r j w hw
  · intro r b hb
    rw [afterTaken_notarized, SortedTable.get?_insert] at hb
    split at hb
    · next heq =>
        cases hb
        rw [heq]
        exact ⟨params, htaken⟩
    · next hne =>
        obtain ⟨p, hp⟩ := hrec.notarized r b (hsub r b hb)
        exact ⟨p, hp.frame hkept ((hparams r).trans hp.scheduled)
          (afterTaken_voteBlock_of_ne hne)⟩
  · intro b hb
    rw [hprop, hcur] at hb
    rw [hcur, afterTaken_notarized]
    by_cases hr : db.getCurrentRound = resp.block.inner.round
    · rw [hr]
      exact Or.inr hsome
    · rcases hrec.proposal b hb with ⟨p, hp⟩ | hfull
      · exact Or.inl ⟨p, hp.frame hkept ((hparams _).trans hp.scheduled)
          (afterTaken_voteBlock_of_ne hr)⟩
      · obtain ⟨b', hb'⟩ := Option.isSome_iff_exists.mp hfull
        exact absurd (hinv.lt_cur hb') (lt_irrefl _)

end Taken

theorem NotarizedIntake.recordsInv [CollisionFree D]
    {resp : WaitNotarizedBlockResponse D S} {params : ConsensusParams D}
    (h : NotarizedIntake db resp db') (hver : Verified db resp params)
    (hinv : BoundedInv db) (hrec : RecordsInv db) : RecordsInv db' := by
  cases h with
  | dummies =>
      refine hrec.frame insertDummyVotes_sameBlocks ?_ insertDummyVotes_block ?_
      · exact .of_eq insertDummyVotes_payloads
      · intro r p _ hp
        rw [insertDummyVotes_sameParams.getConsensusParams]
        exact hp
  | extend db₁ o hlater hext hdb =>
      obtain ⟨_, hdummy, hres⟩ := Db.insertNotarizedBlock_eq_ok.mp hdb
      rw [hinv.none_of_later hlater] at hres
      rcases hres with ⟨e, he, _⟩ | ⟨_, hres⟩
      · cases he
      · cases hres
        exact afterTaken_recordsInv (t := db.consBlocksNotarized) hver hdummy
          (fun _ _ hb => hb) hinv hrec
  | replace latest db₁ o hlatest hlater hnot hext hdb =>
      obtain ⟨_, hdummy, hres⟩ := Db.insertNotarizedBlock_eq_ok.mp hdb
      have hsub : ∀ r b,
          (db.consBlocksNotarized.remove latest.round).get? r = some b →
          db.consBlocksNotarized.get? r = some b :=
        fun r b hb => (SortedTable.get?_remove_eq_some.mp hb).2
      have hfree : db.consBlocksNotarized.get? resp.block.inner.round = none := by
        refine hinv.none_of_later fun b hb => ?_
        rw [hlatest] at hb
        cases hb
        exact hlater
      rcases hres with ⟨e, he, _⟩ | ⟨_, hres⟩
      · have := hsub _ e he
        rw [hfree] at this
        cases this
      · cases hres
        exact afterTaken_recordsInv hver hdummy hsub hinv hrec

end Messages

/-! ## Runs -/

section Runs

variable [DecidableEq S]

theorem step_recordsInv [CollisionFree D] (c : Consensus D S)
    (op : ConsensusOp D S) (hg : BelowLast c op) (hinv : BoundedInv c.db)
    (hparams : ParamsInv c) (hrec : RecordsInv c.db) :
    RecordsInv (c.step op).db := by
  obtain ⟨c₁, hphase, hblock, hend⟩ := step_closed c op hinv.toRoundInv
  have hbounded := hphase.bounded hinv hg
  have hrec₁ : RecordsInv c₁.db := by
    cases hphase with
    | same => exact hrec
    | vote i resp params db hp hin =>
        exact hin.recordsInv hinv (Db.getConsensusParams_cast hp) hrec
    | notarized resp params db _ hver hin => exact hin.recordsInv hver hinv hrec
    | finality k resp c₁ hf => exact hrec.finality hf
    | paramsChange round timestamp peers new hlt =>
        rw [hparams.channel] at hlt
        refine hrec.frame (insertConsensusParams_sameBlocks _ _ _) ?_
          (insertConsensusParams_votes _ _ _).1 ?_
        · exact .of_eq (insertConsensusParams_payloads _ _ _)
        · intro r p hr hp
          have hle : r ≤ c.db.getCurrentRound := by
            refine hr.elim id fun hsome => ?_
            obtain ⟨b, hb⟩ := Option.isSome_iff_exists.mp hsome
            exact (hinv.lt_cur hb).le
          exact getConsensusParams_insert hparams.hash (lt_of_le_of_lt hle hlt) hp
    | reopen fs c₁ hf =>
        have hfresh : RecordsInv (fresh c.db c.ourPeerPubkey c.trace fs).db := hrec
        exact hfresh.finality hf
  rcases hend with ⟨hstop, _⟩ | ⟨v, hv⟩
  · rw [hstop]
    exact hrec₁
  · exact hv.recordsInv hblock hbounded hrec₁

omit [DecidableEq S] in
theorem init_recordsInv {params : ConsensusParams D} {k : Option PeerPubkey}
    {pinned : Option (BlockRound × D)} {c : Consensus D S}
    (h : init params Db.empty k pinned = .ok c) : RecordsInv c.db := by
  have hinv := init_chainInv h
  obtain ⟨c₁, v, hsame, hv⟩ := init_closed h
  have hnone : ∀ r j w, ¬ c.db.getVoteBlock r j = some w := by
    intro r j w hw
    rw [(init_votes h r j).1] at hw
    cases hw
  refine ⟨?_, fun r i w hw => absurd hw (hnone r i w),
    fun r i w hw => absurd hw (hnone r i w), ?_, ?_⟩
  · obtain ⟨p, hp, hlen, _⟩ := hv.idle
    exact ⟨p, hp, hlen⟩
  · intro r b hb
    rcases hv.notarized_cases hb with hold | ⟨_, _, hp, _⟩
    · rw [hsame.notarized] at hold
      cases hold
    · rw [hsame.proposals] at hp
      cases hp
  · intro b hb
    rw [hv.proposals_eq, hsame.proposals] at hb
    cases hb

/-- In every run that takes no block of the last round number, what is recorded
with the notarized blocks is complete. -/
theorem complete_of_belowLast [CollisionFree D] {params : ConsensusParams D}
    {k : Option PeerPubkey} {pinned : Option (BlockRound × D)}
    {c : Consensus D S} {ops : List (ConsensusOp D S)}
    (hinit : init params Db.empty k pinned = .ok c)
    (hops : Trail.Guarded step BelowLast c ops) : Complete (c.run ops).db := by
  have hinv := Trail.Guarded.invariant
    (I := fun c : Consensus D S =>
      BoundedInv c.db ∧ ParamsInv c ∧ RecordsInv c.db)
    (fun c op ⟨hbounded, hparams, hrec⟩ hg =>
      ⟨step_boundedInv c op hbounded hg,
        step_paramsInv c op hbounded.toRoundInv hparams,
        step_recordsInv c op hg hbounded hparams hrec⟩)
    ⟨(init_chainInv hinit).toBoundedInv, init_paramsInv hinit,
      init_recordsInv hinit⟩ hops
  obtain ⟨hbounded, _, hrec⟩ := hinv
  refine ⟨hrec.notarized, fun b hb => (hrec.proposal b hb).resolve_right ?_⟩
  intro hsome
  obtain ⟨b', hb'⟩ := Option.isSome_iff_exists.mp hsome
  exact lt_irrefl _ (hbounded.lt_cur hb')

end Runs

/-! ## Two blocks of the last round -/

section LastRound

/-- A vote for another block comes in before the proposal and is dropped. -/
def voteBeforeProposalOps : List (ConsensusOp ListDigest PlainSig) :=
  let first := pairBlock none 0 [0]
  [.vote 0 (.vote (signedBy 10 (pairBlock none 0 [7]))),
   .vote 1 (.proposal (signedBy 11 first) [0]), .vote 0 (.vote (signedBy 10 first))]

theorem complete_of_voteBeforeProposal : ∃ c : Consensus ListDigest PlainSig,
    init (plainParams [10, 11]) Db.empty (some 10) none = .ok c ∧
      Complete (c.run voteBeforeProposalOps).db := by
  have hrun : (init (plainParams [10, 11]) (Db.empty : Db ListDigest PlainSig)
      (some 10) none).Returns fun c =>
        Trail.Guarded step BelowLast c voteBeforeProposalOps := by
    decide +kernel
  obtain ⟨c, hinit, hops⟩ := Outcome.returns_iff.mp hrun
  exact ⟨c, hinit, complete_of_belowLast hinit hops⟩

/-- A notarized block of the last round number there is. -/
def lastBlock (payload : BlockPayloadRaw) :
    WaitNotarizedBlockResponse ListDigest PlainSig :=
  ⟨notarizedBy [10, 11] [0, 1] (pairBlock none BlockRound.MAX payload), payload⟩

/-- The second block finds the first one in its place and leaves it there, but the
votes stored are those for the second. -/
theorem last_round_mixes_records :
    ¬ ∀ (c : Consensus ListDigest PlainSig)
        (ops : List (ConsensusOp ListDigest PlainSig)),
      init (plainParams [10, 11]) Db.empty (some 10) none = .ok c →
      (∀ op ∈ ops, op.IsMessage) → Complete (c.run ops).db := by
  intro h
  have hrun : (init (plainParams [10, 11]) (Db.empty : Db ListDigest PlainSig)
      (some 10) none).Returns fun c =>
        let db := (c.run [.notarized (lastBlock [0]), .notarized (lastBlock [1])]).db
        db.consBlocksNotarized.get? BlockRound.MAX =
            some (lastBlock [0]).block.inner ∧
          db.getVoteBlock BlockRound.MAX 0 =
            some (signedBy 10 (lastBlock [1]).block.inner) := by decide +kernel
  obtain ⟨c, hinit, hblock, hvote⟩ := Outcome.returns_iff.mp hrun
  have hcomplete := h c [.notarized (lastBlock [0]), .notarized (lastBlock [1])]
    hinit (by simp [ConsensusOp.IsMessage])
  obtain ⟨p, hp⟩ := hcomplete.notarized _ _ hblock
  exact absurd (hp.votes 0 _ hvote).1 (by decide +kernel)

end LastRound

end Consensus

end Bfte
