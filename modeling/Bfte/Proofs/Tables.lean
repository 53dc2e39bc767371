import Bfte.Consensus.Getters

/-!
# What the database functions do

One lemma per reader that can fail and per writer that scans, in terms of
`get?`. The vote tables are keyed by round and peer in lexicographic order, so
a range between two keys of one round holds the votes of that round and nothing
else, and a vote table read a round at a time lists each peer once.
-/

namespace Bfte

theorem voteKey_lt {r r' : BlockRound} {i i' : PeerIdx} :
    voteKey r i < voteKey r' i' ↔ r < r' ∨ r = r' ∧ i < i' :=
  Prod.Lex.toLex_lt_toLex

theorem voteKey_le {r r' : BlockRound} {i i' : PeerIdx} :
    voteKey r i ≤ voteKey r' i' ↔ r < r' ∨ r = r' ∧ i ≤ i' :=
  Prod.Lex.toLex_le_toLex

theorem voteKey_inj {r r' : BlockRound} {i i' : PeerIdx} :
    voteKey r i = voteKey r' i' ↔ r = r' ∧ i = i' := by
  unfold voteKey
  rw [toLex_inj, Prod.mk.injEq]

/-- A slot holds the vote that was put there, or the one it held. -/
theorem get?_insert_voteKey {V : Type} {t : SortedTable VoteKey V} {r r' : BlockRound}
    {i j : PeerIdx} {v w : V}
    (h : (t.insert (voteKey r i) v).get? (voteKey r' j) = some w) :
    (r' = r ∧ j = i ∧ w = v) ∨ t.get? (voteKey r' j) = some w := by
  rcases SortedTable.get?_insert_eq_some h with ⟨heq, hw⟩ | hold
  · obtain ⟨hr, hj⟩ := voteKey_inj.mp heq
    exact Or.inl ⟨hr, hj, hw⟩
  · exact Or.inr hold

/-! ## The votes of a round -/

section VotesAt

variable {V : Type}

theorem mem_votesAt {t : SortedTable VoteKey V} {r : BlockRound} {i : PeerIdx}
    {v : V} :
    (i, v) ∈ votesAt t r ↔ t.get? (voteKey r i) = some v ∧ i ≤ PeerIdx.MAX := by
  unfold votesAt
  rw [List.mem_map]
  constructor
  · rintro ⟨⟨k, v'⟩, hmem, heq⟩
    obtain ⟨hget, hlo, hhi⟩ := SortedTable.mem_range.mp hmem
    cases heq
    obtain ⟨r', i'⟩ := k
    have hlo' := voteKey_le.mp hlo
    have hhi' := voteKey_le.mp hhi
    have hr : r' = r := by lia
    have hi : i' ≤ PeerIdx.MAX := by lia
    subst hr
    exact ⟨hget, hi⟩
  · rintro ⟨hget, hi⟩
    refine ⟨(voteKey r i, v), SortedTable.mem_range.mpr ⟨hget, ?_, ?_⟩, rfl⟩
    · exact voteKey_le.mpr (Or.inr ⟨rfl, Nat.zero_le i⟩)
    · exact voteKey_le.mpr (Or.inr ⟨rfl, hi⟩)

/-- The votes of a round are listed in the order of the peers. -/
theorem votesAt_sorted (t : SortedTable VoteKey V) (r : BlockRound) :
    SortedTable.Sorted (votesAt t r) := by
  unfold votesAt
  have hsorted := t.range_sorted (voteKey r 0) (voteKey r PeerIdx.MAX)
  refine List.pairwise_map.mpr (hsorted.imp_of_mem fun {a b} ha hb hab => ?_)
  have hra := SortedTable.mem_range.mp ha
  have hrb := SortedTable.mem_range.mp hb
  obtain ⟨⟨ra, ia⟩, va⟩ := a
  obtain ⟨⟨rb, ib⟩, vb⟩ := b
  have ha1 := voteKey_le.mp hra.2.1
  have ha2 := voteKey_le.mp hra.2.2
  have hb1 := voteKey_le.mp hrb.2.1
  have hb2 := voteKey_le.mp hrb.2.2
  have hlt := voteKey_lt.mp hab
  show ia < ib
  lia

/-- A peer has one vote per round. -/
theorem votesAt_nodup (t : SortedTable VoteKey V) (r : BlockRound) :
    ((votesAt t r).map Prod.fst).Nodup :=
  List.pairwise_map.mpr ((votesAt_sorted t r).imp fun hlt => ne_of_lt hlt)

end VotesAt

namespace Db

variable {D S : Type} [LinearOrder D] {db : Db D S}

/-! ## Readers -/

theorem getConsensusParamsOpt_eq_ok {ε : Type} {r : BlockRound}
    {o : Option (ConsensusParams D)} :
    (db.getConsensusParamsOpt r : Outcome ε _) = .ok o ↔
      (db.consParamsSchedule.lastUpTo r = none ∧ o = none) ∨
      ∃ e p, db.consParamsSchedule.lastUpTo r = some e ∧
        db.consParams.get? e.2 = some p ∧ o = some p := by
  unfold getConsensusParamsOpt
  cases hl : db.consParamsSchedule.lastUpTo r with
  | none =>
      constructor
      · intro h
        injection h with h
        exact Or.inl ⟨rfl, h.symm⟩
      · rintro (⟨_, rfl⟩ | ⟨e, p, he, _⟩)
        · rfl
        · cases he
  | some e =>
      simp only [Outcome.bind_eq_ok, Outcome.expect_eq_ok, Outcome.pure_eq_ok]
      constructor
      · rintro ⟨p, hp, rfl⟩
        exact Or.inr ⟨e, p, rfl, hp, rfl⟩
      · rintro (⟨h, _⟩ | ⟨e', p, he, hp, rfl⟩)
        · cases h
        · cases he
          exact ⟨p, hp, rfl⟩

theorem getConsensusParams_eq_ok {ε : Type} {r : BlockRound}
    {p : ConsensusParams D} :
    (db.getConsensusParams r : Outcome ε _) = .ok p ↔
      ∃ e, db.consParamsSchedule.lastUpTo r = some e ∧
        db.consParams.get? e.2 = some p := by
  simp only [getConsensusParams, Outcome.bind_eq_ok, Outcome.expect_eq_ok,
    getConsensusParamsOpt_eq_ok]
  constructor
  · rintro ⟨o, ⟨_, rfl⟩ | ⟨e, p', he, hp, rfl⟩, hsome⟩
    · cases hsome
    · cases hsome
      exact ⟨e, he, hp⟩
  · rintro ⟨e, he, hp⟩
    exact ⟨some p, Or.inr ⟨e, p, he, hp, rfl⟩, rfl⟩

/-- Looking params up does not depend on what else may fail. -/
theorem getConsensusParams_cast {ε ε' : Type} {r : BlockRound}
    {p : ConsensusParams D} (h : (db.getConsensusParams r : Outcome ε _) = .ok p) :
    (db.getConsensusParams r : Outcome ε' _) = .ok p :=
  getConsensusParams_eq_ok.mpr (getConsensusParams_eq_ok.mp h)

theorem getConsensusParams_unique {ε ε' : Type} {r : BlockRound}
    {p p' : ConsensusParams D}
    (h : (db.getConsensusParams r : Outcome ε _) = .ok p)
    (h' : (db.getConsensusParams r : Outcome ε' _) = .ok p') : p = p' :=
  Except.ok.inj (h.symm.trans (getConsensusParams_cast h'))

theorem getProposal_eq_ok {ε : Type} {r : BlockRound}
    {o : Option (BlockHeader D)} :
    (db.getProposal r : Outcome ε _) = .ok o ↔
      db.consBlocksProposals.get? r = o ∧ ∀ p ∈ o, p.round = r := by
  unfold getProposal
  split
  · next v h =>
      simp only [h, Outcome.bind_eq_ok, Outcome.assertThat_eq_ok,
        Outcome.pure_eq_ok]
      constructor
      · rintro ⟨_, hr, rfl⟩
        refine ⟨rfl, fun p hp => ?_⟩
        cases hp
        exact hr
      · rintro ⟨rfl, hall⟩
        exact ⟨(), hall v rfl, rfl⟩
  · next h =>
      constructor
      · intro ho
        injection ho with ho
        subst ho
        exact ⟨h, fun p hp => by cases hp⟩
      · rintro ⟨ho, _⟩
        rw [h] at ho
        rw [ho]

theorem getPrevNotarizedBlock_eq_below (r : BlockRound) :
    db.getPrevNotarizedBlock r = (db.consBlocksNotarized.lastBelow r).map Prod.snd :=
  rfl

/-! ## Writers -/

theorem get?_retainVotesFor {r : BlockRound} {b : BlockHeader D} {r' : BlockRound}
    {i : PeerIdx} {v : SignedVote D S} :
    (db.retainVotesFor r b).consVotesBlock.get? (voteKey r' i) = some v ↔
      db.consVotesBlock.get? (voteKey r' i) = some v ∧
        (r' = r → i < PeerIdx.MAX → v.inner = b) := by
  unfold retainVotesFor
  rw [SortedTable.get?_retainIn_eq_some, decide_eq_true_eq, voteKey_le, voteKey_lt]
  refine and_congr_right fun _ => ⟨fun h hr hi => ?_, fun h h1 h2 => ?_⟩
  · exact h (by lia) (by lia)
  · exact h (by lia) (by lia)

/-- The votes of the other rounds are all retained. -/
theorem get?_retainVotesFor_of_ne {r r' : BlockRound} (hne : r' ≠ r)
    {b : BlockHeader D} {i : PeerIdx} :
    (db.retainVotesFor r b).consVotesBlock.get? (voteKey r' i) =
      db.consVotesBlock.get? (voteKey r' i) := by
  refine Option.ext fun v => ?_
  refine get?_retainVotesFor.trans (and_iff_left fun heq => ?_)
  exact absurd heq hne

theorem get?_pruneDummyVotes {r r' : BlockRound} {i : PeerIdx} {sig : S} :
    (db.pruneDummyVotes r).consVotesDummy.get? (voteKey r' i) = some sig ↔
      db.consVotesDummy.get? (voteKey r' i) = some sig ∧ r ≤ r' := by
  unfold pruneDummyVotes
  rw [SortedTable.get?_retainIn_eq_some, voteKey_le, voteKey_lt]
  refine and_congr_right fun _ => ⟨fun h => ?_, fun h h1 h2 => ?_⟩
  · by_contra hlt
    exact absurd (h (by lia) (by lia)) (by simp)
  · lia

theorem insertBlockProposal_eq_ok {ε : Type} {r : BlockRound} {b : BlockHeader D}
    {payload : BlockPayloadRaw} {res : Db D S × InsertOutcome (BlockHeader D)} :
    (db.insertBlockProposal r b payload : Outcome ε _) = .ok res ↔ b.round = r ∧
      ((∃ e, db.consBlocksProposals.get? r = some e ∧
          res = (db, .alreadyPresent e)) ∨
        (db.consBlocksProposals.get? r = none ∧
          res = (db.storeProposal r b payload, .inserted))) := by
  simp only [insertBlockProposal, Outcome.bind_eq_ok, Outcome.assertThat_eq_ok,
    exists_const]
  refine and_congr_right fun _ => ?_
  cases db.consBlocksProposals.get? r with
  | some e => simp only [Outcome.pure_eq_ok]; grind
  | none => simp only [Outcome.pure_eq_ok]; grind

variable [Hashing D]

/-- Params written to an empty database are those of every round. -/
theorem getConsensusParams_initial {ε : Type} (params : ConsensusParams D)
    (r : BlockRound) :
    (((empty : Db D S).insertConsensusParams 0 params).1.getConsensusParams r :
      Outcome ε _) = .ok params := by
  refine getConsensusParams_eq_ok.mpr ⟨(0, Hashing.paramsHash params), ?_, ?_⟩
  · refine SortedTable.lastUpTo_eq_some.mpr
      ⟨SortedTable.get?_insert_self _ _ _, Nat.zero_le r, fun k v hv _ => ?_⟩
    have hget : (SortedTable.empty.insert 0 (Hashing.paramsHash params)).get? k =
      some v := hv
    rw [SortedTable.get?_insert] at hget
    split at hget
    · next heq => exact le_of_eq heq
    · cases hget
  · exact SortedTable.get?_insert_self _ _ _

theorem insertNotarizedBlock_eq_ok {ε : Type} {r : BlockRound} {b : BlockHeader D}
    {payload : Option BlockPayloadRaw}
    {res : Db D S × InsertOutcome (BlockHeader D)} :
    (db.insertNotarizedBlock r b payload : Outcome ε _) = .ok res ↔
      b.round = r ∧ b.isDummy = false ∧
      ((∃ e, db.consBlocksNotarized.get? r = some e ∧
          res = (db, .alreadyPresent e)) ∨
        (db.consBlocksNotarized.get? r = none ∧
          res = (db.storeNotarized r b payload, .inserted))) := by
  simp only [insertNotarizedBlock, Outcome.bind_eq_ok, Outcome.assertThat_eq_ok,
    exists_const]
  refine and_congr_right fun _ => and_congr_right fun _ => ?_
  cases db.consBlocksNotarized.get? r with
  | some e => simp only [Outcome.pure_eq_ok]; grind
  | none => simp only [Outcome.pure_eq_ok]; grind

end Db

namespace Consensus

variable {D S : Type} [LinearOrder D] [Hashing D]

/-- What a request for a notarized block is answered with. -/
inductive Answer (db : Db D S) (req : WaitNotarizedBlockRequest) :
    WaitNotarizedBlockResponse D S → Prop
  | block (block : BlockHeader D) (payload : BlockPayloadRaw)
      (hnext : db.getNextNotarizedBlock req.minNotarizedRound = some block)
      (hpayload : db.getBlockPayload block.payloadHash = some payload) :
      Answer db req ⟨notarized block (db.getVotesProposal block.round), payload⟩
  | dummy (params : ConsensusParams D)
      (hnext : db.getNextNotarizedBlock req.minNotarizedRound = none)
      (hparams : (db.getConsensusParams req.curRound : Outcome Empty _) =
        .ok params)
      (hlen : params.peers.len ≤ 255)
      (hvotes : (NumPeers.mk params.peers.len).threshold ≤
        (db.getVotesDummy req.curRound).length) :
      Answer db req ⟨notarized (.newDummy req.curRound params)
        (db.getVotesDummy req.curRound), BlockPayloadRaw.empty⟩

theorem getNotarizedBlockResp_ok {db : Db D S} {req : WaitNotarizedBlockRequest}
    {resp : WaitNotarizedBlockResponse D S}
    (h : (getNotarizedBlockResp db req : Outcome Empty _) = .ok (some resp)) :
    Answer db req resp := by
  unfold getNotarizedBlockResp at h
  split at h
  · next block hnext =>
      simp only [Outcome.bind_eq_ok, Outcome.expect_eq_ok, Outcome.pure_eq_ok,
        Option.some.injEq] at h
      obtain ⟨payload, hpayload, rfl⟩ := h
      exact .block block payload hnext hpayload
  · next hnext =>
      simp only [Outcome.bind_eq_ok, ConsensusParams.numPeers_eq_ok] at h
      obtain ⟨params, hparams, _, ⟨hlen, rfl⟩, h⟩ := h
      split at h
      · next hvotes =>
          cases h
          exact .dummy params hnext hparams hlen hvotes
      · cases h

end Consensus

end Bfte
