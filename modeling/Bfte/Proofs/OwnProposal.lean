import Bfte.Proofs.Equivocation
import Bfte.Proofs.GenuineBlocks
import Bfte.Proofs.Pins

/-!
# A proposal that the leader builds is accepted

The leader builds a header in `generate_proposal` and everyone, the leader included,
checks it in `process_vote_response`: what it says of its payload and of the params, that
it extends the latest notarized block, that it is not a dummy and that the leader has
signed it. Both sides take the params and the latest block from their database, so where
these agree the header fits, whatever the block before it is and however little there is
to propose: even an empty list of citems takes a byte.

The length of a payload is a `u32`, and beyond that the leader panics while it builds.

The round check at the end may find that the round is over. Then the next round is
entered, and that needs a next round, and params for it. A peer that is alone comes to the
last round by its own proposals, and there its proposal ends the round.
-/

namespace Bfte

namespace Consensus

variable {D S α : Type} [LinearOrder D] [Hashing D]

/-! ## The header -/

omit [LinearOrder D] in
/-- A header with something in its payload is not taken for a dummy. -/
theorem isDummy_build [LinearOrder D] {prev : Option (BlockHeader D)} {now : Timestamp}
    {round : BlockRound} {params : ConsensusParams D} {payload : BlockPayloadRaw}
    (h : payload ≠ []) :
    (BlockHeader.build prev now round params payload).isDummy = false := by
  refine decide_eq_false ?_
  rintro ⟨_, _, _, hlen⟩
  exact h (List.eq_nil_of_length_eq_zero hlen)

/-- With params for the round, a header is built on the latest block before it. -/
theorem generateProposal_eq {ε : Type} {c : Consensus D S} {round : BlockRound}
    {params : ConsensusParams D} (encode : α → List UInt8) (citems : List α)
    (now : Timestamp) (h : (c.db.getConsensusParams round : Outcome ε _) = .ok params)
    (hlen : (BlockPayloadRaw.encodeCitems encode citems).length < 2 ^ 32) :
    (Node.generateProposal encode c round citems now : Outcome ε _) =
      .ok (.build (c.db.getPrevNotarizedBlock round) now round params
        (BlockPayloadRaw.encodeCitems encode citems),
        BlockPayloadRaw.encodeCitems encode citems) := by
  unfold Node.generateProposal Consensus.generateProposal
  rw [h]
  exact Outcome.bind_of_ok (BlockHeader.new_eq_ok.mpr ⟨hlen, rfl⟩)

/-- The header says of its content what is checked. -/
theorem fits_build {prev : Option (BlockHeader D)} {now : Timestamp}
    {round : BlockRound} {params : ConsensusParams D} {payload : BlockPayloadRaw}
    (h : payload ≠ []) : (BlockHeader.build prev now round params payload).Fits
      (Hashing.paramsHash params) (Hashing.paramsLen params) payload where
  dummy hd := by
    rw [isDummy_build h] at hd
    cases hd
  payload _ := ⟨rfl, rfl⟩
  version := rfl
  paramsHash := rfl
  paramsLen := rfl

/-! ## The round check after a proposal -/

/-- The votes that are stored end the round. -/
def VotedOut (db : Db D S) (r : BlockRound) : Prop :=
  ((db.consBlocksProposals.get? r).isSome = true ∧
    thresholdAt db r ≤ db.getNumVotesProposal r) ∨
  thresholdAt db r ≤ db.getNumVotesDummy r

/-- The round can be entered: there is such a round, and it has params with no more peers
than can be counted. -/
def Enterable (db : Db D S) (r : BlockRound) : Prop :=
  r ≤ BlockRound.MAX ∧ ∃ params, (db.getConsensusParams r : Outcome Empty _) = .ok params ∧
    params.peers.len ≤ 255

theorem TurnCase.votedOut {start : BlockRound} {highest : Option (BlockHeader D)}
    {v v' : RoundEnd D S} (h : TurnCase start highest v (.next v'))
    (hhigh : ∀ b ∈ highest, b.round < v.curRound) : VotedOut v.db v.curRound := by
  cases h with
  | notarized b hb hle => exact absurd (hhigh b hb) (not_lt.mpr hle)
  | voted params p db' o above hparams hp hvotes hdb' =>
      refine Or.inl ⟨by rw [hp]; rfl, ?_⟩
      rw [thresholdAt_eq hparams]
      exact hvotes
  | timedOut params above hparams hvotes =>
      refine Or.inr ?_
      rw [thresholdAt_eq hparams]
      exact hvotes

/-- The last round that is notarized is the one that the turn leaves, if it is new. -/
theorem TurnCase.last_mem {start : BlockRound} {highest : Option (BlockHeader D)}
    {v v' : RoundEnd D S} (h : TurnCase start highest v (.next v')) :
    ∀ l ∈ v'.newLastNotarizedRound, l = v.curRound ∨ l ∈ v.newLastNotarizedRound := by
  intro l hl
  cases h with
  | notarized => exact Or.inl (Option.some.inj hl).symm
  | voted => exact Or.inl (Option.some.inj hl).symm
  | timedOut => exact Or.inr hl

/-- Nobody has proposed or given up in the round. -/
structure Untouched (db : Db D S) (r : BlockRound) : Prop where
  proposal : db.consBlocksProposals.get? r = none
  dummies : db.getNumVotesDummy r = 0

omit [Hashing D] in
theorem Untouched.not_votedOut {db : Db D S} {r : BlockRound} (h : Untouched db r)
    {params : ConsensusParams D} {ε : Type}
    (hparams : (db.getConsensusParams r : Outcome ε _) = .ok params)
    (hpos : params.peers.len ≠ 0) : ¬ VotedOut db r := by
  rintro (⟨hsome, _⟩ | henough)
  · rw [h.proposal] at hsome
    cases hsome
  · rw [thresholdAt_eq hparams, h.dummies] at henough
    exact absurd (NumPeers.threshold_pos hpos) (not_lt.mpr henough)

omit [Hashing D] in
theorem Untouched.congr {db db' : Db D S} {r : BlockRound} (h : Untouched db r)
    (hprops : db'.consBlocksProposals = db.consBlocksProposals)
    (hdummy : db'.consVotesDummy = db.consVotesDummy) : Untouched db' r where
  proposal := by
    rw [hprops]
    exact h.proposal
  dummies := by
    unfold Db.getNumVotesDummy
    rw [hdummy]
    exact h.dummies

/-- The loop ends at once in a round that nothing ends. -/
theorem roundEndLoop_of_done {start : BlockRound} {highest : Option (BlockHeader D)}
    {v : RoundEnd D S} {b : Bool} (h : roundEndTurn start highest v = .ok (.done b))
    (left : ℕ) : roundEndLoop start highest left v = .ok (v, b) := by
  cases left <;> exact Outcome.bind_of_ok h

/-- In a round where nothing has happened yet the turn is the last one. -/
theorem Untouched.turn_done (start : BlockRound) (highest : Option (BlockHeader D))
    {v : RoundEnd D S} (h : Untouched v.db v.curRound) (hready : TurnReady v.db v.curRound)
    (hhigh : ∀ b ∈ highest, b.round < v.curRound)
    (hpin : checkPin v.db start v.curRound = .ok ()) :
    ∃ b, roundEndTurn start highest v = .ok (.done b) := by
  obtain ⟨t, ht⟩ := hready.turn_returns highest hpin
  cases t with
  | done b => exact ⟨b, ht⟩
  | next v' =>
      obtain ⟨params, hparams, _, hpos⟩ := hready.params
      have hvoted := (roundEndTurn_cases ht).2.votedOut hhigh
      exact absurd hvoted (h.not_votedOut hparams hpos)

omit [Hashing D] in
theorem checkPin_of_unpinned [Hashing D] {db : Db D S}
    (h : ∀ r, db.getPinnedBlock r = none) (start r : BlockRound) :
    checkPin db start r = .ok () := by
  unfold checkPin
  split
  · rfl
  · rw [h]

/-- The round check goes to the next round at most, where nothing has happened yet. -/
theorem checkRoundEnd_returns_of_enterable {c : Consensus D S} {start : BlockRound}
    (hhigh : ∀ b ∈ c.db.getPrevNotarizedBlock BlockRound.MAX, b.round < start)
    (hpins : ∀ r, c.db.getPinnedBlock r = none) (hready : TurnReady c.db start)
    (hpeers : ∀ params, (c.db.getConsensusParams (start + 1) : Outcome Empty _) =
      .ok params → params.peers.len ≠ 0)
    (hnext : VotedOut c.db start → Enterable c.db (start + 1))
    (huntouched : Untouched c.db (start + 1)) :
    ∃ c', c.checkRoundEnd start = .ok c' := by
  obtain ⟨t, ht⟩ := hready.turn_returns (v := ⟨c.db, start, none⟩)
    (c.db.getPrevNotarizedBlock BlockRound.MAX) (if_pos rfl)
  have hturn := (roundEndTurn_cases ht).2
  cases t with
  | done b =>
      exact checkRoundEnd_returns (roundEndLoop_of_done ht _) hready nofun
  | next v =>
      obtain ⟨hmax, params, hparams, hlen⟩ := hnext (hturn.votedOut hhigh)
      obtain ⟨hcur, hsame, hprops, hdummy⟩ := hturn.next_db
      have hcur' : v.next.curRound = start + 1 := congrArg (· + 1) hcur
      have hready' : TurnReady v.next.db v.next.curRound := by
        rw [hcur']
        refine TurnReady.congr ⟨⟨params, hparams, hlen, hpeers params hparams⟩, ?_⟩
          hsame hprops
        intro p hp
        rw [huntouched.proposal] at hp
        cases hp
      have huntouched' : Untouched v.next.db v.next.curRound := by
        rw [hcur']
        exact huntouched.congr hprops hdummy
      have hpins' : ∀ r, v.next.db.getPinnedBlock r = none := by
        intro r
        show v.db.consBlocksPinned.get? r = none
        rw [hturn.keeps.1]
        exact hpins r
      obtain ⟨b, hdone⟩ := huntouched'.turn_done start
        (c.db.getPrevNotarizedBlock BlockRound.MAX) hready'
        (fun b hb => hcur'.symm ▸ Nat.lt_succ_of_lt (hhigh b hb))
        (checkPin_of_unpinned hpins' _ _)
      have hloop : roundEndLoop start (c.db.getPrevNotarizedBlock BlockRound.MAX)
          (BlockRound.MAX - start) ⟨c.db, start, none⟩ = .ok (v.next, b) := by
        obtain ⟨left, hleft⟩ := Nat.exists_eq_add_of_le' (Nat.sub_pos_of_lt hmax)
        rw [hleft]
        exact (Outcome.bind_of_ok ht).trans (roundEndLoop_of_done hdone left)
      refine checkRoundEnd_returns hloop hready' fun l hl => ?_
      rcases hturn.last_mem l hl with rfl | hnone
      · exact hmax
      · cases hnone

/-- A round that the votes end is left for the next one, which can be entered. -/
theorem checkRoundEnd_enters {c c' : Consensus D S} (hinv : RoundInv c.db)
    (hmanned : Manned c.db) (hvoted : VotedOut c.db c.db.getCurrentRound)
    (hok : c.checkRoundEnd c.db.getCurrentRound = .ok c') :
    c'.db.getCurrentRound = c.db.getCurrentRound + 1 ∧
      Enterable c.db (c.db.getCurrentRound + 1) := by
  obtain ⟨v, hv⟩ := checkRoundEnd_closed hinv.toBlockInv hok
  have hle : c'.db.getCurrentRound ≤ c.db.getCurrentRound + 1 := by
    rcases checkRoundEnd_reach hinv.toBlockInv hmanned hok with hle | ⟨b, hb, hle⟩
    · exact hle
    · exact hle.trans (Nat.succ_le_succ (highest_lt hinv hb).le)
  have hne : c'.db.getCurrentRound ≠ c.db.getCurrentRound := by
    intro hstill
    have hdb := hv.db_eq_of_still hstill
    have hcur : v.curRound = c.db.getCurrentRound := hv.curRound.symm.trans hstill
    obtain ⟨b, hdone⟩ := hv.settled
    cases hdone with
    | settled params _ _ hparams _ hvotes hdummy =>
        rw [hdb, hcur] at hparams hvotes hdummy
        rw [← thresholdAt_eq hparams] at hvotes hdummy
        rcases hvoted with ⟨hsome, henough⟩ | henough
        · exact absurd (hvotes hsome) (not_lt.mpr henough)
        · exact absurd hdummy (not_lt.mpr henough)
  have hnext : c'.db.getCurrentRound = c.db.getCurrentRound + 1 :=
    le_antisymm hle (Nat.lt_of_le_of_ne hv.cur_le hne.symm)
  obtain ⟨params, hparams, hlen, _⟩ := hv.idle
  rw [hv.sameParams.getConsensusParams, hnext] at hparams
  have hmax := (hv.roundInv hinv.toBlockInv).cur_le
  rw [hnext] at hmax
  exact ⟨hnext, hmax, params, hparams, hlen⟩

/-! ## What is checked of a proposal -/

section Checks

variable [Signing D S]

/-- The tables with the proposal and the vote of the leader that comes with it. -/
def withProposal (db : Db D S) (i : PeerIdx) (block : Signed D S)
    (payload : BlockPayloadRaw) : Db D S :=
  ((db.storeProposal db.getCurrentRound block.inner payload).insertBlockVote
    db.getCurrentRound i block).1

/-- A peer that waits for what peer `i` proposes for its current round: the round has
params, nothing from that peer is stored, and nothing is pinned. -/
structure Awaits (db : Db D S) (params : ConsensusParams D) (i : PeerIdx) : Prop where
  scheduled : (db.getConsensusParams db.getCurrentRound : Outcome Empty _) = .ok params
  proposal : db.consBlocksProposals.get? db.getCurrentRound = none
  vote : db.getVoteBlock db.getCurrentRound i = none
  pins : ∀ r, db.getPinnedBlock r = none

omit [Signing D S] in
/-- With its proposal stored, the vote of the leader goes in. -/
theorem insertVote_new {db : Db D S} {i : PeerIdx} {block : Signed D S}
    (params : ConsensusParams D) (payload : BlockPayloadRaw)
    (hround : block.inner.round = db.getCurrentRound)
    (hdummy : block.inner.isDummy = false)
    (hvote : db.getVoteBlock db.getCurrentRound i = none) :
    insertVote (db.storeProposal db.getCurrentRound block.inner payload)
      db.getCurrentRound params i block =
        .ok (withProposal db i block payload, .inserted) := by
  have hget : (db.storeProposal db.getCurrentRound block.inner
      payload).consBlocksProposals.get? db.getCurrentRound = some block.inner :=
    SortedTable.get?_insert_self _ _ _
  have hproposal : ((db.storeProposal db.getCurrentRound block.inner payload).getProposal
      db.getCurrentRound : Outcome (ProcessVoteError D S) _) = .ok (some block.inner) := by
    refine Db.getProposal_eq_ok.mpr ⟨hget, ?_⟩
    rintro p ⟨⟩
    exact hround
  have hfree : (db.storeProposal db.getCurrentRound block.inner payload).getVoteBlock
      db.getCurrentRound i = none := by
    rw [Option.eq_none_iff_forall_ne_some]
    intro w hw
    have hold := (Db.get?_retainVotesFor.mp hw).1
    have hnone : db.consVotesBlock.get? (voteKey db.getCurrentRound i) = none := hvote
    exact absurd (hnone.symm.trans hold) nofun
  have hsame : ∀ p ∈ some block.inner, p = block.inner :=
    fun p hp => (Option.some.inj hp).symm
  unfold insertVote
  rw [if_neg (ne_true_of_eq_false hdummy), Outcome.bind_of_ok hproposal,
    Outcome.bind_of_ok (Outcome.ensure_of hsame)]
  unfold Db.insertBlockVote
  rw [hfree]
  rfl

variable [DecidableEq S]

/-- A proposal that passes all checks is stored, and the round check runs. -/
theorem processVoteResponseTx_new {c : Consensus D S} {params : ConsensusParams D}
    {i : PeerIdx} {block : Signed D S} {payload : BlockPayloadRaw} {db : Db D S}
    (hawaits : Awaits c.db params i)
    (hleader : (params.leaderIdx c.db.getCurrentRound : Outcome Empty _) = .ok i)
    (hin : VoteIntake c.db params i (.proposal block payload) db) :
    c.processVoteResponseTx i (.proposal block payload) =
      (checkRoundEnd { c with db := db } c.db.getCurrentRound).mapErr .roundInvariant := by
  cases hin with
  | proposal _ _ hround hsig hdummy _ hfits hext hnone =>
      have hchecked : checkProposal c.db c.db.getCurrentRound params i block.inner payload =
          .ok () := by
        simp only [checkProposal, Outcome.bind_eq_ok, Outcome.ensure_eq_ok,
          Outcome.mapErr_eq_ok, BlockHeader.verifyWithContent_eq_ok,
          ConsensusParams.leaderIdx_eq_ok]
        exact ⟨i, ConsensusParams.leaderIdx_eq_ok.mp hleader, (), rfl, (), hdummy,
          (), hfits, hext⟩
      have hstored : (c.db.insertBlockProposal c.db.getCurrentRound block.inner payload :
          Outcome (ProcessVoteError D S) _) =
            .ok (c.db.storeProposal c.db.getCurrentRound block.inner payload, .inserted) :=
        Db.insertBlockProposal_eq_ok.mpr ⟨hround, Or.inr ⟨hnone, rfl⟩⟩
      have hverified : (block.verifySigPeerIdx i params.peers).orRaise
          (.invalidSignature : ProcessVoteError D S) = .ok () :=
        Outcome.orRaise_eq_ok.mpr (Signed.verifySigPeerIdx_eq_ok.mpr hsig)
      have hcounted := insertVote_new params payload hround hdummy hawaits.vote
      refine (Outcome.bind_of_ok (Outcome.ensure_of hround)).trans ?_
      rw [Outcome.bind_of_ok (Db.getConsensusParams_cast hawaits.scheduled)]
      dsimp only
      rw [Outcome.bind_of_ok hchecked, Outcome.bind_of_ok hstored]
      unfold countVoteTx
      dsimp only
      rw [Outcome.bind_of_ok hverified, Outcome.bind_of_ok hcounted]
      rfl

/-- The call takes the proposal. -/
def Accepts (c : Consensus D S) (i : PeerIdx) (block : Signed D S)
    (payload : BlockPayloadRaw) : Prop :=
  ∃ c', c.processVoteResponseTx i (.proposal block payload) = .ok c' ∧
    c'.db.consBlocksProposals.get? block.inner.round = some block.inner

/-- If the proposal ends the round, the next round can be entered. -/
def Leavable (db : Db D S) (i : PeerIdx) (block : Signed D S)
    (payload : BlockPayloadRaw) : Prop :=
  VotedOut (withProposal db i block payload) db.getCurrentRound →
    Enterable db (db.getCurrentRound + 1)

omit [Signing D S] [DecidableEq S] in
/-- In a round to come nothing has happened yet. -/
theorem untouched_of_ahead {db : Db D S} (hinv : BlockInv db) (hd : NoDummyAhead db)
    {r : BlockRound} (hr : db.getCurrentRound < r) : Untouched db r where
  proposal := by
    rw [Option.eq_none_iff_forall_ne_some]
    intro p hp
    exact absurd (hinv.proposal r p hp).2.2 (not_le.mpr hr)
  dummies := by
    by_contra hne
    exact absurd (hd.voted_le hne) (not_le.mpr hr)

/-- A proposal that passes all checks is taken exactly if the round that it may end has a
next one. -/
theorem accepts_iff_of_intake {c : Consensus D S} {params : ConsensusParams D}
    {i : PeerIdx} {block : Signed D S} {payload : BlockPayloadRaw}
    (hinv : RoundInv c.db) (hmanned : Manned c.db) (hawaits : Awaits c.db params i)
    (hleader : (params.leaderIdx c.db.getCurrentRound : Outcome Empty _) = .ok i)
    (hin : VoteIntake c.db params i (.proposal block payload)
      (withProposal c.db i block payload)) :
    Accepts c i block payload ↔ Leavable c.db i block payload := by
  have hinv' := hin.roundInv hinv
  have hmanned' := hin.manned hmanned
  have hparams := hin.sameParams
  obtain ⟨hlen, hpos, _⟩ := ConsensusParams.leaderIdx_eq_ok.mp hleader
  constructor
  · rintro ⟨c', hok, _⟩ hvoted
    rw [processVoteResponseTx_new hawaits hleader hin, Outcome.mapErr_eq_ok] at hok
    obtain ⟨_, hmax, params', hparams', hsize⟩ := checkRoundEnd_enters
      (c := { c with db := withProposal c.db i block payload }) hinv' hmanned' hvoted hok
    refine ⟨hmax, params', ?_, hsize⟩
    rw [← hparams.getConsensusParams]
    exact hparams'
  · intro hleave
    have hready : TurnReady (withProposal c.db i block payload) c.db.getCurrentRound := by
      refine ⟨⟨params, ?_, hlen, hpos⟩, fun p hp => ?_⟩
      · rw [hparams.getConsensusParams]
        exact hawaits.scheduled
      · have hp' := hinv'.proposal _ p hp
        exact ⟨hp'.1, hp'.2.1⟩
    obtain ⟨c', hcheck⟩ := checkRoundEnd_returns_of_enterable
      (c := { c with db := withProposal c.db i block payload })
      (fun b hb => highest_lt hinv' hb) hawaits.pins hready
      (fun params' hparams' => hmanned'.peers_of_params hparams')
      (fun hvoted => by
        obtain ⟨hmax, params', hparams', hsize⟩ := hleave hvoted
        refine ⟨hmax, params', ?_, hsize⟩
        rw [hparams.getConsensusParams]
        exact hparams')
      (untouched_of_ahead hinv'.toBlockInv hmanned'.dummies (Nat.lt_succ_self _))
    have hok : c.processVoteResponseTx i (.proposal block payload) = .ok c' := by
      rw [processVoteResponseTx_new hawaits hleader hin]
      exact Outcome.mapErr_eq_ok.mpr hcheck
    exact ⟨c', hok, processVoteResponseTx_proposal hinv hok⟩

/-! ## The proposal of a leader -/

/-- Params change to a peer set that is not empty: `consensus-ctrl` never removes the last
peer. -/
def Peopled : ConsensusOp D S → Prop
  | .paramsChange _ _ s => s.len ≠ 0
  | _ => True

/-- A state that a consensus reaches, whatever it is told. -/
def Reached (c : Consensus D S) : Prop :=
  ∃ (params : ConsensusParams D) (k : Option PeerPubkey)
    (pinned : Option (BlockRound × D)) (c₀ : Consensus D S) (ops : List (ConsensusOp D S)),
    init params Db.empty k pinned = .ok c₀ ∧ (∀ op ∈ ops, Peopled op) ∧ c = c₀.run ops

theorem step_manned {c : Consensus D S} {op : ConsensusOp D S} (hround : RoundInv c.db)
    (hmanned : Manned c.db) (hop : Peopled op) : Manned (c.step op).db := by
  cases op with
  | paramsChange r t s =>
      show Manned (c.commit (c.consensusParamsChangeTx r t s : Outcome Empty _)).db
      cases hok : (c.consensusParamsChangeTx r t s : Outcome Empty _) with
      | ok c' => exact hmanned.paramsChange hop hok
      | error => exact hmanned
  | vote i resp => exact (step_moved c (.vote i resp) hround hmanned nofun).manned
  | notarized resp => exact (step_moved c (.notarized resp) hround hmanned nofun).manned
  | finality k resp => exact (step_moved c (.finality k resp) hround hmanned nofun).manned
  | reopen => exact (step_moved c .reopen hround hmanned nofun).manned

theorem Reached.inv {c : Consensus D S} (h : Reached c) :
    RoundInv c.db ∧ Manned c.db := by
  obtain ⟨params, k, pinned, c₀, ops, hinit, hops, rfl⟩ := h
  have hguarded : Trail.Guarded Consensus.step (fun _ op => Peopled op) c₀ ops :=
    .of_forall fun op hop _ => hops op hop
  exact hguarded.invariant (I := fun c : Consensus D S => RoundInv c.db ∧ Manned c.db)
    (fun c op hc hop => ⟨step_roundInv c op hc.1, step_manned hc.1 hc.2 hop⟩)
    ⟨init_roundInv hinit, init_manned hinit⟩

theorem Reached.step {c : Consensus D S} (h : Reached c) {op : ConsensusOp D S}
    (hop : Peopled op) : Reached (c.step op) := by
  obtain ⟨params, k, pinned, c₀, ops, hinit, hops, rfl⟩ := h
  refine ⟨params, k, pinned, c₀, ops ++ [op], hinit, fun op' hop' => ?_, ?_⟩
  · rcases List.mem_append.mp hop' with hold | hnew
    · exact hops op' hold
    · rw [List.mem_singleton.mp hnew]
      exact hop
  · show Trail.run Consensus.step (Trail.run Consensus.step c₀ ops) [op] = _
    exact (Trail.run_append c₀ ops [op]).symm

/-- The node is about to propose: it leads its current round with the index `i`. -/
structure Leads (c : Consensus D S) (params : ConsensusParams D) (key : PeerPubkey)
    (i : PeerIdx) : Prop extends Awaits c.db params i where
  own : c.ourPeerPubkey = some key
  valid : Signing.validKey D S key = true
  idx : params.findPeerIdx key = some i
  leader : (params.leaderIdx c.db.getCurrentRound : Outcome Empty _) = .ok i

/-- Another node waits for it, in the same round and after the same block. -/
structure AwaitsFrom (c other : Consensus D S) (params : ConsensusParams D)
    (i : PeerIdx) : Prop extends Awaits other.db params i where
  round : other.db.getCurrentRound = c.db.getCurrentRound
  latest : other.db.getPrevNotarizedBlock c.db.getCurrentRound =
    c.db.getPrevNotarizedBlock c.db.getCurrentRound

omit [DecidableEq S] in
/-- A proposal built on the database passes the checks made on it. -/
theorem intake_build [LawfulSigning D S] {db : Db D S} {params : ConsensusParams D}
    {key : PeerPubkey} {i : PeerIdx} {payload : BlockPayloadRaw} (now : Timestamp)
    (hinv : BlockInv db) (hnone : db.consBlocksProposals.get? db.getCurrentRound = none)
    (hvalid : Signing.validKey D S key = true) (hidx : params.findPeerIdx key = some i)
    (hleader : (params.leaderIdx db.getCurrentRound : Outcome Empty _) = .ok i)
    (hpayload : payload ≠ []) :
    let block := Node.signWith key (.build (db.getPrevNotarizedBlock db.getCurrentRound)
      now db.getCurrentRound params payload)
    VoteIntake db params i (.proposal block payload)
      (withProposal db i block payload) := by
  refine .proposal _ payload rfl ?_ (isDummy_build hpayload) ?_ (fits_build hpayload) ?_ hnone
  · exact ⟨key, ConsensusParams.findPeerIdx_getElem? hidx, hvalid,
      LawfulSigning.verify_sign key _⟩
  · exact (ConsensusParams.leaderIdx_eq_ok.mp hleader).2.2
  · exact BlockHeader.build_extends fun p hp => hinv.prev_lt hp

/-- The states of a peer with one proposal of its own after another. -/
inductive ProposesAlone (encode : α → List UInt8) (key : PeerPubkey) (i : PeerIdx)
    (c₀ : Consensus D S) : Consensus D S → Prop
  | start : ProposesAlone encode key i c₀ c₀
  | propose {c : Consensus D S} {citems : List α} {now : Timestamp}
      {block : BlockHeader D} {payload : BlockPayloadRaw}
      (h : ProposesAlone encode key i c₀ c)
      (hbuilt : (Node.generateProposal encode c c.db.getCurrentRound citems now :
        Outcome Empty _) = .ok (block, payload)) :
      ProposesAlone encode key i c₀
        (c.step (.vote i (.proposal (Node.signWith key block) payload)))

/-- It leads, has voted in no round to come, and has the same params in all rounds. -/
structure LeadsAlone (c : Consensus D S) (P : ConsensusParams D) (key : PeerPubkey) :
    Prop where
  reached : Reached c
  leads : Leads c P key 0
  params : ∀ r, (c.db.getConsensusParams r : Outcome Empty _) = .ok P
  unvoted : ∀ r, c.db.getCurrentRound ≤ r → c.db.getVoteBlock r 0 = none
  alone : P.peers.len = 1

variable {c : Consensus D S} {P : ConsensusParams D} {key : PeerPubkey}

omit [DecidableEq S] in
/-- The leader's own vote is enough. -/
theorem votedOut_of_alone {block : Signed D S} {payload : BlockPayloadRaw}
    (hparams : (c.db.getConsensusParams c.db.getCurrentRound : Outcome Empty _) = .ok P)
    (halone : P.peers.len = 1) (hin : VoteIntake c.db P 0 (.proposal block payload)
      (withProposal c.db 0 block payload)) :
    VotedOut (withProposal c.db 0 block payload) c.db.getCurrentRound := by
  rw [← hin.sameParams.getConsensusParams] at hparams
  refine Or.inl ⟨?_, ?_⟩
  · show ((c.db.consBlocksProposals.insert c.db.getCurrentRound block.inner).get?
      c.db.getCurrentRound).isSome = true
    rw [SortedTable.get?_insert_self]
    rfl
  · rw [thresholdAt_eq hparams, halone]
    exact List.length_pos_of_mem
      (mem_votesAt.mpr ⟨SortedTable.get?_insert_self _ _ block, Nat.zero_le _⟩)

omit [LinearOrder D] [Hashing D] [Signing D S] [DecidableEq S] in
theorem length_encodeCitems_nil (encode : α → List UInt8) :
    (BlockPayloadRaw.encodeCitems encode []).length < 2 ^ 32 := by
  show (Bincode.encodeVarint 0 ++ []).length < 2 ^ 32
  decide

/-- A proposal of nothing, and what is checked of it. -/
theorem LeadsAlone.built [LawfulSigning D S] (h : LeadsAlone c P key)
    (encode : α → List UInt8) :
    ∃ block payload, (Node.generateProposal encode c c.db.getCurrentRound [] 0 :
        Outcome Empty _) = .ok (block, payload) ∧
      VoteIntake c.db P 0 (.proposal (Node.signWith key block) payload)
        (withProposal c.db 0 (Node.signWith key block) payload) :=
  ⟨_, _, generateProposal_eq encode [] 0 h.leads.scheduled (length_encodeCitems_nil encode),
    intake_build 0 h.reached.inv.1.toBlockInv h.leads.proposal h.leads.valid h.leads.idx
      h.leads.leader (Bincode.encodeSlice_ne_nil encode [])⟩

/-- Before the last round, its proposal brings it to the next one. -/
theorem LeadsAlone.propose [LawfulSigning D S] (h : LeadsAlone c P key)
    (encode : α → List UInt8) (hlt : c.db.getCurrentRound < BlockRound.MAX) :
    ∃ block payload, (Node.generateProposal encode c c.db.getCurrentRound [] 0 :
        Outcome Empty _) = .ok (block, payload) ∧
      LeadsAlone (c.step (.vote 0 (.proposal (Node.signWith key block) payload))) P key ∧
      (c.step (.vote 0 (.proposal (Node.signWith key block)
        payload))).db.getCurrentRound = c.db.getCurrentRound + 1 := by
  obtain ⟨hinv, hmanned⟩ := h.reached.inv
  obtain ⟨block, payload, hbuilt, hin⟩ := h.built encode
  have hinv' := hin.roundInv hinv
  have haccepts := (accepts_iff_of_intake hinv hmanned h.leads.toAwaits h.leads.leader
    hin).mpr fun _ => ⟨hlt, P, h.params _, by rw [h.alone]; decide⟩
  obtain ⟨c', hok, _⟩ := haccepts
  have hstep : c.step (.vote 0 (.proposal (Node.signWith key block) payload)) = c' := by
    show c.commit (c.processVoteResponseTx 0 _) = c'
    rw [hok]
    rfl
  rw [processVoteResponseTx_new h.leads.toAwaits h.leads.leader hin,
    Outcome.mapErr_eq_ok] at hok
  obtain ⟨hnext, _⟩ := checkRoundEnd_enters
    (c := { c with db := withProposal c.db 0 (Node.signWith key block) payload }) hinv'
    (hin.manned hmanned) (votedOut_of_alone h.leads.scheduled h.alone hin) hok
  obtain ⟨v, hv⟩ := checkRoundEnd_closed
    (c := { c with db := withProposal c.db 0 (Node.signWith key block) payload })
    hinv'.toBlockInv hok
  have hnext : c'.db.getCurrentRound = c.db.getCurrentRound + 1 := hnext
  have hparams : ∀ r, (c'.db.getConsensusParams r : Outcome Empty _) = .ok P := by
    intro r
    rw [hv.sameParams.getConsensusParams]
    exact (hin.sameParams.getConsensusParams r).trans (h.params r)
  have hunvoted : ∀ r, c'.db.getCurrentRound ≤ r → c'.db.getVoteBlock r 0 = none := by
    intro r hle
    rw [hnext] at hle
    rw [Option.eq_none_iff_forall_ne_some]
    intro w hw
    have hold : (withProposal c.db 0 (Node.signWith key block) payload).getVoteBlock r 0 =
        some w := hv.voteBlock_sub hw
    rw [hin.voteBlock_of_ne (Nat.ne_of_gt hle), h.unvoted r (Nat.le_of_succ_le hle)] at hold
    cases hold
  refine ⟨block, payload, hbuilt, ?_⟩
  have hreached : Reached c' := hstep ▸ h.reached.step trivial
  rw [hstep]
  refine ⟨⟨hreached, ⟨⟨hparams _, ?_,
    hunvoted _ le_rfl, fun r => ?_⟩, ?_, h.leads.valid, h.leads.idx, ?_⟩, hparams,
    hunvoted, h.alone⟩, hnext⟩
  · exact hv.proposal_none hinv'.toBlockInv (hnext ▸ Nat.lt_succ_self _)
  · unfold Db.getPinnedBlock
    rw [hv.pins]
    exact h.leads.pins r
  · exact hv.ended.key.trans h.leads.own
  · rw [ConsensusParams.leaderIdx_eq_ok, h.alone, Nat.mod_one]
    decide

/-- So it comes to any round there is. -/
theorem LeadsAlone.comes_to [LawfulSigning D S] {c₀ : Consensus D S}
    (h : LeadsAlone c₀ P key) (encode : α → List UInt8) {r : BlockRound}
    (hle : c₀.db.getCurrentRound ≤ r) (hr : r ≤ BlockRound.MAX) :
    ∃ c, ProposesAlone encode key 0 c₀ c ∧ LeadsAlone c P key ∧
      c.db.getCurrentRound = r := by
  induction r, hle using Nat.le_induction with
  | base => exact ⟨c₀, .start, h, rfl⟩
  | succ r hle ih =>
      obtain ⟨c, hrun, hc, rfl⟩ := ih (Nat.le_of_succ_le hr)
      obtain ⟨block, payload, hbuilt, hleads, hnext⟩ := hc.propose encode hr
      exact ⟨_, hrun.propose hbuilt, hleads, hnext⟩

/-- In the last round, its proposal is not accepted: the vote that comes with it ends the
round, and there is no next one. -/
theorem LeadsAlone.not_accepts_of_last [LawfulSigning D S] (h : LeadsAlone c P key)
    (encode : α → List UInt8) (hlast : c.db.getCurrentRound = BlockRound.MAX) :
    ∃ block payload, (Node.generateProposal encode c c.db.getCurrentRound [] 0 :
        Outcome Empty _) = .ok (block, payload) ∧
      ¬ Accepts c 0 (Node.signWith key block) payload := by
  obtain ⟨hinv, hmanned⟩ := h.reached.inv
  obtain ⟨block, payload, hbuilt, hin⟩ := h.built encode
  refine ⟨block, payload, hbuilt, fun haccepts => ?_⟩
  obtain ⟨hmax, _⟩ := (accepts_iff_of_intake hinv hmanned h.leads.toAwaits h.leads.leader
    hin).mp haccepts (votedOut_of_alone h.leads.scheduled h.alone hin)
  rw [hlast] at hmax
  exact absurd hmax (Nat.not_succ_le_self _)

end Checks

/-! ## On concrete databases -/

section Started

variable {P : ConsensusParams D} {k : Option PeerPubkey} {c : Consensus D S}

/-- A consensus that has just been started has no blocks. -/
theorem init_blocks {pinned : Option (BlockRound × D)}
    (h : init P Db.empty k pinned = .ok c) (r : BlockRound) :
    c.db.consBlocksNotarized.get? r = none ∧ c.db.consBlocksProposals.get? r = none := by
  obtain ⟨fs, c₁, _, hsame, hdb, hcheck⟩ := init_checked h
  obtain ⟨v, hv⟩ := checkRoundEnd_closed hdb hcheck
  have hprop : c₁.db.consBlocksProposals.get? r = none := by
    rw [hsame.proposals]
    rfl
  constructor
  · rw [Option.eq_none_iff_forall_ne_some]
    intro b hb
    rcases hv.notarized_cases hb with hold | ⟨_, _, hold, _⟩
    · rw [hsame.notarized] at hold
      cases hold
    · exact absurd (hprop.symm.trans hold) nofun
  · rw [hv.proposals_eq]
    exact hprop

theorem init_latest {pinned : Option (BlockRound × D)}
    (h : init P Db.empty k pinned = .ok c) (r : BlockRound) :
    c.db.getPrevNotarizedBlock r = none :=
  getPrevNotarizedBlock_eq_none.mpr fun r' b hb => by
    rw [(init_blocks h r').1] at hb
    cases hb

theorem init_awaits (h : init P Db.empty k none = .ok c) (i : PeerIdx) :
    Awaits c.db P i where
  scheduled := init_scheduled h _
  proposal := (init_blocks h _).2
  vote := (init_votes h _ i).1
  pins r := by
    unfold Db.getPinnedBlock
    rw [init_pins h]
    rfl

theorem init_enterable {pinned : Option (BlockRound × D)}
    (h : init P Db.empty k pinned = .ok c) (hlen : P.peers.len ≤ 255) :
    Enterable c.db (c.db.getCurrentRound + 1) := by
  have hle := init_cur_le h
  refine ⟨?_, P, init_scheduled h _, hlen⟩
  show c.db.getCurrentRound + 1 ≤ 2 ^ 64 - 1
  lia

theorem init_reached [Signing D S] [DecidableEq S] {pinned : Option (BlockRound × D)}
    (h : init P Db.empty k pinned = .ok c) : Reached c :=
  ⟨_, _, _, c, [], h, List.forall_mem_nil _, rfl⟩

end Started

/-- A peer that is alone proposes until it is in the last round, where its proposal is not
accepted. -/
theorem alone_comes_to_last : ∃ (c₀ c : Consensus ListDigest PlainSig)
    (block : BlockHeader ListDigest) (payload : BlockPayloadRaw),
    init (plainParams [10]) Db.empty (some 10) none = .ok c₀ ∧
      ProposesAlone (fun byte => [byte]) 10 0 c₀ c ∧ Reached c ∧
      Leads c (plainParams [10]) 10 0 ∧
      (Node.generateProposal (fun byte => [byte]) c c.db.getCurrentRound [] 0 :
        Outcome Empty _) = .ok (block, payload) ∧
      ¬ Accepts c 0 (Node.signWith 10 block) payload := by
  have hrun : (init (plainParams [10]) (Db.empty : Db ListDigest PlainSig)
      (some 10) none).Returns fun c => c.db.getCurrentRound = 0 := by decide +kernel
  obtain ⟨c₀, hinit, hcur⟩ := Outcome.returns_iff.mp hrun
  have halone : LeadsAlone c₀ (plainParams [10]) 10 :=
    ⟨init_reached hinit, ⟨init_awaits hinit 0, init_key hinit, rfl, by decide,
      by rw [hcur]; decide⟩, init_scheduled hinit, fun r _ => (init_votes hinit r 0).1, rfl⟩
  obtain ⟨c, hrun, hc, hlast⟩ := halone.comes_to (fun byte => [byte])
    (r := BlockRound.MAX) (by rw [hcur]; exact Nat.zero_le _) le_rfl
  obtain ⟨block, payload, hbuilt, hnot⟩ := hc.not_accepts_of_last (fun byte => [byte]) hlast
  exact ⟨c₀, c, block, payload, hinit, hrun, hc.reached, hc.leads, hbuilt, hnot⟩

/-- Three of four peers notarize a block of round 1 and, after the changes of params made
for it, one of round 35. The peer with key 10 has had no part in it and leads round 36. -/
def comeTo36 (changes : List PeerSet) : List (ConsensusOp ListDigest PlainSig) :=
  let first := Node.quadBlock none 1 [0]
  .notarized ⟨notarizedBy Node.quadKeys [1, 2, 3] first, [0]⟩ ::
    changes.map (.paramsChange 1 0) ++
  [.notarized ⟨notarizedBy Node.quadKeys [1, 2, 3]
    (Node.quadBlock (some first) 35 [0]), [0]⟩]

/-- What it proposes there, of no citems. -/
def proposal36 : BlockHeader ListDigest :=
  Node.quadBlock (some (Node.quadBlock (some (Node.quadBlock none 1 [0])) 35 [0])) 36 [0]

/-- Another node has the votes of two others for that block before it has the block. -/
def voteAhead : List (ConsensusOp ListDigest PlainSig) :=
  [.vote 1 (.vote (signedBy 11 proposal36)), .vote 2 (.vote (signedBy 12 proposal36))]

/-- In the first case, one peer leaves and another one joins in one block, and round 37
has no params. In the second it has more peers than can be counted. -/
def changesTo37 : List (List PeerSet) :=
  [[⟨[10, 11, 12]⟩, ⟨[10, 11, 12, 14]⟩], [⟨(List.range 256).map (10 + ·)⟩]]

theorem peopled_comeTo36 {changes : List PeerSet} (h : changes ∈ changesTo37) :
    ∀ op ∈ comeTo36 changes ++ voteAhead, Peopled op := by
  rcases List.mem_pair.mp h with rfl | rfl <;>
    simp [comeTo36, voteAhead, Peopled, PeerSet.len]

/-- What is to be looked at in a database to tell that a peer waits. -/
def Waits (db : Db ListDigest PlainSig) (params : ConsensusParams ListDigest)
    (i : PeerIdx) : Prop :=
  (db.getConsensusParams db.getCurrentRound : Outcome Empty _).Returns
      (fun p => p = params) ∧
    db.consBlocksProposals.get? db.getCurrentRound = none ∧
    db.getVoteBlock db.getCurrentRound i = none ∧ db.consBlocksPinned = .empty

instance (db : Db ListDigest PlainSig) (params : ConsensusParams ListDigest)
    (i : PeerIdx) : Decidable (Waits db params i) :=
  inferInstanceAs (Decidable (_ ∧ _ ∧ _ ∧ _))

theorem Waits.awaits {db : Db ListDigest PlainSig} {params : ConsensusParams ListDigest}
    {i : PeerIdx} (h : Waits db params i) : Awaits db params i := by
  obtain ⟨hparams, hproposal, hvote, hpins⟩ := h
  obtain ⟨_, hscheduled, rfl⟩ := Outcome.returns_iff.mp hparams
  refine ⟨hscheduled, hproposal, hvote, fun r => ?_⟩
  show db.consBlocksPinned.get? r = none
  rw [hpins]
  rfl

end Consensus

end Bfte
