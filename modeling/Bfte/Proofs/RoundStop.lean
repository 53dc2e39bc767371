import Mathlib.Order.Bounds.Basic
import Bfte.Proofs.Records
import Bfte.Proofs.RoundReach

/-!
# Where the round check stops

`check_round_end` goes on from the round it is started in until nothing that is stored
ends the round it is in: no notarized block of this round or a later one, not enough
votes for its proposal, not enough dummy votes. It reads all this from a database it
writes to at the same time. What it writes are the proposals with enough votes, into
the table of notarized blocks, and that changes nothing for a later round. So it can be
said in terms of the database it started with where it stops, and what it notarized.

It comes to its end from any database with rows the code could have written and with
params that have peers: a pin may not match, or the rounds may run out, but no other
error and no other panic is possible. A notarized block of the last round number must
not be among the rows. The check looks for the highest block below that number, so it
stops in a round that such a block is above.
-/

namespace Bfte

namespace Consensus

variable {D S : Type} [LinearOrder D]

/-! ## A round that nothing ends -/

/-- The number of votes that ends a round. -/
def thresholdAt (db : Db D S) (r : BlockRound) : ℕ :=
  match (db.getConsensusParams r : Outcome Empty _) with
  | .ok params => (NumPeers.mk params.peers.len).threshold
  | .error _ => 0

theorem thresholdAt_eq {ε : Type} {db : Db D S} {r : BlockRound}
    {params : ConsensusParams D}
    (h : (db.getConsensusParams r : Outcome ε _) = .ok params) :
    thresholdAt db r = (NumPeers.mk params.peers.len).threshold := by
  unfold thresholdAt
  rw [Db.getConsensusParams_cast h]

theorem SameParams.thresholdAt {db db' : Db D S} (h : SameParams db db')
    (r : BlockRound) : thresholdAt db' r = thresholdAt db r := by
  unfold Consensus.thresholdAt
  rw [h.getConsensusParams]

/-- Nothing that is stored ends the round. -/
structure Lasts (db : Db D S) (r : BlockRound) : Prop where
  above : ∀ r' b, db.consBlocksNotarized.get? r' = some b → r' < r
  proposal : (db.consBlocksProposals.get? r).isSome = true →
    db.getNumVotesProposal r < thresholdAt db r
  dummy : db.getNumVotesDummy r < thresholdAt db r

/-- The proposal of the round has enough votes, and no block of this round or a later
one is notarized. -/
structure Gains (db : Db D S) (r : BlockRound) (p : BlockHeader D) : Prop where
  above : ∀ r' b, db.consBlocksNotarized.get? r' = some b → r' < r
  proposal : db.consBlocksProposals.get? r = some p
  votes : thresholdAt db r ≤ db.getNumVotesProposal r

variable [Hashing D]

/-- What a turn of the loop needs of the round it is in. -/
structure TurnReady (db : Db D S) (r : BlockRound) : Prop where
  params : ∃ params, (db.getConsensusParams r : Outcome Empty _) = .ok params ∧
    params.peers.len ≤ 255 ∧ params.peers.len ≠ 0
  proposal : ∀ p, db.consBlocksProposals.get? r = some p →
    p.round = r ∧ p.isDummy = false

theorem TurnReady.congr {db db' : Db D S} {r : BlockRound}
    (h : TurnReady db r) (hparams : SameParams db db')
    (hprop : db'.consBlocksProposals = db.consBlocksProposals) : TurnReady db' r where
  params := by
    rw [hparams.getConsensusParams]
    exact h.params
  proposal := by
    rw [hprop]
    exact h.proposal

/-- Rows that the code could have written, no notarized block of the last round, and
params with peers in every round. -/
structure WellFiled (db : Db D S) : Prop where
  ready : ∀ r, TurnReady db r
  notarized : ∀ r b, db.consBlocksNotarized.get? r = some b → b.round = r
  belowLast : ∀ r b, db.consBlocksNotarized.get? r = some b → r < BlockRound.MAX

/-! ## One turn -/

theorem insertNotarizedBlock_returns {ε : Type} (db : Db D S) {r : BlockRound}
    {b : BlockHeader D} (payload : Option BlockPayloadRaw) (hround : b.round = r)
    (hdummy : b.isDummy = false) :
    ∃ res, (db.insertNotarizedBlock r b payload : Outcome ε _) = .ok res := by
  cases hget : db.consBlocksNotarized.get? r with
  | none =>
      exact ⟨_, Db.insertNotarizedBlock_eq_ok.mpr
        ⟨hround, hdummy, Or.inr ⟨hget, rfl⟩⟩⟩
  | some e =>
      exact ⟨_, Db.insertNotarizedBlock_eq_ok.mpr
        ⟨hround, hdummy, Or.inl ⟨e, hget, rfl⟩⟩⟩

/-- With the pin in order, a turn comes to its end. -/
theorem TurnReady.turn_returns {start : BlockRound}
    (highest : Option (BlockHeader D)) {v : RoundEnd D S}
    (h : TurnReady v.db v.curRound)
    (hpin : checkPin v.db start v.curRound = .ok ()) :
    ∃ t, roundEndTurn start highest v = .ok t := by
  obtain ⟨P, hP, hlen, hmanned⟩ := h.params
  have hparams : (v.db.getConsensusParams v.curRound :
      Outcome RoundInvariantError _) = .ok P := Db.getConsensusParams_cast hP
  have hnum : (P.numPeers : Outcome RoundInvariantError _) = .ok ⟨P.peers.len⟩ :=
    ConsensusParams.numPeers_eq_ok.mpr ⟨hlen, rfl⟩
  have hprop : (v.db.getProposal v.curRound : Outcome RoundInvariantError _) =
      .ok (v.db.consBlocksProposals.get? v.curRound) :=
    Db.getProposal_eq_ok.mpr ⟨rfl, fun p hp => (h.proposal p hp).1⟩
  have hleader : (P.leaderIdx v.curRound : Outcome RoundInvariantError _) =
      .ok (Hashing.roundHash D v.curRound % P.peers.len) :=
    ConsensusParams.leaderIdx_eq_ok.mpr ⟨hlen, hmanned, rfl⟩
  unfold roundEndTurn
  rw [Outcome.bind_of_ok hpin]
  split
  · exact ⟨_, rfl⟩
  · rw [Outcome.bind_of_ok hparams, Outcome.bind_of_ok hnum,
      Outcome.bind_of_ok hprop]
    split
    · next hvoted =>
        obtain ⟨p, hp⟩ := Option.isSome_iff_exists.mp hvoted.1
        obtain ⟨hround, hdummy⟩ := h.proposal p hp
        obtain ⟨res, hres⟩ := insertNotarizedBlock_returns
          (ε := RoundInvariantError) v.db none hround hdummy
        rw [Outcome.bind_of_ok (Outcome.expect_eq_ok.mpr hp),
          Outcome.bind_of_ok hres]
        exact ⟨_, rfl⟩
    · split
      · exact ⟨_, rfl⟩
      · rw [Outcome.bind_of_ok hleader]
        exact ⟨_, rfl⟩

/-- The round just left is pinned, and its block is not the one of the pin. -/
def Mispinned (db : Db D S) (start r : BlockRound) : Prop :=
  start ≠ r ∧ ∃ hash, db.consBlocksPinned.get? (r - 1) = some hash ∧
    ∀ b, db.consBlocksNotarized.get? (r - 1) = some b → Hashing.blockHash b ≠ hash

theorem checkPin_outcome (db : Db D S) (start r : BlockRound) :
    checkPin db start r = .ok () ∨
      (checkPin db start r = .error (.err .pinnedMismatch) ∧ Mispinned db start r) := by
  unfold checkPin
  split
  · exact Or.inl rfl
  · next hleft =>
      split
      · next hash hpin =>
          by_cases heq : some hash = (db.getNotarizedBlock (r - 1)).map Hashing.blockHash
          · exact Or.inl (Outcome.ensure_of heq)
          · refine Or.inr ⟨if_neg heq, hleft, hash, hpin, fun b hb hhash => heq ?_⟩
            unfold Db.getNotarizedBlock
            rw [hb, ← hhash]
            rfl
      · exact Or.inl rfl

/-- The ways a turn can end that is ready. -/
theorem TurnReady.turn_outcome (start : BlockRound) (highest : Option (BlockHeader D))
    {v : RoundEnd D S} (h : TurnReady v.db v.curRound) :
    (∃ t, roundEndTurn start highest v = .ok t) ∨
      (roundEndTurn start highest v = .error (.err .pinnedMismatch) ∧
        Mispinned v.db start v.curRound) := by
  rcases checkPin_outcome v.db start v.curRound with hpin | ⟨hpin, hmiss⟩
  · exact Or.inl (h.turn_returns highest hpin)
  · refine Or.inr ⟨?_, hmiss⟩
    unfold roundEndTurn
    rw [hpin]
    rfl

/-! ## The loop, in terms of the database it started with -/

/-- Where the loop is, started on `db` in `start`. -/
structure Passing (db : Db D S) (start : BlockRound) (v : RoundEnd D S) : Prop where
  start_le : start ≤ v.curRound
  cur_le : v.curRound ≤ BlockRound.MAX
  passed : ∀ r, start ≤ r → r < v.curRound → ¬ Lasts db r
  proposals : v.db.consBlocksProposals = db.consBlocksProposals
  params : SameParams db v.db
  dummy : v.db.consVotesDummy = db.consVotesDummy
  current : v.db.consCurrentRound = db.consCurrentRound
  pinned : v.db.consBlocksPinned = db.consBlocksPinned
  votes : ∀ r, v.curRound ≤ r → v.db.getNumVotesProposal r = db.getNumVotesProposal r
  notarized : ∀ r b, v.db.consBlocksNotarized.get? r = some b ↔
    db.consBlocksNotarized.get? r = some b ∨
      (start ≤ r ∧ r < v.curRound ∧ Gains db r b)
  last_lt : ∀ last ∈ v.newLastNotarizedRound, last < v.curRound

section Loop

variable {db : Db D S} {start : BlockRound} {v v' : RoundEnd D S}

omit [Hashing D] in
theorem passing_start (hstart : start ≤ BlockRound.MAX) :
    Passing db start ⟨db, start, none⟩ where
  start_le := le_rfl
  cur_le := hstart
  passed r hle hlt := absurd hlt (not_lt.mpr hle)
  proposals := rfl
  params := .refl db
  dummy := rfl
  current := rfl
  pinned := rfl
  votes _ _ := rfl
  notarized r b := by
    refine (or_iff_left ?_).symm
    intro h
    exact absurd h.2.1 (not_lt.mpr h.1)
  last_lt last h := by cases h

theorem Passing.ready (h : Passing db start v) (hdb : WellFiled db) :
    TurnReady v.db v.curRound :=
  (hdb.ready v.curRound).congr h.params h.proposals

/-- The highest block that the loop knows of is the highest there is. -/
theorem WellFiled.above_iff (hdb : WellFiled db) {r : BlockRound} :
    (∀ h ∈ db.getPrevNotarizedBlock BlockRound.MAX, h.round < r) ↔
      ∀ r' b, db.consBlocksNotarized.get? r' = some b → r' < r := by
  constructor
  · intro h r' b hget
    obtain ⟨b', hb', hle⟩ := notarized_le_highest hdb.notarized hget
      (hdb.belowLast r' b hget)
    exact lt_of_le_of_lt hle (h b' hb')
  · intro h b hb
    have hget := (getPrevNotarizedBlock_eq_some hdb.notarized).mp hb
    exact h b.round b hget.1

omit [Hashing D] in
/-- The loop counts the votes of the round it is in against the threshold of that
round, as they were when it started. -/
theorem Passing.counts (h : Passing db start v) {params : ConsensusParams D}
    (hparams : v.db.getConsensusParams v.curRound =
      (.ok params : Outcome RoundInvariantError _)) :
    (NumPeers.mk params.peers.len).threshold = thresholdAt db v.curRound ∧
      v.db.getNumVotesProposal v.curRound = db.getNumVotesProposal v.curRound ∧
      v.db.getNumVotesDummy v.curRound = db.getNumVotesDummy v.curRound := by
  refine ⟨?_, h.votes v.curRound le_rfl, ?_⟩
  · rw [← h.params.thresholdAt]
    exact (thresholdAt_eq hparams).symm
  · unfold Db.getNumVotesDummy
    rw [h.dummy]

/-- The round that a turn leaves does not last. -/
theorem Passing.not_lasts (h : Passing db start v) (hdb : WellFiled db)
    (hturn : TurnCase start (db.getPrevNotarizedBlock BlockRound.MAX) v (.next v')) :
    ¬ Lasts db v.curRound := by
  intro hlasts
  cases hturn with
  | notarized b hb hle =>
      have hlt := hdb.above_iff.mpr hlasts.above b hb
      exact absurd hlt (not_lt.mpr hle)
  | voted params p db' o above hparams hp hvotes hdb' =>
      obtain ⟨hthreshold, hcount, _⟩ := h.counts hparams
      rw [hthreshold, hcount] at hvotes
      rw [h.proposals] at hp
      have hfew := hlasts.proposal (by rw [hp]; rfl)
      exact absurd hfew (not_lt.mpr hvotes)
  | timedOut params above hparams hvotes =>
      obtain ⟨hthreshold, _, hcount⟩ := h.counts hparams
      rw [hthreshold, hcount] at hvotes
      exact absurd hlasts.dummy (not_lt.mpr hvotes)

/-- The round a turn stays in does. -/
theorem Passing.lasts (h : Passing db start v) (hdb : WellFiled db) {b : Bool}
    (hturn : TurnCase start (db.getPrevNotarizedBlock BlockRound.MAX) v (.done b)) :
    Lasts db v.curRound := by
  cases hturn with
  | settled params _ above hparams hlen hvotes hdummy =>
      obtain ⟨hthreshold, hcount, hcountDummy⟩ := h.counts hparams
      refine ⟨hdb.above_iff.mp above, fun hsome => ?_, ?_⟩
      · rw [← hthreshold, ← hcount]
        refine hvotes ?_
        rw [h.proposals]
        exact hsome
      · rw [← hthreshold, ← hcountDummy]
        exact hdummy

omit [Hashing D] in
/-- Going on with the same tables, if the round gains no block. -/
theorem Passing.same (h : Passing db start v) (hlt : v.curRound < BlockRound.MAX)
    (hnot : ¬ Lasts db v.curRound) (hnone : ∀ b, ¬ Gains db v.curRound b)
    {last : Option BlockRound} (hlast : ∀ l ∈ last, l ≤ v.curRound) :
    Passing db start ⟨v.db, v.curRound + 1, last⟩ where
  start_le := h.start_le.trans (Nat.le_succ _)
  cur_le := hlt
  passed r hle hr := by
    rcases Nat.lt_succ_iff_lt_or_eq.mp hr with hr | rfl
    · exact h.passed r hle hr
    · exact hnot
  proposals := h.proposals
  params := h.params
  dummy := h.dummy
  current := h.current
  pinned := h.pinned
  votes r hr := h.votes r ((Nat.le_succ _).trans hr)
  notarized r b := by
    refine (h.notarized r b).trans (or_congr_right ?_)
    refine and_congr_right fun _ => ⟨fun hg => ⟨Nat.lt_succ_of_lt hg.1, hg.2⟩, ?_⟩
    intro hg
    rcases Nat.lt_succ_iff_lt_or_eq.mp hg.1 with hr | rfl
    · exact ⟨hr, hg.2⟩
    · exact absurd hg.2 (hnone b)
  last_lt l hl := Nat.lt_succ_of_le (hlast l hl)

omit [Hashing D] in
/-- Storing a block of the round leaves the votes of later rounds. -/
theorem getNumVotesProposal_storeNotarized {r r' : BlockRound} {p : BlockHeader D}
    (hne : r' ≠ r) :
    (db.storeNotarized r p none).getNumVotesProposal r' = db.getNumVotesProposal r' := by
  have hget : ∀ i, (db.storeNotarized r p none).consVotesBlock.get? (voteKey r' i) =
      db.consVotesBlock.get? (voteKey r' i) :=
    fun _ => Db.get?_retainVotesFor_of_ne hne
  exact le_antisymm (votesAt_length_le fun i hi => hget i ▸ hi)
    (votesAt_length_le fun i hi => (hget i).symm ▸ hi)

omit [Hashing D] in
/-- Going on with the proposal of the round notarized. -/
theorem Passing.gained (h : Passing db start v) (hlt : v.curRound < BlockRound.MAX)
    (hnot : ¬ Lasts db v.curRound) {p : BlockHeader D} (hp : Gains db v.curRound p) :
    Passing db start ⟨v.db.storeNotarized v.curRound p none, v.curRound + 1,
      some v.curRound⟩ where
  start_le := h.start_le.trans (Nat.le_succ _)
  cur_le := hlt
  passed r hle hr := by
    rcases Nat.lt_succ_iff_lt_or_eq.mp hr with hr | rfl
    · exact h.passed r hle hr
    · exact hnot
  proposals := h.proposals
  params := ⟨h.params.schedule, h.params.params⟩
  dummy := h.dummy
  current := h.current
  pinned := h.pinned
  votes r hr := by
    rw [getNumVotesProposal_storeNotarized (Nat.ne_of_gt hr)]
    exact h.votes r ((Nat.le_succ _).trans hr)
  notarized r b := by
    show (v.db.consBlocksNotarized.insert v.curRound p).get? r = some b ↔ _
    rw [SortedTable.get?_insert]
    by_cases hr : r = v.curRound
    · subst hr
      rw [if_pos rfl, Option.some.injEq]
      have hfree : db.consBlocksNotarized.get? v.curRound ≠ some b := fun hget =>
        absurd (hp.above _ b hget) (lt_irrefl _)
      rw [or_iff_right hfree]
      constructor
      · rintro rfl
        exact ⟨h.start_le, Nat.lt_succ_self _, hp⟩
      · intro hg
        have heq := hg.2.2.proposal.symm.trans hp.proposal
        exact (Option.some.inj heq).symm
    · rw [if_neg hr, h.notarized]
      refine or_congr_right (and_congr_right fun _ => and_congr_left fun _ => ?_)
      refine ⟨Nat.lt_succ_of_lt, fun hlt' => ?_⟩
      exact lt_of_le_of_ne (Nat.le_of_lt_succ hlt') hr
  last_lt l hl := by
    cases hl
    exact Nat.lt_succ_self _

theorem Passing.next (h : Passing db start v) (hdb : WellFiled db)
    (hlt : v.curRound < BlockRound.MAX)
    (hturn : TurnCase start (db.getPrevNotarizedBlock BlockRound.MAX) v (.next v')) :
    Passing db start v'.next := by
  have hnot := h.not_lasts hdb hturn
  cases hturn with
  | notarized b hb hle =>
      refine h.same hlt hnot (fun p hp => ?_) fun l hl => ?_
      · have hhighest := hdb.above_iff.mpr hp.above b hb
        exact absurd hhighest (not_lt.mpr hle)
      · cases hl
        exact le_rfl
  | voted params p db' o above hparams hp hvotes hdb' =>
      obtain ⟨hthreshold, hcount, _⟩ := h.counts hparams
      rw [hthreshold, hcount] at hvotes
      rw [h.proposals] at hp
      have hgains : Gains db v.curRound p := ⟨hdb.above_iff.mp above, hp, hvotes⟩
      obtain ⟨_, _, hins⟩ := Db.insertNotarizedBlock_eq_ok.mp hdb'
      rcases hins with ⟨e, he, _⟩ | ⟨_, hres⟩
      · rcases (h.notarized _ e).mp he with hget | hgained
        · exact absurd (hgains.above _ e hget) (lt_irrefl _)
        · exact absurd hgained.2.1 (lt_irrefl _)
      · cases hres
        exact h.gained hlt hnot hgains
  | timedOut params above hparams hvotes hproposal =>
      obtain ⟨hthreshold, hcount, _⟩ := h.counts hparams
      rw [hthreshold, hcount, h.proposals] at hproposal
      refine h.same hlt hnot (fun p hp => ?_) fun l hl => (h.last_lt l hl).le
      have hfew := hproposal (by rw [hp.proposal]; rfl)
      exact absurd hfew (not_lt.mpr hp.votes)

/-- A pin on a round that is passed, which neither a block stored for the round nor
one it gains has the hash of. -/
structure Misses (db : Db D S) (start r : BlockRound) (hash : D) : Prop where
  start_le : start ≤ r
  passed : ∀ r', start ≤ r' → r' ≤ r → ¬ Lasts db r'
  pinned : db.consBlocksPinned.get? r = some hash
  differs : ∀ b, db.consBlocksNotarized.get? r = some b ∨ Gains db r b →
    Hashing.blockHash b ≠ hash

theorem Passing.misses (h : Passing db start v) (hmiss : Mispinned v.db start v.curRound) :
    ∃ r hash, Misses db start r hash := by
  obtain ⟨hleft, hash, hpin, hdiffers⟩ := hmiss
  have hlt : start < v.curRound := lt_of_le_of_ne h.start_le hleft
  have hpred : v.curRound - 1 < v.curRound := Nat.sub_one_lt_of_lt hlt
  have hle : start ≤ v.curRound - 1 := Nat.le_sub_one_of_lt hlt
  rw [h.pinned] at hpin
  refine ⟨v.curRound - 1, hash, hle, ?_, hpin, ?_⟩
  · intro r' hr hle'
    exact h.passed r' hr (lt_of_le_of_lt hle' hpred)
  · intro b hb
    refine hdiffers b ((h.notarized _ b).mpr (hb.imp_right fun hg => ?_))
    exact ⟨hle, hpred, hg⟩

/-- How the loop can end: where a round lasts, at a pin, or when no round does and
there are no more. -/
inductive LoopOutcome (db : Db D S) (start : BlockRound) :
    Outcome RoundInvariantError (RoundEnd D S × Bool) → Prop
  | stopped (v : RoundEnd D S) (b : Bool) (h : Passing db start v)
      (hlasts : Lasts db v.curRound) : LoopOutcome db start (.ok (v, b))
  | pinnedMismatch (r : BlockRound) (hash : D) (h : Misses db start r hash) :
      LoopOutcome db start (.error (.err .pinnedMismatch))
  | outOfRounds (h : ∀ r, start ≤ r → r ≤ BlockRound.MAX → ¬ Lasts db r) :
      LoopOutcome db start (.error (.panic "Can't run out of u64 rounds"))

theorem Passing.loop_outcome (hdb : WellFiled db) {left : ℕ} (h : Passing db start v)
    (hleft : v.curRound + left = BlockRound.MAX) :
    LoopOutcome db start
      (roundEndLoop start (db.getPrevNotarizedBlock BlockRound.MAX) left v) := by
  induction left generalizing v with
  | zero =>
      unfold roundEndLoop
      rcases (h.ready hdb).turn_outcome start _ with ⟨t, ht⟩ | ⟨ht, hmiss⟩
      · have hturn := (roundEndTurn_cases ht).2
        rw [Outcome.bind_of_ok ht]
        cases t with
        | done b => exact .stopped v b h (h.lasts hdb hturn)
        | next v' =>
            refine .outOfRounds fun r hle hr => ?_
            rcases lt_or_eq_of_le hr with hr | rfl
            · exact h.passed r hle (lt_of_lt_of_eq hr hleft.symm)
            · have hlast := h.not_lasts hdb hturn
              rw [show v.curRound = BlockRound.MAX from hleft] at hlast
              exact hlast
      · obtain ⟨r, hash, hr⟩ := h.misses hmiss
        rw [ht]
        exact .pinnedMismatch r hash hr
  | succ left ih =>
      unfold roundEndLoop
      rcases (h.ready hdb).turn_outcome start _ with ⟨t, ht⟩ | ⟨ht, hmiss⟩
      · have hturn := (roundEndTurn_cases ht).2
        rw [Outcome.bind_of_ok ht]
        cases t with
        | done b => exact .stopped v b h (h.lasts hdb hturn)
        | next v' =>
            have hcur : v'.curRound = v.curRound := hturn.next_db.1
            refine ih (h.next hdb (by lia) hturn) ?_
            show v'.curRound + 1 + left = BlockRound.MAX
            lia
      · obtain ⟨r, hash, hr⟩ := h.misses hmiss
        rw [ht]
        exact .pinnedMismatch r hash hr

end Loop

/-! ## The whole of `check_round_end` -/

omit [Hashing D] in
/-- With params of peers that can be counted, the own finality vote is published. -/
theorem updateFinalitySelfVote_returns {c : Consensus D S} {r : BlockRound}
    {last : Option BlockRound} {P : ConsensusParams D}
    (hparams : (c.db.getConsensusParams r : Outcome RoundInvariantError _) = .ok P)
    (hlen : P.peers.len ≤ 255) (hpos : P.peers.len ≠ 0)
    (hlast : ∀ l ∈ last, l < BlockRound.MAX) :
    ∃ c', c.updateFinalitySelfVote r last = .ok c' := by
  cases last with
  | none => exact ⟨c, rfl⟩
  | some l =>
      have hnext : (BlockRound.nextExpect l : Outcome RoundInvariantError _) =
          .ok (l + 1) := BlockRound.nextExpect_eq_ok.mpr ⟨hlast l rfl, rfl⟩
      unfold updateFinalitySelfVote
      dsimp only
      rw [Outcome.bind_of_ok hnext]
      split
      · exact ⟨_, rfl⟩
      · unfold updatePeerFinalityVoteRound
        dsimp only
        split
        · exact ⟨_, rfl⟩
        · exact recalculateFinalityConsensusTx_returns hparams hlen hpos

/-- The check returns if its loop stops in a round with params that have peers. -/
theorem checkRoundEnd_returns {c : Consensus D S} {start : BlockRound}
    {v : RoundEnd D S} {b : Bool}
    (hloop : roundEndLoop start (c.db.getPrevNotarizedBlock BlockRound.MAX)
      (BlockRound.MAX - start) ⟨c.db, start, none⟩ = .ok (v, b))
    (hready : TurnReady v.db v.curRound)
    (hlast : ∀ l ∈ v.newLastNotarizedRound, l < BlockRound.MAX) :
    ∃ c', c.checkRoundEnd start = .ok c' := by
  obtain ⟨P, hP, hlen, hpos⟩ := hready.params
  have hsame : SameParams v.db (advanceRound v.db start v.curRound) := by
    unfold advanceRound
    split <;> exact ⟨rfl, rfl⟩
  have hparams : ((advanceRound v.db start v.curRound).getConsensusParams v.curRound :
      Outcome RoundInvariantError _) = .ok P := by
    rw [hsame.getConsensusParams]
    exact Db.getConsensusParams_cast hP
  obtain ⟨c₁, hself⟩ := updateFinalitySelfVote_returns
    (c := { c with db := advanceRound v.db start v.curRound }) hparams hlen hpos hlast
  unfold checkRoundEnd
  rw [Outcome.bind_of_ok hloop]
  dsimp only
  rw [Outcome.bind_of_ok hself]
  split
  · exact ⟨_, rfl⟩
  · exact ⟨_, rfl⟩

/-- Where the check has stopped: in the first round that lasts, with the blocks of the
rounds it passed that had the votes. -/
structure Stopped (c : Consensus D S) (start r : BlockRound) (c' : Consensus D S) :
    Prop where
  least : IsLeast {r | start ≤ r ∧ Lasts c.db r} r
  stored : c'.db.consCurrentRound =
    if start = r then c.db.consCurrentRound else some r
  round : c.db.getCurrentRound = start → c'.db.getCurrentRound = r
  notarized : ∀ r' b, c'.db.consBlocksNotarized.get? r' = some b ↔
    c.db.consBlocksNotarized.get? r' = some b ∨
      (start ≤ r' ∧ r' < r ∧ Gains c.db r' b)

/-- How the check can end. -/
inductive CheckOutcome (c : Consensus D S) (start : BlockRound) :
    Outcome RoundInvariantError (Consensus D S) → Prop
  | stopped (c' : Consensus D S) (r : BlockRound) (h : Stopped c start r c') :
      CheckOutcome c start (.ok c')
  | pinnedMismatch (r : BlockRound) (hash : D) (h : Misses c.db start r hash) :
      CheckOutcome c start (.error (.err .pinnedMismatch))
  | outOfRounds (h : ∀ r, start ≤ r → r ≤ BlockRound.MAX → ¬ Lasts c.db r) :
      CheckOutcome c start (.error (.panic "Can't run out of u64 rounds"))

omit [Hashing D] in
theorem Passing.stopped {c c' : Consensus D S} {start : BlockRound} {v : RoundEnd D S}
    (h : Passing c.db start v) (hlasts : Lasts c.db v.curRound)
    (hended : RoundEnded c start v c') : Stopped c start v.curRound c' where
  least := by
    refine ⟨⟨h.start_le, hlasts⟩, fun r hr => ?_⟩
    exact not_lt.mp fun hlt => h.passed r hr.1 hlt hr.2
  stored := by rw [hended.cur, h.current]
  round := by
    intro hcur
    unfold Db.getCurrentRound at hcur ⊢
    rw [hended.cur, h.current]
    split
    · next heq => rw [hcur, heq]
    · rfl
  notarized r b := by
    rw [hended.db]
    exact h.notarized r b

/-- From any database with rows the code could have written, none of them a notarized
block of the last round, and with params that have peers, the check comes to its end:
in the first round that nothing ends, at a pin, or past the last round. -/
theorem checkRoundEnd_outcome (c : Consensus D S) (start : BlockRound)
    (hdb : WellFiled c.db) (hstart : start < BlockRound.MAX) :
    CheckOutcome c start (c.checkRoundEnd start) := by
  have hloop := (passing_start hstart.le : Passing c.db start ⟨c.db, start, none⟩)
    |>.loop_outcome hdb (Nat.add_sub_cancel' hstart.le)
  generalize hres : roundEndLoop start (c.db.getPrevNotarizedBlock BlockRound.MAX)
    (BlockRound.MAX - start) ⟨c.db, start, none⟩ = res at hloop
  cases hloop with
  | stopped v b h hlasts =>
      obtain ⟨c', hc'⟩ := checkRoundEnd_returns hres (h.ready hdb)
        fun l hl => lt_of_lt_of_le (h.last_lt l hl) h.cur_le
      obtain ⟨v', b', hres', hended⟩ := checkRoundEnd_ok hc'
      rw [hres] at hres'
      cases hres'
      rw [hc']
      exact .stopped c' v.curRound (h.stopped hlasts hended)
  | pinnedMismatch r hash hmiss =>
      unfold checkRoundEnd
      dsimp only
      rw [hres]
      exact .pinnedMismatch r hash hmiss
  | outOfRounds hnone =>
      unfold checkRoundEnd
      dsimp only
      rw [hres]
      exact .outOfRounds hnone

/-! ## On concrete databases -/

theorem wellFiled_initial (params : ConsensusParams D) (hlen : params.peers.len ≤ 255)
    (hpos : params.peers.len ≠ 0) :
    WellFiled ((Db.empty : Db D S).insertConsensusParams 0 params).1 where
  ready r := ⟨⟨params, Db.getConsensusParams_initial params r, hlen, hpos⟩,
    fun _ hp => by cases hp⟩
  notarized _ _ hb := by cases hb
  belowLast _ _ hb := by cases hb

/-- A consensus of two peers that nothing has happened in yet. -/
def twoPeers : Consensus ListDigest PlainSig :=
  fresh ((Db.empty : Db ListDigest PlainSig).insertConsensusParams 0
    (plainParams [10, 11])).1 none Trace.empty 0

theorem checkRoundEnd_outcome_twoPeers :
    CheckOutcome twoPeers 0 (twoPeers.checkRoundEnd 0) :=
  checkRoundEnd_outcome twoPeers 0
    (wellFiled_initial (plainParams [10, 11]) (by decide) (by decide))
    (by decide)

/-- With a block of the last round stored, a check that returns has stopped too early:
no round is above that block. -/
theorem not_checkOutcome_of_last {c c' : Consensus D S} {b : BlockHeader D}
    (hinv : BlockInv c.db)
    (hlast : c.db.consBlocksNotarized.get? BlockRound.MAX = some b)
    (hok : c.checkRoundEnd c.db.getCurrentRound = .ok c') :
    ¬ CheckOutcome c c.db.getCurrentRound (c.checkRoundEnd c.db.getCurrentRound) := by
  obtain ⟨v, hv⟩ := checkRoundEnd_closed hinv hok
  have hle : c'.db.getCurrentRound ≤ BlockRound.MAX := by
    rw [hv.curRound]
    exact hv.loop.cur_le
  rw [hok]
  intro houtcome
  cases houtcome with
  | stopped _ r h =>
      have habove := h.least.1.2.above _ b hlast
      rw [← h.round rfl] at habove
      exact absurd hle (not_le.mpr habove)

/-- Two peers take a block of the last round in round 0. The check does not see it and
stops in round 0 again. -/
theorem checkRoundEnd_overlooks_last :
    ¬ ∀ (c : Consensus ListDigest PlainSig)
        (ops : List (ConsensusOp ListDigest PlainSig)) (start : BlockRound),
      init (plainParams [10, 11]) Db.empty (some 10) none = .ok c →
      (∀ op ∈ ops, op.IsMessage) → start < BlockRound.MAX →
      CheckOutcome (c.run ops) start ((c.run ops).checkRoundEnd start) := by
  intro h
  have hrun : (init (plainParams [10, 11]) (Db.empty : Db ListDigest PlainSig)
      (some 10) none).Returns fun c =>
        let c := c.run [.notarized (lastBlock [0])]
        c.db.getCurrentRound = 0 ∧
          c.db.consBlocksNotarized.get? BlockRound.MAX =
            some (lastBlock [0]).block.inner ∧
          (c.checkRoundEnd 0).Returns fun _ => True := by decide +kernel
  obtain ⟨c, hinit, hcur, hblock, hcheck⟩ := Outcome.returns_iff.mp hrun
  obtain ⟨c', hok, _⟩ := Outcome.returns_iff.mp hcheck
  have hinv : BlockInv (c.run [.notarized (lastBlock [0])]).db :=
    (step_roundInv c (.notarized (lastBlock [0])) (init_roundInv hinit)).toBlockInv
  have houtcome := h c [.notarized (lastBlock [0])] 0 hinit
    (by simp [ConsensusOp.IsMessage]) (by decide)
  rw [← hcur] at hok houtcome
  exact not_checkOutcome_of_last hinv hblock hok houtcome

end Consensus

end Bfte
