import Bfte.Proofs.Chain
import Bfte.Proofs.Nodes

/-!
# What a node votes for

The rule is that a node votes only for a block that extends its latest notarized
block. The vote on a stored proposal is where it can break: the parent was
checked when the proposal was stored, and `insertVote` compares with the stored
proposal only. So a block taken late, between the two, turns a good proposal
into one the node must not vote for any more, and it still does.

`ViewInv` is what the vote relies on: a proposal stored for the current round
extends the latest notarized block, unless the own vote is in already.
-/

namespace Bfte

namespace Consensus

open Lineage (below)

variable {D S : Type} [LinearOrder D] [Hashing D]

/-! ## The block below a round -/

omit [Hashing D] in
theorem getPrevNotarizedBlock_congr {db db' : Db D S} {r : BlockRound}
    (h : ∀ r' < r, db'.consBlocksNotarized.get? r' =
      db.consBlocksNotarized.get? r') :
    db'.getPrevNotarizedBlock r = db.getPrevNotarizedBlock r :=
  Lineage.below_congr h

/-- The round check changes nothing below the round it starts in. -/
theorem Closed.prev_eq {c c' : Consensus D S} {v : RoundEnd D S}
    (h : Closed c v c') {r : BlockRound} (hr : r ≤ c.db.getCurrentRound) :
    c'.db.getPrevNotarizedBlock r = c.db.getPrevNotarizedBlock r := by
  refine getPrevNotarizedBlock_congr fun r' hr' => ?_
  rw [h.notarized_eq]
  have hn := h.loop.notarizes
  generalize v.newLastNotarizedRound = last at hn
  generalize v.db = vdb at hn
  cases hn with
  | nothing => rfl
  | received => rfl
  | voted params p =>
      show (c.db.consBlocksNotarized.insert c.db.getCurrentRound p).get? r' = _
      rw [SortedTable.get?_insert_of_ne (ne_of_lt (lt_of_lt_of_le hr' hr))]

/-- Nor anything at all, if a block is ahead of that round. -/
theorem Closed.notarized_eq_of_ahead {c c' : Consensus D S} {v : RoundEnd D S}
    (h : Closed c v c') (hinv : BlockInv c.db) {r : BlockRound}
    {b : BlockHeader D} (hb : c.db.consBlocksNotarized.get? r = some b)
    (hr : r < BlockRound.MAX) (hahead : c.db.getCurrentRound ≤ r) :
    c'.db.consBlocksNotarized = c.db.consBlocksNotarized := by
  rw [h.notarized_eq]
  have hn := h.loop.notarizes
  generalize v.newLastNotarizedRound = last at hn
  generalize v.db = vdb at hn
  cases hn with
  | nothing => rfl
  | received => rfl
  | voted params p hbelow =>
      obtain ⟨b', hb', hle⟩ := notarized_le_highest hinv.round_eq hb hr
      have := hbelow b' hb'
      lia

theorem Closed.prev_eq_of_mem {c c' : Consensus D S} {v : RoundEnd D S}
    (h : Closed c v c') (hinv : BlockInv c.db) {r : BlockRound}
    {b : BlockHeader D} (hb : c.db.consBlocksNotarized.get? r = some b)
    (hr : r < BlockRound.MAX) :
    c'.db.getPrevNotarizedBlock r = c.db.getPrevNotarizedBlock r := by
  rcases le_total r c.db.getCurrentRound with hle | hge
  · exact h.prev_eq hle
  · unfold Db.getPrevNotarizedBlock
    rw [h.notarized_eq_of_ahead hinv hb hr hge]

section Messages

variable {db db' : Db D S}

/-- Below a block that comes in later than all others is the latest of them. -/
theorem below_insert_of_later {b : BlockHeader D} (hinv : BoundedInv db)
    (hlater : ∀ latest ∈ db.getPrevNotarizedBlock db.getCurrentRound,
      latest.round < b.round) :
    below (db.consBlocksNotarized.insert b.round b) b.round =
      db.getPrevNotarizedBlock db.getCurrentRound := by
  rw [Lineage.below_congr fun j hj => SortedTable.get?_insert_of_ne (ne_of_lt hj)]
  refine Lineage.below_eq_of_above fun j b' hb' => ⟨?_, hinv.lt_cur hb'⟩
  obtain ⟨latest, hlatest, hle⟩ := hinv.le_latest hb'
  exact lt_of_le_of_lt hle (hlater latest hlatest)

/-- Below a block that takes the place of the latest is what was below that one. -/
theorem below_insert_of_replaced {b latest : BlockHeader D} (hinv : BoundedInv db)
    (hlatest : db.getPrevNotarizedBlock db.getCurrentRound = some latest)
    (hlater : latest.round < b.round) :
    below ((db.consBlocksNotarized.remove latest.round).insert b.round b) b.round =
      db.getPrevNotarizedBlock latest.round := by
  rw [Lineage.below_congr fun j hj => SortedTable.get?_insert_of_ne (ne_of_lt hj)]
  rw [Lineage.below_eq_of_gap (le_of_lt hlater) fun j b' hb' _ => ?_]
  · exact Lineage.below_congr fun j hj => by
      rw [SortedTable.get?_remove, if_neg (ne_of_lt hj)]
  · obtain ⟨hne, hold⟩ := SortedTable.get?_remove_eq_some.mp hb'
    exact lt_of_le_of_ne (hinv.le_of_latest hlatest hold) hne

/-- A block that is taken extends what is below it from then on. -/
theorem NotarizedIntake.extends_prev {resp : WaitNotarizedBlockResponse D S}
    (h : NotarizedIntake db resp db') (hinv : BoundedInv db)
    (hdummy : resp.block.inner.isDummy = false) :
    Takes db resp.block.inner ∧
      db'.consBlocksNotarized.get? resp.block.inner.round =
        some resp.block.inner ∧
      resp.block.inner.Extends
        (db'.getPrevNotarizedBlock resp.block.inner.round) := by
  cases h with
  | dummies hd => exact absurd hd (by simp [hdummy])
  | extend db₁ o hlater hext hdb =>
      obtain ⟨_, _, ⟨e, he, _⟩ | ⟨_, hres⟩⟩ :=
        Db.insertNotarizedBlock_eq_ok.mp hdb
      · rw [hinv.none_of_later hlater] at he
        cases he
      · cases hres
        have htable : ((db.storeNotarized resp.block.inner.round
            resp.block.inner (some resp.payload)).insertBlockVotes
              resp.block.inner.round resp.block.inner
                resp.block.sigs.entries).consBlocksNotarized =
            db.consBlocksNotarized.insert resp.block.inner.round
              resp.block.inner := insertBlockVotes_sameBlocks.notarized
        refine ⟨⟨hlater, Or.inl hext⟩, ?_, ?_⟩
        · rw [htable, SortedTable.get?_insert_self]
        · unfold Db.getPrevNotarizedBlock
          rw [htable]
          show resp.block.inner.Extends (below _ _)
          rw [below_insert_of_later hinv hlater]
          exact hext
  | replace latest db₁ o hlatest hlater hnot hext hdb =>
      have hrest : ∀ j b, db.consBlocksNotarized.get? j = some b →
          j ≤ latest.round := fun j b => hinv.le_of_latest hlatest
      obtain ⟨_, _, ⟨e, he, _⟩ | ⟨_, hres⟩⟩ :=
        Db.insertNotarizedBlock_eq_ok.mp hdb
      · have hget : (db.consBlocksNotarized.remove latest.round).get?
          resp.block.inner.round = some e := he
        rw [SortedTable.get?_remove, if_neg (ne_of_gt hlater)] at hget
        exact absurd (hrest _ e hget) (not_le.mpr hlater)
      · cases hres
        have htable : (((db.deleteNotarizedBlock latest.round).storeNotarized
            resp.block.inner.round resp.block.inner
              (some resp.payload)).insertBlockVotes resp.block.inner.round
                resp.block.inner resp.block.sigs.entries).consBlocksNotarized =
            (db.consBlocksNotarized.remove latest.round).insert
              resp.block.inner.round resp.block.inner :=
          insertBlockVotes_sameBlocks.notarized
        refine ⟨⟨?_, Or.inr ⟨latest, hlatest, hext⟩⟩, ?_, ?_⟩
        · intro b hb
          rw [hlatest] at hb
          cases hb
          exact hlater
        · rw [htable, SortedTable.get?_insert_self]
        · unfold Db.getPrevNotarizedBlock
          rw [htable]
          show resp.block.inner.Extends (below _ _)
          rw [below_insert_of_replaced hinv hlatest hlater]
          exact hext

end Messages

/-! ## The stored proposal -/

/-- The own vote of the current round is in. -/
def Voted (c : Consensus D S) : Prop :=
  ∃ i, Node.Sits c c.db.getCurrentRound i ∧
    (c.db.getVoteBlock c.db.getCurrentRound i).isSome = true

/-- The stored proposal extends the latest notarized block, as long as the node
has not voted for it. -/
def ViewInv (c : Consensus D S) : Prop :=
  ∀ p, c.db.consBlocksProposals.get? c.db.getCurrentRound = some p →
    Voted c ∨ p.Extends (c.db.getPrevNotarizedBlock c.db.getCurrentRound)

omit [Hashing D] in
theorem voted_iff {c : Consensus D S} :
    Voted c ↔ (Node.ourPeerIdx c).any (fun i =>
      (c.db.getVoteBlock c.db.getCurrentRound i).isSome) = true := by
  rw [Option.any_eq_true]
  exact exists_congr fun i => and_congr_left fun _ => Node.ourPeerIdx_eq_some.symm

instance (c : Consensus D S) : Decidable (Voted c) := decidable_of_iff' _ voted_iff

omit [Hashing D] in
theorem Voted.congr {c c' : Consensus D S}
    (hkey : c'.ourPeerPubkey = c.ourPeerPubkey) (hparams : SameParams c.db c'.db)
    (hcur : c'.db.getCurrentRound = c.db.getCurrentRound)
    (hvotes : ∀ i, (c.db.getVoteBlock c.db.getCurrentRound i).isSome = true →
      (c'.db.getVoteBlock c.db.getCurrentRound i).isSome = true)
    (h : Voted c) : Voted c' := by
  obtain ⟨i, hsits, hvote⟩ := h
  refine ⟨i, ?_, ?_⟩
  · rw [hcur]
    exact hsits.congr hkey hparams
  · rw [hcur]
    exact hvotes i hvote

theorem ViewInv.congr {c c' : Consensus D S}
    (hkey : c'.ourPeerPubkey = c.ourPeerPubkey) (hparams : SameParams c.db c'.db)
    (hsame : SameBlocks c.db c'.db)
    (hvotes : c'.db.consVotesBlock = c.db.consVotesBlock)
    (h : ViewInv c) : ViewInv c' := by
  intro p hp
  rw [hsame.proposals, hsame.getCurrentRound] at hp
  rcases h p hp with hvoted | hext
  · refine Or.inl (hvoted.congr hkey hparams hsame.getCurrentRound fun i hi => ?_)
    unfold Db.getVoteBlock
    rw [hvotes]
    exact hi
  · refine Or.inr ?_
    unfold Db.getPrevNotarizedBlock
    rw [hsame.notarized, hsame.getCurrentRound]
    exact hext

/-- The round check keeps it, and needs it only if the round goes on. -/
theorem Closed.viewInv {c c' : Consensus D S} {v : RoundEnd D S}
    (h : Closed c v c') (hinv : BlockInv c.db)
    (hview : ViewInv c ∨ ∃ r b, c.db.consBlocksNotarized.get? r = some b ∧
      c.db.getCurrentRound ≤ r ∧ r < BlockRound.MAX) : ViewInv c' := by
  rcases eq_or_lt_of_le h.cur_le with hstill | hmoved
  · rcases hview with hview | ⟨r, b, hb, hle, hr⟩
    · intro p hp
      rw [h.proposals_eq, ← hstill] at hp
      rcases hview p hp with hvoted | hext
      · refine Or.inl (hvoted.congr h.ended.key h.sameParams hstill.symm ?_)
        intro i hi
        unfold Db.getVoteBlock
        rw [h.voteBlock_still hstill.symm]
        exact hi
      · rw [← hstill, h.prev_eq (le_refl _)]
        exact Or.inr hext
    · have := h.moved hinv hb hr
      lia
  · intro p hp
    rw [h.proposal_none hinv hmoved] at hp
    cases hp

section Steps

variable [Signing D S]

/-- A block the code takes is not of the last round number, and if it is of a
round that was left, the node has voted on the proposal of the current one, or
there is none. -/
def TakenInTime (c : Consensus D S) (block : BlockHeader D) : Prop :=
  block.round < BlockRound.MAX ∧
    (block.round < c.db.getCurrentRound →
      c.db.consBlocksProposals.get? c.db.getCurrentRound = none ∨ Voted c)

theorem VoteIntake.viewInv {c : Consensus D S} {db : Db D S}
    {params : ConsensusParams D} {i : PeerIdx} {resp : WaitVoteResponse D S}
    (h : VoteIntake c.db params i resp db) (hview : ViewInv c) :
    ViewInv { c with db := db } := by
  intro p hp
  have hprev : db.getPrevNotarizedBlock db.getCurrentRound =
      c.db.getPrevNotarizedBlock c.db.getCurrentRound := by
    unfold Db.getPrevNotarizedBlock
    rw [h.notarized_eq, h.curRound]
  have hp' : db.consBlocksProposals.get? c.db.getCurrentRound = some p := by
    rw [← h.curRound]
    exact hp
  show Voted _ ∨ p.Extends (db.getPrevNotarizedBlock db.getCurrentRound)
  rw [hprev]
  rcases h.proposal_cases hp' with hold | ⟨_, _, _, _, hext, _⟩
  · rcases hview p hold with hvoted | hext
    · refine Or.inl (Voted.congr (c := c) rfl h.sameParams h.curRound
        (fun j hj => ?_) hvoted)
      exact h.voteBlock_keep (by rw [hold]; rfl) hj
    · exact Or.inr hext
  · exact Or.inr hext

instance (c : Consensus D S) (block : BlockHeader D) :
    Decidable (TakenInTime c block) := inferInstanceAs (Decidable (_ ∧ _))

omit [Signing D S] in
/-- After a notarized block, the proposal is as good as before, or the round is
over. -/
theorem NotarizedIntake.viewInv {c : Consensus D S} {db : Db D S}
    {resp : WaitNotarizedBlockResponse D S}
    (h : NotarizedIntake c.db resp db) (hinv : BoundedInv c.db)
    (hview : ViewInv c)
    (htime : resp.block.inner.isDummy = false → Takes c.db resp.block.inner →
      TakenInTime c resp.block.inner) :
    ViewInv { c with db := db } ∨ ∃ r b,
      db.consBlocksNotarized.get? r = some b ∧ db.getCurrentRound ≤ r ∧
        r < BlockRound.MAX := by
  cases hdummy : resp.block.inner.isDummy with
  | true =>
      cases h with
      | dummies =>
          exact Or.inl (ViewInv.congr (c := c) rfl insertDummyVotes_sameParams
            insertDummyVotes_sameBlocks insertDummyVotes_block hview)
      | extend _ _ _ _ hdb =>
          have := (Db.insertNotarizedBlock_eq_ok.mp hdb).2.1
          rw [hdummy] at this
          cases this
      | replace _ _ _ _ _ _ _ hdb =>
          have := (Db.insertNotarizedBlock_eq_ok.mp hdb).2.1
          rw [hdummy] at this
          cases this
  | false =>
      obtain ⟨htakes, hget, _⟩ := h.extends_prev hinv hdummy
      obtain ⟨hlast, hlate⟩ := htime hdummy htakes
      rcases lt_or_ge resp.block.inner.round c.db.getCurrentRound with hlt | hge
      · refine Or.inl fun p hp => ?_
        have hp' : db.consBlocksProposals.get? db.getCurrentRound = some p := hp
        rw [h.proposals_eq, h.curRound] at hp'
        rcases hlate hlt with hnone | hvoted
        · rw [hnone] at hp'
          cases hp'
        · refine Or.inl (Voted.congr (c := c) rfl h.sameParams h.curRound
            (fun i hi => ?_) hvoted)
          obtain ⟨w, hw⟩ := Option.isSome_iff_exists.mp hi
          exact Option.isSome_iff_exists.mpr
            ⟨w, h.voteBlock_keep (ne_of_gt hlt) hw⟩
      · refine Or.inr ⟨_, _, hget, ?_, hlast⟩
        rw [h.curRound]
        exact hge

variable [DecidableEq S]

/-- A notarized block that passes all checks and would be taken is taken in
time. -/
def TakesInTime (c : Consensus D S) : ConsensusOp D S → Prop
  | .notarized resp => resp.block.inner.isDummy = false →
      checkNotarized c.db resp = .ok () → Takes c.db resp.block.inner →
      TakenInTime c resp.block.inner
  | _ => True

/-- The invariant the voting rule rests on. -/
structure VotingInv (c : Consensus D S) : Prop where
  bounded : BoundedInv c.db
  params : ParamsInv c
  view : ViewInv c

theorem step_votingInv [CollisionFree D] (c : Consensus D S)
    (op : ConsensusOp D S) (hinv : VotingInv c) (hg : TakesInTime c op) :
    VotingInv (c.step op) := by
  have hparams := step_paramsInv c op hinv.bounded.toRoundInv hinv.params
  have hkey := (step_onward c op hinv.bounded.toRoundInv).key
  have hsits := fun i => @Node.Sits.step _ _ _ _ _ _ _ c op
    hinv.bounded.toRoundInv hinv.params c.db.getCurrentRound i (le_refl _)
  have hcase := step_cases c op
  generalize c.step op = c' at hcase hparams hkey hsits
  cases hcase with
  | same => exact hinv
  | vote i resp params db _ hp hin hcounted =>
      have hbounded := hin.boundedInv hinv.bounded
      have hview := hin.viewInv hinv.view
      rcases hcounted with ⟨_, rfl⟩ | ⟨_, hcheck⟩
      · exact ⟨hbounded, hparams, hview⟩
      · rw [← hin.curRound] at hcheck
        obtain ⟨v, hv⟩ := checkRoundEnd_closed hbounded.toBlockInv hcheck
        exact ⟨hv.boundedInv hbounded.toBlockInv hbounded.bounded, hparams,
          hv.viewInv hbounded.toBlockInv (Or.inl hview)⟩
  | notarized resp params db _ hok hver hin hcheck =>
      have htime := fun hd => hg hd hok
      have hblock := hin.blockInv hinv.bounded.toBlockInv
      have hlast := hin.bounded hinv.bounded fun hd ht => (htime hd ht).1
      rw [← hin.curRound] at hcheck
      obtain ⟨v, hv⟩ := checkRoundEnd_closed hblock hcheck
      exact ⟨hv.boundedInv hblock hlast, hparams,
        hv.viewInv hblock (hin.viewInv hinv.bounded hinv.view htime)⟩
  | finality k resp _ hsig hupdate =>
      have hf := updatePeerFinalityVoteRound_frame hupdate
      refine ⟨hinv.bounded.congr hf.sameBlocks, hparams,
        hinv.view.congr hkey hf.sameParams hf.sameBlocks ?_⟩
      rw [hf.db]
  | paramsChange r t peers cur new =>
      have hsame := insertConsensusParams_sameBlocks c.db new.applyRound new
      refine ⟨hinv.bounded.congr hsame, hparams, fun p hp => ?_⟩
      have hold : c.db.consBlocksProposals.get? c.db.getCurrentRound = some p := by
        rw [← hsame.proposals, ← hsame.getCurrentRound]
        exact hp
      rcases hinv.view p hold with ⟨i, hi, hvote⟩ | hext
      · refine Or.inl ⟨i, ?_, ?_⟩
        · show Node.Sits _ (c.db.insertConsensusParams _ new).1.getCurrentRound i
          rw [hsame.getCurrentRound]
          exact hsits i hi
        · show (Db.getVoteBlock (c.db.insertConsensusParams _ new).1
            (c.db.insertConsensusParams _ new).1.getCurrentRound i).isSome = true
          rw [hsame.getCurrentRound]
          unfold Db.getVoteBlock
          rw [(insertConsensusParams_votes c.db _ new).1]
          exact hvote
      · refine Or.inr ?_
        show p.Extends ((c.db.insertConsensusParams _ new).1.getPrevNotarizedBlock
          (c.db.insertConsensusParams _ new).1.getCurrentRound)
        unfold Db.getPrevNotarizedBlock
        rw [hsame.notarized, hsame.getCurrentRound]
        exact hext
  | reopen _ hopen =>
      obtain ⟨fs, c₁, _, hf, hcheck⟩ := openInternal_ok hopen
      have hsame : SameBlocks c.db c₁.db := hf.sameBlocks
      have hbounded := hinv.bounded.congr hsame
      have hview : ViewInv c₁ := by
        refine hinv.view.congr hf.key hf.sameParams hsame ?_
        rw [hf.db]
      obtain ⟨v, hv⟩ := checkRoundEnd_closed hbounded.toBlockInv hcheck
      exact ⟨hv.boundedInv hbounded.toBlockInv hbounded.bounded, hparams,
        hv.viewInv hbounded.toBlockInv (Or.inl hview)⟩

end Steps

end Consensus

namespace Node

open Consensus

variable {D S : Type} [LinearOrder D] [Hashing D] [DecidableEq S] [Signing D S]

/-! ## The votes of the node -/

/-- A vote of the node that was not there before extends the latest notarized
block below it. -/
def VotingRule (n n' : Node D S) : Prop :=
  ∀ r i v, Sits n'.consensus r i →
    n'.consensus.db.getVoteBlock r i = some v →
    (∀ e, n.consensus.db.getVoteBlock r i = some e → e.sig ≠ v.sig) →
    v.inner.Extends (n'.consensus.db.getPrevNotarizedBlock r)

/-- A notarized block that passes all checks and would be taken is taken in
time. -/
def NoLateBlock (n : Node D S) : NodeOp D S → Prop
  | .recvNotarized resp => TakesInTime n.consensus (.notarized resp)
  | _ => True

instance (n : Node D S) (op : NodeOp D S) : Decidable (NoLateBlock n op) :=
  match op with
  | .recvNotarized _ => inferInstanceAs (Decidable (_ → _))
  | .recvVote _ _ => .isTrue trivial
  | .recvFinality _ _ => .isTrue trivial
  | .proposalTask _ _ => .isTrue trivial
  | .voteTask => .isTrue trivial
  | .timeoutTask => .isTrue trivial
  | .deliver _ => .isTrue trivial
  | .paramsChange _ _ _ => .isTrue trivial
  | .restart => .isTrue trivial

/-- What the voting rule of a node rests on. -/
structure VotingInv (n : Node D S) : Prop where
  consensus : n.consensus.VotingInv
  events : ∀ e ∈ n.events, EventInv n.consensus e

omit [DecidableEq S] in
/-- A block vote that a vote message has added is the one in the message. -/
theorem new_vote {c c' : Consensus D S} {i : PeerIdx} {resp : WaitVoteResponse D S}
    (hcase : StepCase c (.vote i resp) c') (hround : RoundInv c.db)
    {r : BlockRound} {j : PeerIdx} {w : SignedVote D S}
    (hw : c'.db.getVoteBlock r j = some w) :
    c.db.getVoteBlock r j = some w ∨ (r = c.db.getCurrentRound ∧ j = i ∧
      w = resp.block ∧ resp.block.inner.isDummy = false ∧
      ∃ p, (c.db.getConsensusParams r : Outcome Empty _) = .ok p) := by
  cases hcase with
  | same => exact Or.inl hw
  | vote _ _ params db _ hparams hin hcounted =>
      have hcases : ∀ {w}, db.getVoteBlock r j = some w →
          c.db.getVoteBlock r j = some w ∨ (r = c.db.getCurrentRound ∧ j = i ∧
            w = resp.block ∧ resp.block.inner.isDummy = false ∧
            ∃ p, (c.db.getConsensusParams r : Outcome Empty _) = .ok p) := by
        intro w hw
        rcases hin.voteBlock_cases hw with hold | ⟨rfl, hj, hres, hdummy⟩
        · exact Or.inl hold
        · exact Or.inr ⟨rfl, hj, hres, hdummy, params,
            Db.getConsensusParams_cast hparams⟩
      rcases hcounted with ⟨_, rfl⟩ | ⟨_, hcheck⟩
      · exact hcases hw
      · rw [← hin.curRound] at hcheck
        obtain ⟨v, hv⟩ :=
          checkRoundEnd_closed (hin.roundInv hround).toBlockInv hcheck
        exact hcases (hv.voteBlock_sub hw)

/-- Other ops add no block votes. -/
theorem no_new_vote {c : Consensus D S} (op : ConsensusOp D S)
    (hop : ∀ i resp, op ≠ .vote i resp) (hop' : ∀ resp, op ≠ .notarized resp)
    (hround : RoundInv c.db) {r : BlockRound} {j : PeerIdx} {w : SignedVote D S}
    (hw : (c.step op).db.getVoteBlock r j = some w) :
    c.db.getVoteBlock r j = some w := by
  rcases step_voteBlock_cases c op hround hw with hold | hnew
  · exact hold
  · cases hnew with
    | counted resp => exact absurd rfl (hop j resp)
    | signed resp => exact absurd rfl (hop' resp)

omit [DecidableEq S] in
/-- The own vote, delivered: a proposal has just been checked, and a vote is on
the stored proposal. -/
theorem delivered_extends {c c' : Consensus D S} {e : RoundEvent D S}
    (hinv : c.VotingInv) (he : EventInv c e)
    (hcase : StepCase c (.vote e.peerIdx e.resp) c')
    (hdummy : e.resp.block.inner.isDummy = false)
    (hnew : ∀ w, c.db.getVoteBlock c.db.getCurrentRound e.peerIdx = some w →
      w.sig ≠ e.resp.block.sig)
    (hw : c'.db.getVoteBlock c.db.getCurrentRound e.peerIdx =
      some e.resp.block) :
    e.resp.block.inner.Extends
      (c'.db.getPrevNotarizedBlock c.db.getCurrentRound) := by
  cases hcase with
  | same => exact absurd rfl (hnew _ hw)
  | vote _ _ params db _ hparams hin hcounted =>
      have hext : e.resp.block.inner.Extends
          (c.db.getPrevNotarizedBlock c.db.getCurrentRound) := by
        have hvote := he.vote
        have hsits := he.sits
        obtain ⟨i, resp⟩ := e
        cases hin with
        | dummy vote hround hsig hd =>
            exact absurd (hd.symm.trans hdummy) (by simp)
        | proposal vote payload hround hsig hd hleader hfits hext => exact hext
        | block vote hround =>
            have hprop := hvote vote rfl hdummy
            rw [hround] at hprop
            rcases hinv.view _ hprop with ⟨j, hj, hsome⟩ | hext
            · -- the own vote is in: then this one is the same again
              obtain ⟨w, hw⟩ := Option.isSome_iff_exists.mp hsome
              have hround' : (WaitVoteResponse.vote vote).block.inner.round =
                  c.db.getCurrentRound := hround
              rw [hround'] at hsits
              rw [hj.unique hsits] at hw
              rcases hcounted with ⟨⟨hd, _⟩ | ⟨_, w', hw', hsame⟩, _⟩ | ⟨hfresh, _⟩
              · exact absurd (hd.symm.trans hdummy) (by simp)
              · exact absurd hsame (hnew w' hw')
              · have hnone : c.db.getVoteBlock c.db.getCurrentRound i = none :=
                  hfresh.2 hdummy
                rw [hnone] at hw
                cases hw
            · exact hext
      have hprev : db.getPrevNotarizedBlock c.db.getCurrentRound =
          c.db.getPrevNotarizedBlock c.db.getCurrentRound := by
        unfold Db.getPrevNotarizedBlock
        rw [hin.notarized_eq]
      rcases hcounted with ⟨_, rfl⟩ | ⟨_, hcheck⟩
      · rw [hprev]
        exact hext
      · rw [← hin.curRound] at hcheck
        obtain ⟨v, hv⟩ := checkRoundEnd_closed
          (hin.roundInv hinv.bounded.toRoundInv).toBlockInv hcheck
        rw [hv.prev_eq (le_of_eq hin.curRound.symm), hprev]
        exact hext

omit [DecidableEq S] in
/-- A block vote that came with a notarized block is on that block. -/
theorem taken_extends {c c' : Consensus D S} {resp : WaitNotarizedBlockResponse D S}
    (hcase : StepCase c (.notarized resp) c') (hinv : BoundedInv c.db)
    (htime : TakesInTime c (.notarized resp)) {r : BlockRound} {i : PeerIdx}
    {w : SignedVote D S} (hw : c'.db.getVoteBlock r i = some w)
    (hnew : c.db.getVoteBlock r i ≠ some w) :
    w.inner.Extends (c'.db.getPrevNotarizedBlock r) := by
  cases hcase with
  | same => exact absurd hw hnew
  | notarized _ params db _ hok hver hin hcheck =>
      have hblock := hin.blockInv hinv.toBlockInv
      rw [← hin.curRound] at hcheck
      obtain ⟨v, hv⟩ := checkRoundEnd_closed hblock hcheck
      rcases hin.voteBlock_cases (hv.voteBlock_sub hw) with hold |
        ⟨rfl, hinner, _, hdummy⟩
      · exact absurd hold hnew
      · obtain ⟨htakes, hget, hext⟩ := hin.extends_prev hinv hdummy
        rw [hinner, hv.prev_eq_of_mem hblock hget (htime hdummy hok htakes).1]
        exact hext

theorem step_votingRule [CollisionFree D] (n : Node D S) (op : NodeOp D S) (hinv : VotingInv n)
    (hg : NoLateBlock n op) : VotingRule n (n.step op) := by
  have hround := hinv.consensus.bounded.toRoundInv
  have hcase := step_nodeCase n op
  generalize n.step op = n' at hcase
  intro r i w hsits hw hnew
  have hsame : n.consensus.db.getVoteBlock r i ≠ some w :=
    fun h => hnew w h rfl
  cases hcase with
  | idle => exact absurd hw hsame
  | recvVote j resp hother =>
      rcases new_vote (step_cases _ _) hround hw with hold |
        ⟨rfl, rfl, _, _, p, hp⟩
      · exact absurd hold hsame
      · refine absurd (ourPeerIdx_eq_some.mpr ?_) hother
        exact hsits.of_step (.vote i resp) hround hinv.consensus.params
          (le_refl _) hp
  | recvNotarized resp =>
      exact taken_extends (step_cases _ _) hinv.consensus.bounded hg hw hsame
  | recvFinality k resp =>
      exact absurd (no_new_vote (.finality k resp) (by simp) (by simp) hround hw) hsame
  | spawned => exact absurd hw hsame
  | delivered k e c he hok =>
      have he' := hinv.events e (List.mem_of_getElem? he)
      have hcase : StepCase n.consensus (.vote e.peerIdx e.resp) c := by
        have h := step_cases n.consensus (.vote e.peerIdx e.resp)
        rw [Consensus.step, hok] at h
        exact h
      rcases new_vote hcase hround hw with hold | ⟨rfl, rfl, rfl, hdummy, _⟩
      · exact absurd hold hsame
      · exact delivered_extends hinv.consensus he' hcase hdummy hnew hw
  | dropped => exact absurd hw hsame
  | paramsChange round t peers =>
      exact absurd (no_new_vote (.paramsChange round t peers) (by simp) (by simp)
        hround hw) hsame
  | restart =>
      exact absurd (no_new_vote .reopen (by simp) (by simp) hround hw)
        hsame

theorem step_nodeVotingInv [CollisionFree D] (n : Node D S) (op : NodeOp D S)
    (hinv : VotingInv n) (hg : NoLateBlock n op) : VotingInv (n.step op) where
  consensus := by
    have hstep : ∀ cop, TakesInTime n.consensus cop →
        (n.consensus.step cop).VotingInv :=
      fun cop => step_votingInv n.consensus cop hinv.consensus
    have hcase := step_nodeCase n op
    generalize n.step op = n' at hcase
    cases hcase with
    | idle => exact hinv.consensus
    | recvVote i resp => exact hstep (.vote i resp) trivial
    | recvNotarized resp => exact hstep (.notarized resp) hg
    | recvFinality k resp => exact hstep (.finality k resp) trivial
    | spawned => exact hinv.consensus
    | delivered k e c he hok =>
        have h := hstep (.vote e.peerIdx e.resp) trivial
        rw [Consensus.step, hok] at h
        exact h
    | dropped => exact hinv.consensus
    | paramsChange r t peers => exact hstep (.paramsChange r t peers) trivial
    | restart => exact hstep .reopen trivial
  events := step_eventInv n op hinv.consensus.bounded.toRoundInv
    hinv.consensus.params hinv.events

omit [DecidableEq S] [Signing D S] in
theorem init_votingInv {params : ConsensusParams D} {k : Option PeerPubkey}
    {pinned : Option (BlockRound × D)} {c : Consensus D S}
    (h : init params Db.empty k pinned = .ok c) : VotingInv (start c) where
  consensus :=
    { bounded := (init_chainInv h).toBoundedInv
      params := init_paramsInv h
      view := fun p hp => Or.inr ((init_chainInv h).continues p hp) }
  events e he := by cases he

/-- In every run in which no block is taken late, whatever the node does next,
a vote of its own that this commits extends its latest notarized block. -/
theorem votingRule_of_noLateBlock [CollisionFree D] {params : ConsensusParams D}
    {k : Option PeerPubkey} {pinned : Option (BlockRound × D)}
    {c : Consensus D S} {ops : List (NodeOp D S)} {op : NodeOp D S}
    (hinit : init params Db.empty k pinned = .ok c)
    (hops : Trail.Guarded step NoLateBlock (start c) (ops ++ [op])) :
    VotingRule ((start c).run ops) (((start c).run ops).step op) := by
  obtain ⟨hrun, hlast, _⟩ := Trail.guarded_append.mp hops
  have hinv : VotingInv ((start c).run ops) :=
    hrun.invariant step_nodeVotingInv (init_votingInv hinit)
  exact step_votingRule _ op hinv hlast

/-! ## Four peers, one late block -/

section LateBlock

/-- Four peers. -/
def quadKeys : List PeerPubkey := [10, 11, 12, 13]

/-- A block of the four peers. -/
def quadBlock (prev : Option (BlockHeader ListDigest)) (round : BlockRound)
    (payload : BlockPayloadRaw) : BlockHeader ListDigest :=
  .build prev 0 round (plainParams quadKeys) payload

/-- The node times out in round 0 along with two others. -/
def timeOutRoundZero : List (NodeOp ListDigest PlainSig) :=
  let dummy := BlockHeader.newDummy 0 (plainParams quadKeys)
  [.recvVote 1 (.vote (signedBy 11 dummy)), .recvVote 2 (.vote (signedBy 12 dummy)),
   .timeoutTask, .deliver 0]

/-- The block of round 0, notarized by the other three. -/
def quadZero : WaitNotarizedBlockResponse ListDigest PlainSig :=
  ⟨notarizedBy quadKeys [1, 2, 3] (quadBlock none 0 [0]), [0]⟩

/-- The block of round 0 comes in before the proposal of round 1, which extends
it, and the node prepares its vote. -/
def blockInTimeOps : List (NodeOp ListDigest PlainSig) :=
  let next := quadBlock (some (quadBlock none 0 [0])) 1 [1]
  timeOutRoundZero ++
  [.recvNotarized quadZero, .recvVote 1 (.proposal (signedBy 11 next) [1]),
   .voteTask]

theorem votingRule_of_blockInTime : ∃ c : Consensus ListDigest PlainSig,
    init (plainParams quadKeys) Db.empty (some 10) none = .ok c ∧
      VotingRule ((start c).run blockInTimeOps)
        (((start c).run blockInTimeOps).step (.deliver 0)) := by
  have hrun : (init (plainParams quadKeys) (Db.empty : Db ListDigest PlainSig)
      (some 10) none).Returns fun c => Trail.Guarded step NoLateBlock (start c)
        (blockInTimeOps ++ [.deliver 0]) := by decide +kernel
  obtain ⟨c, hinit, hops⟩ := Outcome.returns_iff.mp hrun
  exact ⟨c, hinit, votingRule_of_noLateBlock hinit hops⟩

/-- The node prepares its vote on the proposal of round 1, then the block of
round 0 comes in late. -/
def lateBlockOps : List (NodeOp ListDigest PlainSig) :=
  let first := quadBlock none 1 [1]
  timeOutRoundZero ++
  [.recvVote 1 (.proposal (signedBy 11 first) [1]), .voteTask,
   .recvNotarized quadZero]

/-- What is wrong with a vote of the node, if it breaks the rule. -/
def BadVote (n n' : Node ListDigest PlainSig) (r : BlockRound) (i : PeerIdx)
    (v : SignedVote ListDigest PlainSig) : Prop :=
  n'.consensus.db.getCurrentRound = r ∧ ourPeerIdx n'.consensus = some i ∧
    n.consensus.db.getVoteBlock r i = none ∧
    n'.consensus.db.getVoteBlock r i = some v ∧
    ¬ v.inner.Extends (n'.consensus.db.getPrevNotarizedBlock r)

instance (n n' : Node ListDigest PlainSig) (r : BlockRound) (i : PeerIdx)
    (v : SignedVote ListDigest PlainSig) : Decidable (BadVote n n' r i v) :=
  inferInstanceAs (Decidable (_ ∧ _ ∧ _ ∧ _ ∧ _))

theorem BadVote.not_votingRule {n n' : Node ListDigest PlainSig} {r : BlockRound}
    {i : PeerIdx} {v : SignedVote ListDigest PlainSig}
    (h : BadVote n n' r i v) : ¬ VotingRule n n' := by
  obtain ⟨hround, hidx, hnone, hvote, hnot⟩ := h
  have hsits := ourPeerIdx_eq_some.mp hidx
  rw [hround] at hsits
  intro hrule
  refine hnot (hrule r i v hsits hvote fun e he => ?_)
  rw [hnone] at he
  cases he

theorem late_block_breaks_votingRule :
    ¬ ∀ (c : Consensus ListDigest PlainSig)
        (ops : List (NodeOp ListDigest PlainSig))
        (op : NodeOp ListDigest PlainSig),
      init (plainParams quadKeys) Db.empty (some 10) none = .ok c →
      VotingRule ((start c).run ops) (((start c).run ops).step op) := by
  intro h
  have hrun : (init (plainParams quadKeys) (Db.empty : Db ListDigest PlainSig)
      (some 10) none).Returns fun c => BadVote ((start c).run lateBlockOps)
        (((start c).run lateBlockOps).step (.deliver 0)) 1 0
        (signedBy 10 (quadBlock none 1 [1])) := by decide +kernel
  obtain ⟨c, hinit, hbad⟩ := Outcome.returns_iff.mp hrun
  exact hbad.not_votingRule (h c lateBlockOps (.deliver 0) hinit)

end LateBlock

end Node

end Bfte
