import Bfte.Core.Concrete
import Bfte.Lib.Lineage
import Bfte.Proofs.Rounds

/-!
# The notarized blocks form a chain

A block gets into the notarized table in three ways, and each is checked against
its parent: a received block extends the latest one or the one before it, and a
proposal extended the latest block when it was stored. The third check is made
when the proposal comes in, not when it is notarized. So a block received in
between, of a round that has been left already, puts itself under a proposal
that extends something else.

`ChainInv` is what holds as long as that does not happen, nor a block of the
last round number, which the round check overlooks.
-/

namespace Bfte

namespace Consensus

open Lineage (TableChain ChainFrom below)

variable {D S : Type} [LinearOrder D] [Hashing D]

/-- All notarized blocks are behind the current round. -/
structure BoundedInv (db : Db D S) : Prop extends RoundInv db where
  bounded : ∀ r b, db.consBlocksNotarized.get? r = some b → r < BlockRound.MAX

/-- The notarized blocks form a chain and the stored proposal continues it. -/
structure ChainInv (db : Db D S) : Prop extends BoundedInv db where
  chain : TableChain BlockHeader.Extends db.consBlocksNotarized
  continues : ∀ p, db.consBlocksProposals.get? db.getCurrentRound = some p →
    p.Extends (db.getPrevNotarizedBlock db.getCurrentRound)

/-- The same before the round check: either the proposal still continues the
chain, or the round it is for is over. -/
structure OpenChain (db : Db D S) : Prop extends BlockInv db where
  chain : TableChain BlockHeader.Extends db.consBlocksNotarized
  bounded : ∀ r b, db.consBlocksNotarized.get? r = some b → r < BlockRound.MAX
  continues : (∀ p, db.consBlocksProposals.get? db.getCurrentRound = some p →
      p.Extends (db.getPrevNotarizedBlock db.getCurrentRound)) ∨
    ∃ r b, db.consBlocksNotarized.get? r = some b ∧ db.getCurrentRound ≤ r

theorem ChainInv.openChain {db : Db D S} (h : ChainInv db) : OpenChain db :=
  ⟨h.toBlockInv, h.chain, h.bounded, Or.inl h.continues⟩

theorem BoundedInv.lt_cur {db : Db D S} (h : BoundedInv db) {r : BlockRound}
    {b : BlockHeader D} (hb : db.consBlocksNotarized.get? r = some b) :
    r < db.getCurrentRound :=
  (h.behind r b hb).resolve_right (not_le.mpr (h.bounded r b hb))

theorem BoundedInv.congr {db db' : Db D S} (hsame : SameBlocks db db')
    (h : BoundedInv db) : BoundedInv db' where
  toRoundInv := h.toRoundInv.congr hsame
  bounded := by
    rw [hsame.notarized]
    exact h.bounded

theorem ChainInv.congr {db db' : Db D S} (hsame : SameBlocks db db')
    (h : ChainInv db) : ChainInv db' where
  toBoundedInv := h.toBoundedInv.congr hsame
  chain := by
    rw [hsame.notarized]
    exact h.chain
  continues := by
    unfold Db.getPrevNotarizedBlock
    rw [hsame.proposals, hsame.notarized, hsame.getCurrentRound]
    exact h.continues

/-! ## The round check -/

/-- A block that is stored ahead of the current round ends it. -/
theorem Closed.moved {c c' : Consensus D S} {v : RoundEnd D S}
    (h : Closed c v c') (hinv : BlockInv c.db) {r : BlockRound}
    {b : BlockHeader D} (hb : c.db.consBlocksNotarized.get? r = some b)
    (hr : r < BlockRound.MAX) : r < c'.db.getCurrentRound := by
  obtain ⟨b', hb', hle⟩ := notarized_le_highest hinv.round_eq hb hr
  rw [h.curRound]
  exact lt_of_le_of_lt hle (h.loop.above b' hb')

theorem Closed.chain {c c' : Consensus D S} {v : RoundEnd D S}
    (h : Closed c v c') (hopen : OpenChain c.db) :
    TableChain BlockHeader.Extends c'.db.consBlocksNotarized := by
  rw [h.notarized_eq]
  have hn := h.loop.notarizes
  generalize v.newLastNotarizedRound = last at hn
  generalize v.db = vdb at hn
  cases hn with
  | nothing => exact hopen.chain
  | received => exact hopen.chain
  | voted params p hbelow hlt hparams hp hround hdummy =>
      have htop : ∀ j b, c.db.consBlocksNotarized.get? j = some b →
          j < c.db.getCurrentRound := by
        intro j b hb
        obtain ⟨b', hb', hle⟩ :=
          notarized_le_highest hopen.round_eq hb (hopen.bounded j b hb)
        exact lt_of_le_of_lt hle (hbelow b' hb')
      refine hopen.chain.insert_top htop ?_
      rcases hopen.continues with hcont | ⟨r, b, hb, hle⟩
      · exact hcont p hp
      · exact absurd (htop r b hb) (not_lt.mpr hle)

theorem Closed.boundedInv {c c' : Consensus D S} {v : RoundEnd D S}
    (h : Closed c v c') (hinv : BlockInv c.db)
    (hbounded : ∀ r b, c.db.consBlocksNotarized.get? r = some b →
      r < BlockRound.MAX) : BoundedInv c'.db where
  toRoundInv := h.roundInv hinv
  bounded r b hb := by
    rcases h.notarized_cases hb with hold | ⟨_, hlt, _⟩
    · exact hbounded r b hold
    · exact lt_of_lt_of_le hlt (h.roundInv hinv).cur_le

theorem Closed.chainInv {c c' : Consensus D S} {v : RoundEnd D S}
    (h : Closed c v c') (hopen : OpenChain c.db) : ChainInv c'.db where
  toBoundedInv := h.boundedInv hopen.toBlockInv hopen.bounded
  chain := h.chain hopen
  continues p hp := by
    rcases eq_or_lt_of_le h.cur_le with hstill | hmoved
    · -- nothing ended the round, so nothing was notarized
      rw [h.proposals_eq, ← hstill] at hp
      unfold Db.getPrevNotarizedBlock
      rw [h.notarized_eq, h.db_eq_of_still hstill.symm, ← hstill]
      rcases hopen.continues with hcont | ⟨r, b, hb, hle⟩
      · exact hcont p hp
      · have := h.moved hopen.toBlockInv hb (hopen.bounded r b hb)
        lia
    · rw [h.proposal_none hopen.toBlockInv hmoved] at hp
      cases hp

/-! ## Messages -/

section Messages

variable [Signing D S] {db db' : Db D S}

theorem VoteIntake.boundedInv {params : ConsensusParams D} {i : PeerIdx}
    {resp : WaitVoteResponse D S} (h : VoteIntake db params i resp db')
    (hinv : BoundedInv db) : BoundedInv db' where
  toRoundInv := h.roundInv hinv.toRoundInv
  bounded := by
    rw [h.notarized_eq]
    exact hinv.bounded

theorem VoteIntake.chainInv {params : ConsensusParams D} {i : PeerIdx}
    {resp : WaitVoteResponse D S} (h : VoteIntake db params i resp db')
    (hinv : ChainInv db) : ChainInv db' where
  toBoundedInv := h.boundedInv hinv.toBoundedInv
  chain := by
    rw [h.notarized_eq]
    exact hinv.chain
  continues p hp := by
    rw [h.curRound] at hp
    unfold Db.getPrevNotarizedBlock
    rw [h.notarized_eq, h.curRound]
    rcases h.proposal_cases hp with hold | ⟨_, _, _, _, hext, _⟩
    · exact hinv.continues p hold
    · exact hext

omit [Signing D S] in
/-- Every stored block is of a round up to that of the latest one. -/
theorem BoundedInv.le_latest (hinv : BoundedInv db) {r : BlockRound}
    {b : BlockHeader D} (hb : db.consBlocksNotarized.get? r = some b) :
    ∃ latest, db.getPrevNotarizedBlock db.getCurrentRound = some latest ∧
      r ≤ latest.round := by
  cases hl : db.getPrevNotarizedBlock db.getCurrentRound with
  | none =>
      have := getPrevNotarizedBlock_eq_none.mp hl r b hb
      exact absurd (hinv.lt_cur hb) (not_lt.mpr this)
  | some latest =>
      have hmax := ((getPrevNotarizedBlock_eq_some hinv.round_eq).mp hl).2.2
      exact ⟨latest, rfl, hmax r b hb (hinv.lt_cur hb)⟩

omit [Signing D S] in
theorem BoundedInv.le_of_latest (hinv : BoundedInv db) {r : BlockRound}
    {latest b : BlockHeader D}
    (hlatest : db.getPrevNotarizedBlock db.getCurrentRound = some latest)
    (hb : db.consBlocksNotarized.get? r = some b) : r ≤ latest.round := by
  obtain ⟨latest', hlatest', hle⟩ := hinv.le_latest hb
  rw [hlatest] at hlatest'
  cases hlatest'
  exact hle

omit [Signing D S] in
/-- Past the latest block nothing is stored. -/
theorem BoundedInv.none_of_later (hinv : BoundedInv db) {r : BlockRound}
    (hlater : ∀ b ∈ db.getPrevNotarizedBlock db.getCurrentRound, b.round < r) :
    db.consBlocksNotarized.get? r = none := by
  cases hr : db.consBlocksNotarized.get? r with
  | none => rfl
  | some b =>
      obtain ⟨latest, hlatest, hle⟩ := hinv.le_latest hr
      exact absurd (hlater latest hlatest) (not_lt.mpr hle)

omit [Signing D S] in
/-- Taking a block keeps the chain: it goes on top of what it extends. -/
theorem Adopted.chain {block : BlockHeader D}
    {t : SortedTable BlockRound (BlockHeader D)} (h : Adopted db block t)
    (hinv : ChainInv db) : TableChain BlockHeader.Extends t := by
  have hkeep : ∀ latest,
      db.getPrevNotarizedBlock db.getCurrentRound = some latest →
      TableChain BlockHeader.Extends
        (db.consBlocksNotarized.remove latest.round) := by
    intro latest hlatest
    exact hinv.chain.remove_top fun j b hb => hinv.le_of_latest hlatest hb
  cases h with
  | unchanged => exact hinv.chain
  | extended hlater hext hfree hdummy =>
      have htop : ∀ j b, db.consBlocksNotarized.get? j = some b →
          j < block.round := by
        intro j b hb
        obtain ⟨latest, hlatest, hle⟩ := hinv.le_latest hb
        exact lt_of_le_of_lt hle (hlater latest hlatest)
      refine hinv.chain.insert_top htop ?_
      rw [Lineage.below_eq_of_above fun j b hb => ⟨htop j b hb, hinv.lt_cur hb⟩]
      exact hext
  | replaced latest hlatest hlater hext hfree hdummy =>
      have hrest : ∀ j b,
          (db.consBlocksNotarized.remove latest.round).get? j = some b →
          j < latest.round := by
        intro j b hb
        obtain ⟨hne, hb⟩ := SortedTable.get?_remove_eq_some.mp hb
        exact lt_of_le_of_ne (hinv.le_of_latest hlatest hb) hne
      refine (hkeep latest hlatest).insert_top
        (fun j b hb => lt_trans (hrest j b hb) hlater) ?_
      rw [Lineage.below_eq_of_above fun j b hb =>
        ⟨lt_trans (hrest j b hb) hlater, hrest j b hb⟩]
      have hsecond : below (db.consBlocksNotarized.remove latest.round)
          latest.round = db.getPrevNotarizedBlock latest.round :=
        Lineage.below_congr fun j hj => by
          rw [SortedTable.get?_remove, if_neg (ne_of_lt hj)]
      rw [hsecond]
      exact hext
  | dropped latest hlatest => exact hkeep latest hlatest

/-- The code would take this block: it is later than the latest one and extends
it or the one before it. -/
def Takes (db : Db D S) (block : BlockHeader D) : Prop :=
  (∀ b ∈ db.getPrevNotarizedBlock db.getCurrentRound, b.round < block.round) ∧
    (block.Extends (db.getPrevNotarizedBlock db.getCurrentRound) ∨
      ∃ latest ∈ db.getPrevNotarizedBlock db.getCurrentRound,
        block.Extends (db.getPrevNotarizedBlock latest.round))

instance (db : Db D S) (block : BlockHeader D) : Decidable (Takes db block) :=
  inferInstanceAs (Decidable (_ ∧ _))

omit [Signing D S] in
theorem Adopted.takes {block : BlockHeader D}
    {t : SortedTable BlockRound (BlockHeader D)} (h : Adopted db block t)
    (hinv : BoundedInv db) : t = db.consBlocksNotarized ∨
      (t.get? block.round = some block ∧ block.isDummy = false ∧
        Takes db block) := by
  cases h with
  | unchanged => exact Or.inl rfl
  | extended hlater hext hfree hdummy =>
      exact Or.inr ⟨SortedTable.get?_insert_self _ _ _, hdummy, hlater,
        Or.inl hext⟩
  | replaced latest hlatest hlater hext hfree hdummy =>
      refine Or.inr ⟨SortedTable.get?_insert_self _ _ _, hdummy, ?_,
        Or.inr ⟨latest, hlatest, hext⟩⟩
      intro b hb
      rw [hlatest] at hb
      cases hb
      exact hlater
  | dropped latest hlatest hlater hfull =>
      obtain ⟨b, hb⟩ := Option.isSome_iff_exists.mp hfull
      exact absurd hlater (not_lt.mpr (hinv.le_of_latest hlatest hb))

/-- A block the code takes is not of the last round number, and if it is of a
round that was left, no proposal is stored for the current one. -/
def InTime (db : Db D S) (block : BlockHeader D) : Prop :=
  block.round < BlockRound.MAX ∧
    (block.round < db.getCurrentRound →
      db.consBlocksProposals.get? db.getCurrentRound = none)

instance (db : Db D S) (block : BlockHeader D) : Decidable (InTime db block) :=
  inferInstanceAs (Decidable (_ ∧ _))

omit [Signing D S] in
theorem NotarizedIntake.bounded {resp : WaitNotarizedBlockResponse D S}
    (h : NotarizedIntake db resp db') (hinv : BoundedInv db)
    (hlt : resp.block.inner.isDummy = false → Takes db resp.block.inner →
      resp.block.inner.round < BlockRound.MAX) (r : BlockRound)
    (b : BlockHeader D) (hb : db'.consBlocksNotarized.get? r = some b) :
    r < BlockRound.MAX := by
  rcases h.adopted.takes hinv with heq | ⟨_, hdummy, htakes⟩
  · rw [heq] at hb
    exact hinv.bounded r b hb
  · rcases h.adopted.cases_get? hb with hold | ⟨rfl, _⟩
    · exact hinv.bounded r b hold
    · exact hlt hdummy htakes

omit [Signing D S] in
theorem NotarizedIntake.openChain {resp : WaitNotarizedBlockResponse D S}
    (h : NotarizedIntake db resp db') (hinv : ChainInv db)
    (htime : resp.block.inner.isDummy = false → Takes db resp.block.inner →
      InTime db resp.block.inner) : OpenChain db' where
  toBlockInv := h.blockInv hinv.toBlockInv
  chain := h.adopted.chain hinv
  bounded := h.bounded hinv.toBoundedInv fun hd ht => (htime hd ht).1
  continues := by
    rw [h.proposals_eq, h.curRound]
    rcases h.adopted.takes hinv.toBoundedInv with heq | ⟨hget, hdummy, htakes⟩
    · unfold Db.getPrevNotarizedBlock
      rw [heq]
      exact Or.inl hinv.continues
    · rcases lt_or_ge resp.block.inner.round db.getCurrentRound with hlt | hge
      · refine Or.inl fun p hp => ?_
        rw [(htime hdummy htakes).2 hlt] at hp
        cases hp
      · exact Or.inr ⟨_, _, hget, hge⟩

end Messages

/-! ## Runs -/

section Runs

variable [DecidableEq S] [Signing D S]

/-- A notarized block that passes all checks and would be taken is not of the last
round number. -/
def BelowLast (c : Consensus D S) : ConsensusOp D S → Prop
  | .notarized resp => resp.block.inner.isDummy = false →
      checkNotarized c.db resp = .ok () → Takes c.db resp.block.inner →
      resp.block.inner.round < BlockRound.MAX
  | _ => True

instance (c : Consensus D S) (op : ConsensusOp D S) :
    Decidable (BelowLast c op) :=
  match op with
  | .notarized _ => inferInstanceAs (Decidable (_ → _))
  | .vote _ _ => .isTrue trivial
  | .finality _ _ => .isTrue trivial
  | .paramsChange _ _ _ => .isTrue trivial
  | .reopen => .isTrue trivial

omit [DecidableEq S] in
theorem Phase.bounded {c c₁ : Consensus D S} {op : ConsensusOp D S}
    (h : Phase c op c₁) (hinv : BoundedInv c.db) (hg : BelowLast c op) :
    ∀ r b, c₁.db.consBlocksNotarized.get? r = some b → r < BlockRound.MAX := by
  cases h with
  | same => exact hinv.bounded
  | vote i resp params db _ hin => exact (hin.boundedInv hinv).bounded
  | notarized resp params db hok _ hin =>
      exact hin.bounded hinv fun hd => hg hd hok
  | finality k resp c₁ hf => exact (hinv.congr hf.sameBlocks).bounded
  | paramsChange =>
      exact (hinv.congr (insertConsensusParams_sameBlocks _ _ _)).bounded
  | reopen fs c₁ hf =>
      have hsame : SameBlocks c.db c₁.db := hf.sameBlocks
      exact (hinv.congr hsame).bounded

theorem step_boundedInv (c : Consensus D S) (op : ConsensusOp D S)
    (hinv : BoundedInv c.db) (hg : BelowLast c op) :
    BoundedInv (c.step op).db := by
  obtain ⟨c₁, hphase, hblock, hend⟩ := step_closed c op hinv.toRoundInv
  have hbounded := hphase.bounded hinv hg
  rcases hend with ⟨hstop, hround⟩ | ⟨v, hv⟩
  · rw [hstop]
    exact ⟨hround, hbounded⟩
  · exact hv.boundedInv hblock hbounded

/-- A notarized block that passes all checks and would be taken is in time. -/
def NoLateBlock (c : Consensus D S) : ConsensusOp D S → Prop
  | .notarized resp => resp.block.inner.isDummy = false →
      checkNotarized c.db resp = .ok () → Takes c.db resp.block.inner →
      InTime c.db resp.block.inner
  | _ => True

instance (c : Consensus D S) (op : ConsensusOp D S) :
    Decidable (NoLateBlock c op) :=
  match op with
  | .notarized _ => inferInstanceAs (Decidable (_ → _))
  | .vote _ _ => .isTrue trivial
  | .finality _ _ => .isTrue trivial
  | .paramsChange _ _ _ => .isTrue trivial
  | .reopen => .isTrue trivial

theorem step_chainInv (c : Consensus D S) (op : ConsensusOp D S)
    (hinv : ChainInv c.db) (hg : NoLateBlock c op) :
    ChainInv (c.step op).db := by
  have hcase := step_cases c op
  generalize c.step op = c' at hcase
  cases hcase with
  | same => exact hinv
  | vote i resp params db _ hparams hin hcounted =>
      have hdb := hin.chainInv hinv
      rcases hcounted with ⟨_, rfl⟩ | ⟨_, hcheck⟩
      · exact hdb
      · rw [← hin.curRound] at hcheck
        obtain ⟨v, hv⟩ := checkRoundEnd_closed hdb.toBlockInv hcheck
        exact hv.chainInv hdb.openChain
  | notarized resp params db _ hok hver hin hcheck =>
      have hdb := hin.openChain hinv fun hd => hg hd hok
      rw [← hin.curRound] at hcheck
      obtain ⟨v, hv⟩ := checkRoundEnd_closed hdb.toBlockInv hcheck
      exact hv.chainInv hdb
  | finality k resp _ hsig hupdate =>
      exact hinv.congr (updatePeerFinalityVoteRound_frame hupdate).sameBlocks
  | paramsChange => exact hinv.congr (insertConsensusParams_sameBlocks _ _ _)
  | reopen _ hopen =>
      obtain ⟨c₁, v, hsame, hv⟩ := openInternal_closed hinv.toBlockInv hopen
      exact hv.chainInv (hinv.congr hsame).openChain

omit [DecidableEq S] [Signing D S] in
theorem init_chainInv {params : ConsensusParams D} {k : Option PeerPubkey}
    {pinned : Option (BlockRound × D)} {c' : Consensus D S}
    (h : init params Db.empty k pinned = .ok c') : ChainInv c'.db := by
  obtain ⟨c₁, v, hsame, hv⟩ := init_closed h
  refine hv.chainInv ⟨blockInv_empty.congr hsame, ?_, ?_, Or.inl ?_⟩
  · rw [hsame.notarized]
    intro r b hb
    cases hb
  · rw [hsame.notarized]
    intro r b hb
    cases hb
  · rw [hsame.proposals]
    intro p hp
    cases hp

/-- In every run in which no block is taken late, the notarized blocks form one
chain in round order. -/
theorem notarized_chain_of_noLateBlock {params : ConsensusParams D}
    {k : Option PeerPubkey} {pinned : Option (BlockRound × D)}
    {c : Consensus D S} {ops : List (ConsensusOp D S)}
    (hinit : init params Db.empty k pinned = .ok c)
    (hops : Trail.Guarded step NoLateBlock c ops) :
    ChainFrom BlockHeader.Extends none
      (c.run ops).db.consBlocksNotarized.values := by
  have hinv : ChainInv (c.run ops).db :=
    Trail.Guarded.invariant (I := fun c => ChainInv c.db) step_chainInv
      (init_chainInv hinit) hops
  exact Lineage.chainFrom_values_iff.mpr hinv.chain

end Runs

/-! ## Two peers, one late block -/

section LateBlock

/-- The two peers leave round 0 by dummies. -/
def leaveRoundZero : List (ConsensusOp ListDigest PlainSig) :=
  let dummy := BlockHeader.newDummy 0 (plainParams [10, 11])
  [.vote 0 (.vote (signedBy 10 dummy)), .vote 1 (.vote (signedBy 11 dummy))]

/-- A block of the two peers. -/
def pairBlock (prev : Option (BlockHeader ListDigest)) (round : BlockRound)
    (payload : BlockPayloadRaw) : BlockHeader ListDigest :=
  .build prev 0 round (plainParams [10, 11]) payload

/-- The block of round 0, notarized by both. -/
def blockZero : WaitNotarizedBlockResponse ListDigest PlainSig :=
  ⟨notarizedBy [10, 11] [0, 1] (pairBlock none 0 [0]), [0]⟩

/-- The block of round 0 comes in after the round was left, but before there is
a proposal for round 1, which then extends it. -/
def blockInTimeOps : List (ConsensusOp ListDigest PlainSig) :=
  let next := pairBlock (some (pairBlock none 0 [0])) 1 [1]
  leaveRoundZero ++
  [.notarized blockZero, .vote 1 (.proposal (signedBy 11 next) [1]),
   .vote 0 (.vote (signedBy 10 next))]

theorem chain_of_blockInTime : ∃ c : Consensus ListDigest PlainSig,
    init (plainParams [10, 11]) Db.empty (some 10) none = .ok c ∧
      ChainFrom BlockHeader.Extends none
        (c.run blockInTimeOps).db.consBlocksNotarized.values := by
  have hrun : (init (plainParams [10, 11]) (Db.empty : Db ListDigest PlainSig)
      (some 10) none).Returns fun c =>
        Trail.Guarded step NoLateBlock c blockInTimeOps := by decide +kernel
  obtain ⟨c, hinit, hops⟩ := Outcome.returns_iff.mp hrun
  exact ⟨c, hinit, notarized_chain_of_noLateBlock hinit hops⟩

/-- The proposal of round 1 is stored, then the block of round 0 comes in late,
then the second vote for the proposal. -/
def lateBlockOps : List (ConsensusOp ListDigest PlainSig) :=
  let first := pairBlock none 1 [1]
  leaveRoundZero ++
  [.vote 1 (.proposal (signedBy 11 first) [1]), .notarized blockZero,
   .vote 0 (.vote (signedBy 10 first))]

theorem late_block_breaks_chain :
    ¬ ∀ (c : Consensus ListDigest PlainSig)
        (ops : List (ConsensusOp ListDigest PlainSig)),
      init (plainParams [10, 11]) Db.empty (some 10) none = .ok c →
      (∀ op ∈ ops, op.IsMessage) →
      ChainFrom BlockHeader.Extends none
        (c.run ops).db.consBlocksNotarized.values := by
  intro h
  have hrun : (init (plainParams [10, 11]) (Db.empty : Db ListDigest PlainSig)
      (some 10) none).Returns fun c => ¬ ChainFrom BlockHeader.Extends none
        (c.run lateBlockOps).db.consBlocksNotarized.values := by decide +kernel
  obtain ⟨c, hinit, hbroken⟩ := Outcome.returns_iff.mp hrun
  refine hbroken (h c lateBlockOps hinit ?_)
  simp [lateBlockOps, leaveRoundZero, ConsensusOp.IsMessage]

end LateBlock

end Consensus

end Bfte
