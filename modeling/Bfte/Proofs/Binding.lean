import Bfte.Proofs.Equivocation
import Bfte.Proofs.VotingRule

/-!
# A finality vote binds

A node that publishes the finality vote after a block `B` votes from then on for
descendants of `B` only, or it has left `B` for a later block before. `Bound` is
why: `B` is notarized, everything notarized later descends from it, and so does
every proposal stored for a later round. A vote is always for a stored proposal.
Nothing a message does breaks this but the replacing of `B` itself, and that
takes a block that does not descend from `B`.

What needs care is the moment of publishing. The round check publishes the vote
after a block of the round it ends, so nothing is stored for later rounds yet.
Opening publishes the vote after the highest block of the table, which may have
been received late, under a proposal that does not extend it.
-/

namespace Bfte

namespace Consensus

open Lineage (Descends)

variable {D S : Type} [LinearOrder D] [Hashing D]

/-- A round the consensus has left, whose block is below everything later. -/
structure Bound (b : BlockHeader D) (db : Db D S) : Prop where
  stored : db.consBlocksNotarized.get? b.round = some b
  reached : b.round < db.getCurrentRound
  above : ∀ r h, db.consBlocksNotarized.get? r = some h → b.round < r →
    Descends BlockHeader.Extends b h
  proposals : ∀ r p, db.consBlocksProposals.get? r = some p → b.round < r →
    Descends BlockHeader.Extends b p

/-- A later block that does not descend from this one is notarized. -/
def Forked (b : BlockHeader D) (db : Db D S) : Prop :=
  ∃ r h, db.consBlocksNotarized.get? r = some h ∧ b.round < r ∧
    ¬ Descends BlockHeader.Extends b h

theorem Bound.congr {b : BlockHeader D} {db db' : Db D S}
    (hsame : SameBlocks db db') (h : Bound b db) : Bound b db' where
  stored := by
    rw [hsame.notarized]
    exact h.stored
  reached := by
    rw [hsame.getCurrentRound]
    exact h.reached
  above := by
    rw [hsame.notarized]
    exact h.above
  proposals := by
    rw [hsame.proposals]
    exact h.proposals

/-- The latest notarized block is bound too. -/
theorem Bound.latest {b : BlockHeader D} {db : Db D S} (h : Bound b db)
    (hinv : BlockInv db) {r : BlockRound} (hr : b.round < r) :
    ∃ latest, db.getPrevNotarizedBlock r = some latest ∧
      b.round ≤ latest.round ∧ Descends BlockHeader.Extends b latest := by
  cases hl : db.getPrevNotarizedBlock r with
  | none =>
      have := getPrevNotarizedBlock_eq_none.mp hl _ _ h.stored
      exact absurd hr (not_lt.mpr this)
  | some latest =>
      obtain ⟨hget, _, htop⟩ := (getPrevNotarizedBlock_eq_some hinv.round_eq).mp hl
      have hle := htop _ _ h.stored hr
      refine ⟨latest, rfl, hle, ?_⟩
      rcases eq_or_lt_of_le hle with heq | hlt
      · rw [← heq, h.stored] at hget
        cases hget
        exact .refl _
      · exact h.above _ _ hget hlt

/-! ## The round check -/

theorem Closed.bound {c c' : Consensus D S} {v : RoundEnd D S}
    (h : Closed c v c') {b : BlockHeader D} (hb : Bound b c.db)
    (hinv : BlockInv c.db) : Bound b c'.db where
  stored := h.notarized_mono hinv hb.stored
  reached := lt_of_lt_of_le hb.reached h.cur_le
  above r q hq hr := by
    rcases h.notarized_cases hq with hold | ⟨_, _, hprop, _⟩
    · exact hb.above r q hold hr
    · exact hb.proposals r q hprop hr
  proposals := by
    rw [h.proposals_eq]
    exact hb.proposals

/-- The round check publishes the vote after a block that nothing stored is
later than. -/
theorem Closed.publishes {c c' : Consensus D S} {v : RoundEnd D S}
    (h : Closed c v c') (hinv : BlockInv c.db)
    (hbounded : ∀ r b, c.db.consBlocksNotarized.get? r = some b →
      r < BlockRound.MAX) {F : BlockRound}
    (hF : F ∈ (v.newLastNotarizedRound.map (· + 1)).toList) :
    ∃ b, F = b.round + 1 ∧ Bound b c'.db := by
  have hprop : ∀ r p, c'.db.consBlocksProposals.get? r = some p →
      r ≤ c.db.getCurrentRound := by
    rw [h.proposals_eq]
    exact fun r p hp => (hinv.proposal r p hp).2.2
  have hreached := h.loop.last_lt
  rw [← h.curRound] at hreached
  have htable := h.notarized_eq
  have hn := h.loop.notarizes
  generalize v.newLastNotarizedRound = last at hn hF hreached
  generalize v.db = vdb at hn htable
  cases hn with
  | nothing => cases hF
  | received b hb hle =>
      have hspec := (getPrevNotarizedBlock_eq_some hinv.round_eq).mp hb
      refine ⟨b, List.mem_singleton.mp hF, ?_, hreached _ rfl, ?_, ?_⟩
      · rw [htable]
        exact hspec.1
      · intro r q hq hr
        rw [htable] at hq
        have := hspec.2.2 r q hq (hbounded r q hq)
        exact absurd hr (not_lt.mpr this)
      · intro r p hp hr
        exact absurd hr (not_lt.mpr ((hprop r p hp).trans hle))
  | voted params p below hlt hparams hp hround hdummy =>
      have hinsert : c'.db.consBlocksNotarized =
          c.db.consBlocksNotarized.insert c.db.getCurrentRound p := htable
      refine ⟨p, ?_, ?_, ?_, ?_, ?_⟩
      · rw [hround]
        exact List.mem_singleton.mp hF
      · rw [hinsert, hround]
        exact SortedTable.get?_insert_self _ _ _
      · rw [hround]
        exact hreached _ rfl
      · intro r q hq hr
        rw [hinsert, SortedTable.get?_insert] at hq
        split at hq
        · next heq =>
            cases hq
            exact .refl _
        · obtain ⟨b', hb', hle⟩ :=
            notarized_le_highest hinv.round_eq hq (hbounded r q hq)
          have := below b' hb'
          lia
      · intro r q hq hr
        have := hprop r q hq
        lia

/-! ## Messages -/

section Messages

variable {db db' : Db D S}

theorem VoteIntake.bound [Signing D S] {params : ConsensusParams D} {i : PeerIdx}
    {resp : WaitVoteResponse D S} (h : VoteIntake db params i resp db')
    {b : BlockHeader D} (hb : Bound b db) (hinv : BlockInv db) : Bound b db' where
  stored := by
    rw [h.notarized_eq]
    exact hb.stored
  reached := by
    rw [h.curRound]
    exact hb.reached
  above := by
    rw [h.notarized_eq]
    exact hb.above
  proposals r p hp hr := by
    rcases h.proposal_cases hp with hold | ⟨_, _, _, _, hext, _⟩
    · exact hb.proposals r p hold hr
    · obtain ⟨latest, hlatest, _, hdesc⟩ := hb.latest hinv hr
      rw [hlatest] at hext
      exact hdesc.child hext

/-- A block that extends something of an earlier round does not descend from
`b`. -/
theorem not_descends_of_extends [CollisionFree D] {b block : BlockHeader D}
    {prev : Option (BlockHeader D)} (hext : block.Extends prev)
    (hprev : ∀ q ∈ prev, q.round < b.round) (hne : b ≠ block) :
    ¬ Descends BlockHeader.Extends b block := by
  intro hdesc
  rcases hdesc.cases with heq | ⟨q, hq, hparent⟩
  · exact hne heq
  · have hlt := hprev q (hext.unique hparent)
    have hle : b.round ≤ q.round :=
      hq.le_of_lt (fun c p hc => BlockHeader.Extends.round_lt hc)
    exact absurd hlt (not_lt.mpr hle)

/-- What the table of notarized blocks is like after a block was taken. -/
theorem Adopted.bound [CollisionFree D] {block : BlockHeader D}
    {t : SortedTable BlockRound (BlockHeader D)} (h : Adopted db block t)
    {b : BlockHeader D} (hb : Bound b db) (hinv : BoundedInv db) :
    (t.get? b.round = some b ∧ ∀ r q, t.get? r = some q → b.round < r →
      Descends BlockHeader.Extends b q) ∨
    ∃ r q, t.get? r = some q ∧ b.round < r ∧
      ¬ Descends BlockHeader.Extends b q := by
  obtain ⟨top, htop, hle, hdesc⟩ := hb.latest hinv.toBlockInv hb.reached
  cases h with
  | unchanged => exact Or.inl ⟨hb.stored, hb.above⟩
  | extended hlater hext hfree hdummy =>
      have hlt := lt_of_le_of_lt hle (hlater top htop)
      rw [htop] at hext
      refine Or.inl ⟨?_, fun r q hq hr => ?_⟩
      · rw [SortedTable.get?_insert_of_ne (ne_of_lt hlt)]
        exact hb.stored
      · rcases SortedTable.get?_insert_eq_some hq with ⟨_, rfl⟩ | hold
        · exact hdesc.child hext
        · exact hb.above r q hold hr
  | replaced latest hlatest hlater hext hfree hdummy =>
      rw [hlatest] at htop
      cases htop
      rcases eq_or_lt_of_le hle with heq | hlt
      · -- `b` itself is replaced
        refine Or.inr ⟨block.round, block, SortedTable.get?_insert_self _ _ _,
          heq.trans_lt hlater, ?_⟩
        refine not_descends_of_extends hext (fun q hq => ?_) ?_
        · rw [heq]
          exact hinv.prev_lt hq
        · rintro rfl
          exact absurd hlater (not_lt.mpr (le_of_eq heq))
      · obtain ⟨second, hsecond, _, hdesc'⟩ := hb.latest hinv.toBlockInv hlt
        rw [hsecond] at hext
        refine Or.inl ⟨?_, fun r q hq hr => ?_⟩
        · rw [SortedTable.get?_insert_of_ne (ne_of_lt (hlt.trans hlater)),
            SortedTable.get?_remove, if_neg (ne_of_lt hlt)]
          exact hb.stored
        · rcases SortedTable.get?_insert_eq_some hq with ⟨_, rfl⟩ | hold
          · exact hdesc'.child hext
          · exact hb.above r q (SortedTable.get?_remove_eq_some.mp hold).2 hr
  | dropped latest hlatest hlater hfull =>
      obtain ⟨q, hq⟩ := Option.isSome_iff_exists.mp hfull
      exact absurd hlater (not_lt.mpr (hinv.le_of_latest hlatest hq))

/-- Taking a block keeps `b` bound, or puts a block beside it. -/
theorem NotarizedIntake.bound [CollisionFree D]
    {resp : WaitNotarizedBlockResponse D S} (h : NotarizedIntake db resp db')
    {b : BlockHeader D} (hb : Bound b db) (hinv : BoundedInv db) :
    Bound b db' ∨ Forked b db' := by
  refine (h.adopted.bound hb hinv).imp_left fun ⟨hstored, habove⟩ => ?_
  refine ⟨hstored, ?_, habove, ?_⟩
  · rw [h.curRound]
    exact hb.reached
  · rw [h.proposals_eq]
    exact hb.proposals

end Messages

/-! ## Steps -/

section Steps

variable [DecidableEq S] [Signing D S]

/-- A block that is taken is not of the last round number, and a consensus is
opened only where the proposals of the rounds after its highest notarized block
extend that block. -/
def Vouches (c : Consensus D S) : ConsensusOp D S → Prop
  | .notarized resp => resp.block.inner.isDummy = false →
      checkNotarized c.db resp = .ok () → Takes c.db resp.block.inner →
      resp.block.inner.round < BlockRound.MAX
  | .reopen => ∀ b ∈ c.db.getPrevNotarizedBlock c.db.getCurrentRound,
      ∀ e ∈ c.db.consBlocksProposals.entries, b.round < e.1 →
        e.2.Extends (some b)
  | _ => True

instance (c : Consensus D S) (op : ConsensusOp D S) : Decidable (Vouches c op) :=
  match op with
  | .notarized _ => inferInstanceAs (Decidable (_ → _))
  | .vote _ _ => .isTrue trivial
  | .finality _ _ => .isTrue trivial
  | .paramsChange _ _ _ => .isTrue trivial
  | .reopen => inferInstanceAs (Decidable (∀ b ∈ _, ∀ e ∈ _, _ → _))

omit [DecidableEq S] in
theorem Vouches.belowLast {c : Consensus D S} {op : ConsensusOp D S}
    (h : Vouches c op) : BelowLast c op := by
  cases op with
  | notarized resp => exact h
  | vote => exact trivial
  | finality => exact trivial
  | paramsChange => exact trivial
  | reopen => exact trivial

/-- A bound block stays bound, until a block is put beside it. Even then no
proposal is. -/
theorem step_bound [CollisionFree D] (c : Consensus D S) (op : ConsensusOp D S)
    (hinv : BoundedInv c.db) {b : BlockHeader D} (hb : Bound b c.db) :
    (∀ r p, (c.step op).db.consBlocksProposals.get? r = some p → b.round < r →
      Descends BlockHeader.Extends b p) ∧
    (Bound b (c.step op).db ∨ Forked b (c.step op).db) := by
  obtain ⟨c₁, hphase, hblock, hend⟩ := step_closed c op hinv.toRoundInv
  have hbound : ∀ {db : Db D S}, Bound b db →
      (∀ r p, db.consBlocksProposals.get? r = some p → b.round < r →
        Descends BlockHeader.Extends b p) ∧ (Bound b db ∨ Forked b db) :=
    fun h => ⟨h.proposals, Or.inl h⟩
  have hbound₁ : (∀ r p, c₁.db.consBlocksProposals.get? r = some p → b.round < r →
      Descends BlockHeader.Extends b p) ∧ (Bound b c₁.db ∨ Forked b c₁.db) := by
    cases hphase with
    | same => exact hbound hb
    | vote i resp params db _ hin => exact hbound (hin.bound hb hinv.toBlockInv)
    | notarized resp params db _ _ hin =>
        refine ⟨?_, hin.bound hb hinv⟩
        show ∀ r p, db.consBlocksProposals.get? r = some p → _
        rw [hin.proposals_eq]
        exact hb.proposals
    | finality k resp c₁ hf => exact hbound (hb.congr hf.sameBlocks)
    | paramsChange => exact hbound (hb.congr (insertConsensusParams_sameBlocks _ _ _))
    | reopen fs c₁ hf =>
        have hsame : SameBlocks c.db c₁.db := hf.sameBlocks
        exact hbound (hb.congr hsame)
  rcases hend with ⟨hstop, _⟩ | ⟨v, hv⟩
  · rw [hstop]
    exact hbound₁
  · refine ⟨by rw [hv.proposals_eq]; exact hbound₁.1, ?_⟩
    rcases hbound₁.2 with hdb | ⟨r, q, hq, hr, hnot⟩
    · exact Or.inl (hv.bound hdb hblock)
    · exact Or.inr ⟨r, q, hv.notarized_mono hblock hq, hr, hnot⟩

/-- The values of the own finality vote that a step puts on the channel. -/
def Publishes (c c' : Consensus D S) (F : BlockRound) : Prop :=
  ∃ shown, c'.trace.finalitySelfVote = c.trace.finalitySelfVote ++ shown ∧
    F ∈ shown

omit [Hashing D] [DecidableEq S] [Signing D S] in
theorem Publishes.mem {c c' : Consensus D S} {F : BlockRound}
    (h : Publishes c c' F) {shown : List BlockRound}
    (hc : c'.trace.finalitySelfVote = c.trace.finalitySelfVote ++ shown) :
    F ∈ shown := by
  obtain ⟨shown', hc', hF⟩ := h
  rw [hc] at hc'
  rw [List.append_cancel_left hc']
  exact hF

/-- Where the finality vote after `b` is published, `b` is bound. -/
theorem step_publishes (c : Consensus D S) (op : ConsensusOp D S)
    (hinv : BoundedInv c.db) (hg : Vouches c op) {F : BlockRound}
    (hpub : Publishes c (c.step op) F) :
    F = 0 ∨ ∃ b, F = b.round + 1 ∧ Bound b (c.step op).db := by
  have hcase := step_cases c op
  generalize c.step op = c' at hcase hpub
  have hsilent : ∀ {c' : Consensus D S}, Publishes c c' F →
      c'.trace.finalitySelfVote = c.trace.finalitySelfVote → False :=
    fun h heq => absurd (h.mem (by rw [heq, List.append_nil])) List.not_mem_nil
  cases hcase with
  | same => exact (hsilent hpub rfl).elim
  | vote i resp params db _ hparams hin hcounted =>
      rcases hcounted with ⟨_, rfl⟩ | ⟨_, hcheck⟩
      · exact (hsilent hpub rfl).elim
      · have hdb := hin.boundedInv hinv
        rw [← hin.curRound] at hcheck
        obtain ⟨v, hv⟩ := checkRoundEnd_closed hdb.toBlockInv hcheck
        exact Or.inr (hv.publishes hdb.toBlockInv hdb.bounded
          (hpub.mem hv.ended.selfTrace))
  | notarized resp params db _ hok hver hin hcheck =>
      have hblock := hin.blockInv hinv.toBlockInv
      rw [← hin.curRound] at hcheck
      obtain ⟨v, hv⟩ := checkRoundEnd_closed hblock hcheck
      exact Or.inr (hv.publishes hblock (hin.bounded hinv fun hd => hg hd hok)
        (hpub.mem hv.ended.selfTrace))
  | finality k resp _ hsig hupdate =>
      have hf := updatePeerFinalityVoteRound_frame hupdate
      exact (hsilent hpub hf.selfTrace).elim
  | paramsChange => exact (hsilent hpub rfl).elim
  | reopen _ hopen =>
      obtain ⟨fs, c₁, hfs, hf, hcheck⟩ := openInternal_ok hopen
      have hsame : SameBlocks c.db c₁.db := hf.sameBlocks
      have hdb := hinv.congr hsame
      obtain ⟨v, hv⟩ := checkRoundEnd_closed hdb.toBlockInv hcheck
      have htrace : c'.trace.finalitySelfVote = c.trace.finalitySelfVote ++
          (fs :: (v.newLastNotarizedRound.map (· + 1)).toList) := by
        rw [hv.ended.selfTrace, hf.selfTrace, List.append_cons]
        rfl
      rcases List.mem_cons.mp (hpub.mem htrace) with rfl | hF
      · unfold finalitySelf at hfs
        split at hfs
        · next b hb =>
            obtain ⟨_, rfl⟩ := BlockRound.nextExpect_eq_ok.mp hfs
            have hspec := (getPrevNotarizedBlock_eq_some hinv.round_eq).mp hb
            refine Or.inr ⟨b, rfl, hv.bound (.congr hsame ?_) hdb.toBlockInv⟩
            refine ⟨hspec.1, hspec.2.1, fun r q hq hr => ?_, fun r p hp hr => ?_⟩
            · have := hspec.2.2 r q hq (hinv.lt_cur hq)
              exact absurd hr (not_lt.mpr this)
            · exact (Descends.refl b).child
                (hg b hb (r, p) (SortedTable.mem_entries.mpr hp) hr)
        · exact Or.inl (Except.ok.inj hfs).symm
      · exact Or.inr (hv.publishes hdb.toBlockInv hdb.bounded hF)

end Steps

end Consensus

namespace Node

open Consensus
open Lineage (Descends)

variable {D S : Type} [LinearOrder D] [Hashing D] [DecidableEq S] [Signing D S]

/-! ## Runs of a node -/

/-- The condition on the steps, for a node. -/
def Vouches (n : Node D S) : NodeOp D S → Prop
  | .recvNotarized resp => n.consensus.Vouches (.notarized resp)
  | .restart => n.consensus.Vouches .reopen
  | _ => True

instance (n : Node D S) (op : NodeOp D S) : Decidable (Vouches n op) :=
  match op with
  | .recvNotarized resp =>
      inferInstanceAs (Decidable (n.consensus.Vouches (.notarized resp)))
  | .recvVote _ _ => .isTrue trivial
  | .recvFinality _ _ => .isTrue trivial
  | .proposalTask _ _ => .isTrue trivial
  | .voteTask => .isTrue trivial
  | .timeoutTask => .isTrue trivial
  | .deliver _ => .isTrue trivial
  | .paramsChange _ _ _ => .isTrue trivial
  | .restart => inferInstanceAs (Decidable (n.consensus.Vouches .reopen))

/-- From `n` on, the votes cast in rounds from `F` on are for descendants of `b`,
but for those cast when a block beside `b` has been taken. -/
def Binds (b : BlockHeader D) (F : BlockRound) (n : Node D S)
    (ops : List (NodeOp D S)) : Prop :=
  ∀ h ∈ (n.run ops).cast, h.isDummy = false → F ≤ h.round →
    Descends BlockHeader.Extends b h ∨
      ∃ before, before <+: ops ∧ h ∉ (n.run before).cast ∧
        Forked b (n.run before).consensus.db

/-- The votes of a node are for the proposals it has stored. -/
structure CastInv (n : Node D S) : Prop where
  bounded : BoundedInv n.consensus.db
  params : ParamsInv n.consensus
  events : ∀ e ∈ n.events, EventInv n.consensus e
  cast : ∀ h ∈ n.cast, h.isDummy = false →
    n.consensus.db.consBlocksProposals.get? h.round = some h

/-- A node's consensus moves by one step that meets the condition, or not at
all. -/
theorem step_vouches (n : Node D S) (op : NodeOp D S) (hg : Vouches n op) :
    (n.step op).consensus = n.consensus ∨
      ∃ cop, (n.step op).consensus = n.consensus.step cop ∧
        n.consensus.Vouches cop := by
  rcases step_drives n op with heq | ⟨cop, hdrives, heq⟩
  · exact Or.inl heq
  · refine Or.inr ⟨cop, heq, ?_⟩
    cases hdrives with
    | notarized => exact hg
    | reopen => exact hg
    | vote => trivial
    | finality => trivial
    | paramsChange => trivial

theorem step_castInv [CollisionFree D] (n : Node D S) (op : NodeOp D S)
    (h : CastInv n) (hg : Vouches n op) : CastInv (n.step op) := by
  have hround := h.bounded.toRoundInv
  refine ⟨?_, ?_, step_eventInv n op hround h.params h.events, ?_⟩
  · rcases step_vouches n op hg with heq | ⟨cop, heq, hcop⟩
    · rw [heq]
      exact h.bounded
    · rw [heq]
      exact step_boundedInv n.consensus cop h.bounded hcop.belowLast
  · rcases step_vouches n op hg with heq | ⟨cop, heq, _⟩
    · rw [heq]
      exact h.params
    · rw [heq]
      exact step_paramsInv n.consensus cop hround h.params
  · have hmono : ∀ r p, n.consensus.db.consBlocksProposals.get? r = some p →
        (n.step op).consensus.db.consBlocksProposals.get? r = some p := by
      rcases step_consensus n op with heq | ⟨cop, heq⟩
      · rw [heq]
        exact fun _ _ hp => hp
      · rw [heq]
        exact (step_onward n.consensus cop hround).proposals
    have hcase := step_nodeCase n op
    generalize n.step op = n' at hcase hmono
    intro b hb hdummy
    cases hcase with
    | delivered k e c he hok =>
        rcases List.mem_append.mp hb with hb | hb
        · exact hmono _ _ (h.cast b hb hdummy)
        · rw [List.mem_singleton.mp hb] at hdummy ⊢
          exact delivered_stored hround (h.events e (List.mem_of_getElem? he)) hok
            hdummy
    | idle => exact hmono _ _ (h.cast b hb hdummy)
    | recvVote => exact hmono _ _ (h.cast b hb hdummy)
    | recvNotarized => exact hmono _ _ (h.cast b hb hdummy)
    | recvFinality => exact hmono _ _ (h.cast b hb hdummy)
    | spawned => exact hmono _ _ (h.cast b hb hdummy)
    | dropped => exact hmono _ _ (h.cast b hb hdummy)
    | paramsChange => exact hmono _ _ (h.cast b hb hdummy)
    | restart => exact hmono _ _ (h.cast b hb hdummy)

/-- As long as `b` is bound, the node votes for descendants of `b`. -/
theorem run_binds [CollisionFree D] {n : Node D S} {ops : List (NodeOp D S)}
    {b : BlockHeader D} (hinv : CastInv n)
    (hg : Trail.Guarded step Vouches n ops)
    (hb : Bound b n.consensus.db) : Binds b (b.round + 1) n ops := by
  induction ops generalizing n with
  | nil =>
      intro h hh hdummy hF
      exact Or.inl (hb.proposals _ _ (hinv.cast h hh hdummy) hF)
  | cons op ops ih =>
      have hinv' := step_castInv n op hinv hg.1
      have hstep : (∀ r p,
          (n.step op).consensus.db.consBlocksProposals.get? r = some p →
          b.round < r → Descends BlockHeader.Extends b p) ∧
          (Bound b (n.step op).consensus.db ∨
            Forked b (n.step op).consensus.db) := by
        rcases step_consensus n op with heq | ⟨cop, heq⟩
        · rw [heq]
          exact ⟨hb.proposals, Or.inl hb⟩
        · rw [heq]
          exact step_bound n.consensus cop hinv.bounded hb
      intro h hh hdummy hF
      rcases hstep.2 with hbound | hforked
      · refine (ih hinv' hg.2 hbound h hh hdummy hF).imp_right ?_
        rintro ⟨before, hpre, hnot, hfork⟩
        exact ⟨op :: before, List.cons_prefix_cons.mpr ⟨rfl, hpre⟩, hnot, hfork⟩
      · by_cases hcast : h ∈ (n.step op).cast
        · exact Or.inl (hstep.1 _ _ (hinv'.cast h hcast hdummy) hF)
        · refine Or.inr ⟨[op], ?_, hcast, hforked⟩
          exact List.cons_prefix_cons.mpr ⟨rfl, List.nil_prefix⟩

omit [DecidableEq S] [Signing D S] in
theorem init_castInv {params : ConsensusParams D} {k : Option PeerPubkey}
    {pinned : Option (BlockRound × D)} {c : Consensus D S}
    (h : init params Db.empty k pinned = .ok c) : CastInv (start c) where
  bounded := (init_chainInv h).toBoundedInv
  params := init_paramsInv h
  events e he := by cases he
  cast b hb := by cases hb

theorem step_binds [CollisionFree D] {n : Node D S} {op : NodeOp D S}
    {ops : List (NodeOp D S)} (hinv : CastInv n) (hop : Vouches n op)
    (hops : Trail.Guarded step Vouches (n.step op) ops) {F : BlockRound}
    (hpub : Publishes n.consensus (n.step op).consensus F) {b : BlockHeader D}
    (hb : (n.step op).consensus.db.getPrevNotarizedBlock F = some b) :
    Binds b F (n.step op) ops := by
  have hinv' := step_castInv n op hinv hop
  obtain ⟨hget, hlt, htop⟩ :=
    (getPrevNotarizedBlock_eq_some hinv'.bounded.round_eq).mp hb
  have hbound : F = 0 ∨ ∃ b', F = b'.round + 1 ∧
      Bound b' (n.step op).consensus.db := by
    rcases step_vouches n op hop with heq | ⟨cop, heq, hcop⟩
    · rw [heq] at hpub
      exact absurd (hpub.mem (List.append_nil _).symm) List.not_mem_nil
    · rw [heq] at hpub ⊢
      exact step_publishes n.consensus cop hinv.bounded hcop hpub
  rcases hbound with rfl | ⟨b', rfl, hb'⟩
  · exact absurd hlt (Nat.not_lt_zero _)
  · -- the block below `F` is the one `F` was published for
    have hle := htop _ _ hb'.stored (Nat.lt_succ_self _)
    have hround : b.round = b'.round := by lia
    rw [hround, hb'.stored] at hget
    cases hget
    exact run_binds hinv' hops hb'

/-- In every run whose restarts find only proposals that extend the highest
notarized block, a published finality vote binds the node to the block below
it. -/
theorem published_vote_binds [CollisionFree D] {params : ConsensusParams D}
    {k : Option PeerPubkey} {pinned : Option (BlockRound × D)}
    {c : Consensus D S} {ops ops' : List (NodeOp D S)} {op : NodeOp D S}
    {F : BlockRound} {b : BlockHeader D}
    (hinit : init params Db.empty k pinned = .ok c)
    (hops : Trail.Guarded step Vouches (start c) (ops ++ op :: ops'))
    (hpub : Publishes ((start c).run ops).consensus
      (((start c).run ops).step op).consensus F)
    (hb : (((start c).run ops).step op).consensus.db.getPrevNotarizedBlock F =
      some b) : Binds b F (((start c).run ops).step op) ops' := by
  obtain ⟨hrun, hop, hrest⟩ := Trail.guarded_append.mp hops
  have hinv : CastInv ((start c).run ops) :=
    hrun.invariant step_castInv (init_castInv hinit)
  exact step_binds hinv hop hrest hpub hb

/-! ## Four peers and a vote for the block beside -/

section LateBlock

/-- The block of round 0 comes in before the proposal of round 1, which extends
it and which the node votes for. -/
def voteAboveOps : List (NodeOp ListDigest PlainSig) :=
  blockInTimeOps ++ [.deliver 0]

theorem vote_binds_of_voteAbove : ∃ c : Consensus ListDigest PlainSig,
    init (plainParams quadKeys) Db.empty (some 10) none = .ok c ∧
      Binds (quadBlock none 0 [0]) 1
        (((start c).run voteAboveOps).step .restart) [] := by
  have hrun : (init (plainParams quadKeys) (Db.empty : Db ListDigest PlainSig)
      (some 10) none).Returns fun c =>
        Trail.Guarded step Vouches (start c) (voteAboveOps ++ [.restart]) ∧
        (((start c).run voteAboveOps).step
            .restart).consensus.trace.finalitySelfVote =
          ((start c).run voteAboveOps).consensus.trace.finalitySelfVote ++ [1] ∧
        (((start c).run voteAboveOps).step
            .restart).consensus.db.getPrevNotarizedBlock 1 =
          some (quadBlock none 0 [0]) := by decide +kernel
  obtain ⟨c, hinit, hops, hshown, hprev⟩ := Outcome.returns_iff.mp hrun
  exact ⟨c, hinit, published_vote_binds hinit hops
    ⟨_, hshown, List.mem_singleton_self _⟩ hprev⟩

/-- The node votes for a proposal of round 1 that extends nothing, then the block
of round 0 comes in late. -/
def voteBesideOps : List (NodeOp ListDigest PlainSig) :=
  timeOutRoundZero ++
  [.recvVote 1 (.proposal (signedBy 11 (quadBlock none 1 [1])) [1]), .voteTask,
   .deliver 0, .recvNotarized quadZero]

/-- A restart vouches for the block of round 0 after that. -/
theorem restart_vouches_for_late_block :
    ¬ ∀ (c : Consensus ListDigest PlainSig)
        (ops ops' : List (NodeOp ListDigest PlainSig))
        (op : NodeOp ListDigest PlainSig) (F : BlockRound)
        (b : BlockHeader ListDigest),
      init (plainParams quadKeys) Db.empty (some 10) none = .ok c →
      Publishes ((start c).run ops).consensus
        (((start c).run ops).step op).consensus F →
      (((start c).run ops).step op).consensus.db.getPrevNotarizedBlock F = some b →
      Binds b F (((start c).run ops).step op) ops' := by
  intro h
  have hrun : (init (plainParams quadKeys) (Db.empty : Db ListDigest PlainSig)
      (some 10) none).Returns fun c =>
        (((start c).run voteBesideOps).step
            .restart).consensus.trace.finalitySelfVote =
          ((start c).run voteBesideOps).consensus.trace.finalitySelfVote ++ [1] ∧
        (((start c).run voteBesideOps).step
            .restart).consensus.db.getPrevNotarizedBlock 1 =
          some (quadBlock none 0 [0]) ∧
        quadBlock none 1 [1] ∈
          (((start c).run voteBesideOps).step .restart).cast := by
    decide +kernel
  obtain ⟨c, hinit, hshown, hprev, hcast⟩ := Outcome.returns_iff.mp hrun
  have hbinds := h c voteBesideOps [] .restart 1 _ hinit
    ⟨_, hshown, List.mem_singleton_self _⟩ hprev
  rcases hbinds _ hcast (by decide) (le_refl _) with hdesc | ⟨_, hpre, hnot, _⟩
  · have hext : (quadBlock none 1 [1]).Extends none := by decide
    refine not_descends_of_extends hext ?_ ?_ hdesc
    · rintro q ⟨⟩
    · decide
  · rw [List.prefix_nil.mp hpre] at hnot
    exact hnot hcast

end LateBlock

end Node

end Bfte
