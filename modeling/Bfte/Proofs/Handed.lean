import Bfte.App.Federation
import Bfte.Proofs.ApplyAhead
import Bfte.Proofs.Nodes

/-!
# What the app is handed

The app asks for a round and is handed the first notarized block from there on, as
soon as that is final; then it asks for the round after the block. In between, blocks
come and go in the table: the latest one may be replaced, and one may be notarized in
the current round. All of that happens above what the app has asked for, so what it
is handed next follows the block it was handed last, if that is still an ancestor.

For this the chain need not be whole. It is enough that a block is never stored
without its parent, or something later, below it.
-/

namespace Bfte

namespace Consensus

variable {D S : Type} [LinearOrder D] [Hashing D]

/-! ## Parents -/

/-- Below a block that has a parent there is the parent, or something later. The
parent of the stored proposal may have been replaced by something later. -/
structure Rooted (db : Db D S) : Prop where
  notarized : ∀ r b parent, db.consBlocksNotarized.get? r = some b →
    b.Extends (some parent) →
      ∃ k e, db.consBlocksNotarized.get? k = some e ∧ parent.round ≤ k ∧ k < r
  proposal : ∀ b parent, db.consBlocksProposals.get? db.getCurrentRound = some b →
    b.Extends (some parent) →
      ∃ k e, db.consBlocksNotarized.get? k = some e ∧ parent.round ≤ k

theorem Rooted.congr {db db' : Db D S} (hsame : SameBlocks db db')
    (h : Rooted db) : Rooted db' where
  notarized := by
    rw [hsame.notarized]
    exact h.notarized
  proposal := by
    rw [hsame.notarized, hsame.proposals, hsame.getCurrentRound]
    exact h.proposal

/-- What `Rooted` says of notarized blocks, for any table of blocks. -/
def TableRooted (t : SortedTable BlockRound (BlockHeader D)) : Prop :=
  ∀ r b parent, t.get? r = some b → b.Extends (some parent) →
    ∃ k e, t.get? k = some e ∧ parent.round ≤ k ∧ k < r

section TableRooted

variable {t : SortedTable BlockRound (BlockHeader D)}

theorem TableRooted.insert (h : TableRooted t) {r : BlockRound} {block : BlockHeader D}
    (hfree : t.get? r = none) (hblock : ∀ parent, block.Extends (some parent) →
      ∃ k e, t.get? k = some e ∧ parent.round ≤ k ∧ k < r) :
    TableRooted (t.insert r block) := by
  have hkeep : ∀ {k e}, t.get? k = some e → (t.insert r block).get? k = some e := by
    intro k e he
    rw [SortedTable.get?_insert_of_ne, he]
    rintro rfl
    rw [hfree] at he
    cases he
  intro r' b parent hb hext
  rcases SortedTable.get?_insert_eq_some hb with ⟨rfl, rfl⟩ | hold
  · obtain ⟨k, e, he, hle, hlt⟩ := hblock parent hext
    exact ⟨k, e, hkeep he, hle, hlt⟩
  · obtain ⟨k, e, he, hle, hlt⟩ := h r' b parent hold hext
    exact ⟨k, e, hkeep he, hle, hlt⟩

/-- No other block stands on the latest one. -/
theorem TableRooted.remove_latest (h : TableRooted t) {r : BlockRound}
    (hlatest : ∀ k e, t.get? k = some e → k ≤ r) : TableRooted (t.remove r) := by
  intro r' b parent hb hext
  obtain ⟨_, hold⟩ := SortedTable.get?_remove_eq_some.mp hb
  obtain ⟨k, e, he, hle, hlt⟩ := h r' b parent hold hext
  have hne : k ≠ r := ne_of_lt (lt_of_lt_of_le hlt (hlatest r' b hold))
  exact ⟨k, e, SortedTable.get?_remove_eq_some.mpr ⟨hne, he⟩, hle, hlt⟩

end TableRooted

theorem Closed.rooted {c c' : Consensus D S} {v : RoundEnd D S} (h : Closed c v c')
    (hinv : BlockInv c.db) (hbounded : ∀ r b,
      c.db.consBlocksNotarized.get? r = some b → r < BlockRound.MAX)
    (hrooted : Rooted c.db) : Rooted c'.db where
  notarized := by
    rw [h.notarized_eq]
    have hn := h.loop.notarizes
    generalize v.newLastNotarizedRound = last at hn
    generalize v.db = vdb at hn ⊢
    cases hn with
    | nothing => exact hrooted.notarized
    | received => exact hrooted.notarized
    | voted params p hbelow hlt hparams hp hround hdummy =>
        -- nothing is notarized from the current round on
        have hlater : ∀ k e, c.db.consBlocksNotarized.get? k = some e →
            k < c.db.getCurrentRound := by
          intro k e he
          obtain ⟨b, hb, hle⟩ :=
            notarized_le_highest hinv.round_eq he (hbounded k e he)
          exact lt_of_le_of_lt hle (hbelow b hb)
        have hfree : c.db.consBlocksNotarized.get? c.db.getCurrentRound = none :=
          Option.eq_none_iff_forall_ne_some.mpr fun e he =>
            absurd (hlater _ e he) (lt_irrefl _)
        refine TableRooted.insert hrooted.notarized hfree fun parent hext => ?_
        obtain ⟨k, e, he, hle⟩ := hrooted.proposal p parent hp hext
        exact ⟨k, e, he, hle, hlater k e he⟩
  proposal b parent hb hext := by
    rcases eq_or_lt_of_le h.cur_le with hstill | hmoved
    · rw [h.proposals_eq, ← hstill] at hb
      obtain ⟨k, e, he, hle⟩ := hrooted.proposal b parent hb hext
      exact ⟨k, e, h.notarized_mono hinv he, hle⟩
    · rw [h.proposal_none hinv hmoved] at hb
      cases hb

/-! ## Rounds without a block -/

omit [Hashing D] in
/-- Nothing is notarized from `place` up to the round, and if that is further on,
something is from there on. -/
structure Skipped (db : Db D S) (place r : BlockRound) : Prop where
  place_le : place ≤ r
  reached : r = place ∨ ∃ k e, db.consBlocksNotarized.get? k = some e ∧ r ≤ k
  gap : ∀ k e, db.consBlocksNotarized.get? k = some e → place ≤ k → r ≤ k

omit [Hashing D] in
theorem Skipped.refl (db : Db D S) (place : BlockRound) : Skipped db place place :=
  ⟨le_rfl, Or.inl rfl, fun _ _ _ h => h⟩

/-- On to the first block from the round on. -/
theorem Skipped.next {db : Db D S} {place r : BlockRound} {b : BlockHeader D}
    (h : Skipped db place r) (hinv : BlockInv db)
    (hb : db.getNextNotarizedBlock r = some b) :
    db.consBlocksNotarized.get? b.round = some b ∧ r ≤ b.round ∧
      Skipped db place b.round := by
  obtain ⟨hget, hle, hmin⟩ := hinv.next_spec hb
  refine ⟨hget, hle, h.place_le.trans hle, Or.inr ⟨_, _, hget, le_rfl⟩, ?_⟩
  intro k e he hplace
  exact hmin k e he (h.gap k e he hplace)

/-! ## Steps -/

section Steps

variable [DecidableEq S] [Signing D S]

omit [DecidableEq S] in
theorem VoteIntake.rooted [CollisionFree D] {db db' : Db D S}
    {params : ConsensusParams D} {i : PeerIdx} {resp : WaitVoteResponse D S}
    (h : VoteIntake db params i resp db') (hinv : BoundedInv db)
    (hrooted : Rooted db) : Rooted db' where
  notarized := by
    rw [h.notarized_eq]
    exact hrooted.notarized
  proposal b parent hb hext := by
    rw [h.curRound] at hb
    rw [h.notarized_eq]
    rcases h.proposal_cases hb with hold | ⟨_, _, _, _, hlatest, _⟩
    · exact hrooted.proposal b parent hold hext
    · have hprev := hlatest.unique hext
      have hget := hinv.prev_mem hprev
      exact ⟨parent.round, parent, hget, le_rfl⟩

omit [DecidableEq S] [Signing D S] in
theorem NotarizedIntake.rooted [CollisionFree D] {db db' : Db D S}
    {resp : WaitNotarizedBlockResponse D S} (h : NotarizedIntake db resp db')
    (hinv : BoundedInv db) (hrooted : Rooted db) : Rooted db' where
  notarized := by
    have hadopted := h.adopted
    generalize db'.consBlocksNotarized = t at hadopted
    cases hadopted with
    | unchanged => exact hrooted.notarized
    | extended hlater hext hfree =>
        refine TableRooted.insert hrooted.notarized hfree fun parent hparent => ?_
        have hget := hinv.prev_mem (hext.unique hparent)
        exact ⟨parent.round, parent, hget, le_rfl, hparent.round_lt⟩
    | replaced latest hlatest hlater hext hfree =>
        have hrest : TableRooted (db.consBlocksNotarized.remove latest.round) :=
          TableRooted.remove_latest hrooted.notarized fun k e he =>
            hinv.le_of_latest hlatest he
        refine hrest.insert hfree fun parent hparent => ?_
        obtain ⟨hget, hlt, _⟩ :=
          (getPrevNotarizedBlock_eq_some hinv.round_eq).mp (hext.unique hparent)
        exact ⟨parent.round, parent, SortedTable.get?_remove_eq_some.mpr
          ⟨ne_of_lt hlt, hget⟩, le_rfl, hparent.round_lt⟩
    | dropped latest hlatest hlater hfull =>
        obtain ⟨b, hb⟩ := Option.isSome_iff_exists.mp hfull
        exact absurd hlater (not_lt.mpr (hinv.le_of_latest hlatest hb))
  proposal b parent hb hext := by
    rw [h.proposals_eq, h.curRound] at hb
    obtain ⟨k, e, he, hle⟩ := hrooted.proposal b parent hb hext
    obtain ⟨k', e', he', hle'⟩ := h.adopted.notarized_le he
    exact ⟨k', e', he', hle.trans hle'⟩

theorem step_rooted [CollisionFree D] (c : Consensus D S) (op : ConsensusOp D S)
    (hinv : BoundedInv c.db) (hrooted : Rooted c.db) (hg : BelowLast c op) :
    Rooted (c.step op).db := by
  obtain ⟨c₁, hphase, hblock, hend⟩ := step_closed c op hinv.toRoundInv
  have hbounded := hphase.bounded hinv hg
  have hrooted₁ : Rooted c₁.db := by
    cases hphase with
    | same => exact hrooted
    | vote i resp params db _ hin => exact hin.rooted hinv hrooted
    | notarized resp params db _ _ hin => exact hin.rooted hinv hrooted
    | finality k resp c₁ hf => exact hrooted.congr hf.sameBlocks
    | paramsChange => exact hrooted.congr (insertConsensusParams_sameBlocks _ _ _)
    | reopen fs c₁ hf =>
        have hsame : SameBlocks c.db c₁.db := hf.sameBlocks
        exact hrooted.congr hsame
  rcases hend with ⟨hstop, _⟩ | ⟨v, hv⟩
  · rw [hstop]
    exact hrooted₁
  · exact hv.rooted hblock hbounded hrooted₁

/-- A proposal that is new extends the latest block. -/
theorem step_proposal_extends (c : Consensus D S) (op : ConsensusOp D S)
    (hround : RoundInv c.db) {r : BlockRound} {b : BlockHeader D}
    (hb : (c.step op).db.consBlocksProposals.get? r = some b) :
    c.db.consBlocksProposals.get? r = some b ∨ (r = c.db.getCurrentRound ∧
      b.Extends (c.db.getPrevNotarizedBlock c.db.getCurrentRound)) := by
  rcases step_proposals c op hround with heq | ⟨i, resp, params, db, _, _, hin, heq⟩
  · rw [heq] at hb
    exact Or.inl hb
  · rw [heq] at hb
    rcases hin.proposal_cases hb with hold | ⟨rfl, _, _, _, hext, _⟩
    · exact Or.inl hold
    · exact Or.inr ⟨rfl, hext⟩

/-- A notarized block that is new is later than all there were. -/
theorem step_notarized_new (c : Consensus D S) (op : ConsensusOp D S)
    (hinv : BoundedInv c.db) {r : BlockRound} {b : BlockHeader D}
    (hb : (c.step op).db.consBlocksNotarized.get? r = some b) :
    c.db.consBlocksNotarized.get? r = some b ∨
      ∀ r' b', c.db.consBlocksNotarized.get? r' = some b' → r' < r := by
  rcases step_notarized_cases c op hinv.toRoundInv hb with hold | rfl |
    ⟨resp, _, rfl, _, _, htakes⟩
  · exact Or.inl hold
  · exact Or.inr fun r' b' hb' => hinv.lt_cur hb'
  · refine Or.inr fun r' b' hb' => ?_
    obtain ⟨latest, hlatest, hle⟩ := hinv.le_latest hb'
    exact hle.trans_lt (htakes.1 latest hlatest)

theorem Skipped.step {c : Consensus D S} {place r : BlockRound}
    (h : Skipped c.db place r) (op : ConsensusOp D S) (hinv : BoundedInv c.db) :
    Skipped (c.step op).db place r where
  place_le := h.place_le
  reached := by
    refine h.reached.imp_right ?_
    rintro ⟨k, e, he, hle⟩
    obtain ⟨k', e', he', hle'⟩ := step_notarized_le c op hinv.toRoundInv he
    exact ⟨k', e', he', hle.trans hle'⟩
  gap k e he hplace := by
    rcases h.reached with rfl | ⟨k', e', he', hle⟩
    · exact hplace
    · rcases step_notarized_new c op hinv he with hold | hnew
      · exact h.gap k e hold hplace
      · exact hle.trans (hnew k' e' he').le

end Steps

end Consensus

open Consensus

variable {D S X : Type} [LinearOrder D] [Hashing D]
  {decode : BlockPayloadRaw → Option (List (CItem X))}

/-! ## The app -/

namespace Peer

/-- The block that is handed out next, if the call is about to. -/
def handsOut (p : Peer D S) : Option (BlockHeader D) :=
  match p.block, p.waiting with
  | none, some (.nextBlock reqRound curConsensus curSelfVote) =>
      (p.db.getNextNotarizedBlock reqRound).filter fun b =>
        decide (b.round < curConsensus ∧ b.round < curSelfVote)
  | _, _ => none

/-- What a step of the app can do. -/
inductive AppCase (p : Peer D S) : Peer D S → Prop
  | idle : AppCase p p
  | finished (b : BlockHeader D) (hb : p.block = some b) :
      AppCase p { p with place := b.round + 1, block := none }
  | asks (hblock : p.block = none) : AppCase p (p.request p.place)
  | waits (wait wait' : Waiting) (hblock : p.block = none)
      (hwaiting : p.waiting = some wait) (hreq : wait'.reqRound = wait.reqRound) :
      AppCase p { p with waiting := some wait' }
  | asksAgain (wait : Waiting) (b : BlockHeader D) (hblock : p.block = none)
      (hwaiting : p.waiting = some wait)
      (hnext : p.db.getNextNotarizedBlock wait.reqRound = some b) :
      AppCase p (p.request b.round)
  | hands (wait : Waiting) (b : BlockHeader D) (hblock : p.block = none)
      (hwaiting : p.waiting = some wait)
      (hnext : p.db.getNextNotarizedBlock wait.reqRound = some b)
      (hout : p.handsOut = some b) : AppCase p (p.hand b)

theorem nextApp_appCase {p p' : Peer D S} (h : p.nextApp decode = .ok p') :
    AppCase p p' := by
  unfold nextApp at h
  split at h
  · next hb =>
      simp only [finishBlock, Outcome.bind_eq_ok, Outcome.pure_eq_ok] at h
      obtain ⟨round, hround, rfl⟩ := h
      obtain ⟨_, rfl⟩ := BlockRound.nextExpect_eq_ok.mp hround
      exact .finished _ hb
  · next wait hblock hwaiting =>
      cases wait with
      | finalityConsensus reqRound =>
          cases h
          split
          · exact .waits _ _ hblock hwaiting rfl
          · exact .idle
      | finalitySelfVote reqRound cur =>
          cases h
          split
          · exact .waits _ _ hblock hwaiting rfl
          · exact .idle
      | nextBlock reqRound cur curSelf =>
          simp only [ackAndWaitNextBlock, Outcome.bind_eq_ok,
            Outcome.expect_eq_ok] at h
          obtain ⟨b, hnext, h⟩ := h
          split at h
          · next hfinal =>
              simp only [Outcome.bind_eq_ok, Outcome.pure_eq_ok] at h
              obtain ⟨fb, hfb, rfl⟩ := h
              rw [AppNode.finalizedBlock_header hfb]
              refine .hands _ b hblock hwaiting hnext ?_
              unfold handsOut
              rw [hblock, hwaiting]
              exact Option.filter_eq_some_iff.mpr ⟨hnext, decide_eq_true hfinal⟩
          · cases h
            exact .asksAgain _ b hblock hwaiting hnext
  · next hblock hwaiting =>
      cases h
      exact .asks hblock

/-- The round the app goes on to after a block. -/
def roundAfter : Option (BlockHeader D) → BlockRound
  | none => 0
  | some b => b.round + 1

/-- The blocks handed out form a chain, and the app asks for the round after the last
of them, or still for that one. -/
structure Ordered (p : Peer D S) : Prop where
  chain : Lineage.ChainFrom BlockHeader.Extends none p.handed
  idle : p.block.isSome = true → p.waiting = none
  waiting : ∀ wait, p.waiting = some wait → Skipped p.db p.place wait.reqRound
  place : (p.block = none ∧ p.place = roundAfter p.handed.getLast?) ∨
    ∃ l b, p.handed = l ++ [b] ∧ p.place = roundAfter l.getLast? ∧
      Skipped p.db p.place b.round ∧ ∀ b', p.block = some b' → b' = b

theorem start_ordered (c : Consensus D S) : (start c).Ordered where
  chain := trivial
  idle h := by cases h
  waiting _ h := by cases h
  place := Or.inl ⟨rfl, rfl⟩

/-- A block is handed out that extends the last one, or the last one again. -/
theorem Ordered.hand {p : Peer D S} (h : p.Ordered) {b : BlockHeader D}
    (hskip : Skipped p.db p.place b.round)
    (hnext : p.place = roundAfter p.handed.getLast? → b.Extends p.handed.getLast?)
    (hagain : ∀ b', p.handed.getLast? = some b' → Skipped p.db p.place b'.round →
      b = b') : (p.hand b).Ordered := by
  rcases h.place with ⟨_, hp⟩ | ⟨l, b', hl, hp, hs, _⟩
  · have hext := hnext hp
    have hne : p.handed.getLast? ≠ some b := by
      intro hlast
      rw [hlast] at hext
      exact absurd hext.round_lt (lt_irrefl _)
    have hhanded : (p.hand b).handed = p.handed ++ [b] := if_neg hne
    refine ⟨?_, fun _ => rfl, nofun, Or.inr ⟨p.handed, b, hhanded, hp, hskip, ?_⟩⟩
    · rw [hhanded]
      exact Lineage.chainFrom_snoc.mpr ⟨h.chain, by rw [Option.or_none]; exact hext⟩
    · rintro _ ⟨⟩
      rfl
  · have hlast : p.handed.getLast? = some b' := by
      rw [hl]
      exact List.getLast?_concat
    have hsame := hagain b' hlast hs
    rw [← hsame] at hl hlast
    have hhanded : (p.hand b).handed = p.handed := if_pos hlast
    refine ⟨?_, fun _ => rfl, nofun, Or.inr ⟨l, b, hhanded.trans hl, hp, hskip, ?_⟩⟩
    · rw [hhanded]
      exact h.chain
    · rintro _ ⟨⟩
      rfl

theorem AppCase.ordered {p p' : Peer D S} (hcase : AppCase p p') (h : p.Ordered)
    (hinv : BlockInv p.db)
    (hhands : ∀ b, p.block = none → p.handsOut = some b →
      p.db.consBlocksNotarized.get? b.round = some b →
      Skipped p.db p.place b.round → (p.hand b).Ordered) : p'.Ordered := by
  have hbusy : p.block = none → ¬ p.block.isSome = true := fun hnone => by
    rw [hnone]
    exact Bool.false_ne_true
  cases hcase with
  | idle => exact h
  | finished b hb =>
      have hwaiting := h.idle (by rw [hb]; rfl)
      refine ⟨h.chain, nofun, fun wait hw => ?_, ?_⟩
      · rw [show p.waiting = some wait from hw] at hwaiting
        cases hwaiting
      · rcases h.place with ⟨hnone, _⟩ | ⟨l, b', hl, _, _, hb'⟩
        · rw [hnone] at hb
          cases hb
        · refine Or.inl ⟨rfl, ?_⟩
          show b.round + 1 = roundAfter p.handed.getLast?
          rw [hl, List.getLast?_concat, hb' b hb]
          rfl
  | asks hblock =>
      refine ⟨h.chain, fun hsome => absurd hsome (hbusy hblock), ?_, h.place⟩
      rintro _ ⟨⟩
      exact .refl _ _
  | waits wait wait' hblock hwaiting hreq =>
      refine ⟨h.chain, fun hsome => absurd hsome (hbusy hblock), ?_, h.place⟩
      rintro _ ⟨⟩
      rw [hreq]
      exact h.waiting wait hwaiting
  | asksAgain wait b hblock hwaiting hnext =>
      refine ⟨h.chain, fun hsome => absurd hsome (hbusy hblock), ?_, h.place⟩
      rintro _ ⟨⟩
      exact ((h.waiting wait hwaiting).next hinv hnext).2.2
  | hands wait b hblock hwaiting hnext hout =>
      obtain ⟨hget, _, hskip⟩ := (h.waiting wait hwaiting).next hinv hnext
      exact hhands b hblock hout hget hskip

variable [DecidableEq S] [Signing D S]

variable (decode) in
theorem step_appCase (p : Peer D S) : AppCase p (p.step decode .app) := by
  unfold step
  dsimp only
  cases h : p.nextApp decode with
  | ok p' => exact nextApp_appCase h
  | error _ => exact .idle

theorem Ordered.node {p : Peer D S} (h : p.Ordered) (hinv : BoundedInv p.db)
    (op : NodeOp D S) : (p.step decode (.node op)).Ordered := by
  have hskip : ∀ {place r}, Skipped p.db place r →
      Skipped (p.step decode (.node op)).db place r := by
    intro place r hs
    have hnode : (p.step decode (.node op)).node = p.node.step op := by
      cases op <;> rfl
    rw [Peer.db, hnode]
    rcases Node.step_consensus p.node op with heq | ⟨cop, heq⟩
    · rw [heq]
      exact hs
    · rw [heq]
      exact hs.step cop hinv
  cases op with
  | restart =>
      refine ⟨h.chain, nofun, nofun, ?_⟩
      rcases h.place with ⟨_, hp⟩ | ⟨l, b, hl, hp, hs, _⟩
      · exact Or.inl ⟨rfl, hp⟩
      · exact Or.inr ⟨l, b, hl, hp, hskip hs, nofun⟩
  | _ =>
      refine ⟨h.chain, h.idle, fun wait hw => hskip (h.waiting wait hw), ?_⟩
      rcases h.place with hp | ⟨l, b, hl, hp, hs, hb⟩
      · exact Or.inl hp
      · exact Or.inr ⟨l, b, hl, hp, hskip hs, hb⟩

end Peer

end Bfte
