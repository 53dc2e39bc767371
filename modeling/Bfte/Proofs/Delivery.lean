import Mathlib.Order.Bounds.Basic
import Bfte.Proofs.Handed

/-!
# Delivery neither skips nor repeats

`ack_and_wait_next_block` waits for two channels one after the other, reads the table
of notarized blocks when both have passed the round it asks for, and asks again, for
the round of the block it found, if that is not final. In between the consensus
commits whatever it likes. The block the call asked for last may be gone when it is
back, replaced by a later one.

What the call passes over stays empty: a block that is new is later than all that are
stored, and what is replaced is replaced by something later. And the own finality vote
is the round after a block at most, so there is something to read.
-/

namespace Bfte

/-- Something that happens while the app is out for blocks: the consensus commits a
transaction, or the app goes on. -/
inductive DeliveryOp (D S : Type) where
  | commit (op : ConsensusOp D S)
  | app

namespace Consensus

variable {D S : Type} [LinearOrder D]

/-- The round is 0, or not past the round after a notarized block. -/
def Covered (db : Db D S) (v : BlockRound) : Prop :=
  v = 0 ∨ ∃ r b, db.consBlocksNotarized.get? r = some b ∧ v ≤ r + 1

theorem Covered.mono {db db' : Db D S} {v : BlockRound} (h : Covered db v)
    (hle : ∀ r b, db.consBlocksNotarized.get? r = some b →
      ∃ r' b', db'.consBlocksNotarized.get? r' = some b' ∧ r ≤ r') : Covered db' v := by
  refine h.imp_right ?_
  rintro ⟨r, b, hb, hv⟩
  obtain ⟨r', b', hb', hr⟩ := hle r b hb
  exact ⟨r', b', hb', hv.trans (Nat.succ_le_succ hr)⟩

/-- Below such a round there is a block for the next one asked for. -/
theorem Covered.found {db : Db D S} {v r : BlockRound} (h : Covered db v) (hlt : r < v) :
    (db.getNextNotarizedBlock r).isSome = true := by
  rcases h with rfl | ⟨k, b, hb, hle⟩
  · exact absurd hlt (Nat.not_lt_zero r)
  · unfold Db.getNextNotarizedBlock
    rw [Option.isSome_map]
    cases hfirst : db.consBlocksNotarized.firstFrom r with
    | some e => rfl
    | none =>
        have hnone := SortedTable.firstFrom_eq_none.mp hfirst k b hb
        exact absurd hnone (not_lt.mpr (Nat.le_of_lt_succ (hlt.trans_le hle)))

variable [Hashing D]

theorem BoundedInv.covered_afterHighest {db : Db D S} (h : BoundedInv db) :
    Covered db (afterHighest db) := by
  rw [h.afterHighest_eq]
  cases hprev : db.getPrevNotarizedBlock db.getCurrentRound with
  | none => exact Or.inl rfl
  | some b => exact Or.inr ⟨b.round, b, h.prev_mem hprev, le_rfl⟩

/-- What the round check publishes is the round after a block. -/
theorem Closed.covered {c c' : Consensus D S} {v : RoundEnd D S} (h : Closed c v c')
    (hinv : BlockInv c.db) (hself : Covered c.db c.finalitySelfVote) :
    Covered c'.db c'.finalitySelfVote := by
  have hkeep : ∀ r b, c.db.consBlocksNotarized.get? r = some b →
      ∃ r' b', c'.db.consBlocksNotarized.get? r' = some b' ∧ r ≤ r' :=
    fun r b hb => ⟨r, b, h.notarized_mono hinv hb, le_rfl⟩
  have hn := h.loop.notarizes
  have hended := h.ended.self
  have hblocks := h.notarized_eq
  generalize v.newLastNotarizedRound = last at hn hended
  generalize v.db = vdb at hn hblocks
  rw [hended]
  cases hn with
  | nothing => exact hself.mono hkeep
  | received b hb =>
      exact Or.inr ⟨b.round, b, h.notarized_mono hinv (hinv.prev_mem hb), le_rfl⟩
  | voted params p =>
      refine Or.inr ⟨c.db.getCurrentRound, p, ?_, le_rfl⟩
      rw [hblocks]
      exact SortedTable.get?_insert_self _ _ _

section Steps

variable [DecidableEq S] [Signing D S]

omit [DecidableEq S] in
/-- Before the round check, only a restart changes the own finality vote. -/
theorem Phase.self {c c₁ : Consensus D S} {op : ConsensusOp D S} (h : Phase c op c₁)
    (hop : op ≠ .reopen) : c₁.finalitySelfVote = c.finalitySelfVote := by
  cases h with
  | finality k resp c₁ hf => exact hf.self
  | reopen => exact absurd rfl hop
  | _ => rfl

theorem step_covered (c : Consensus D S) (op : ConsensusOp D S) (hinv : BoundedInv c.db)
    (h : Covered c.db c.finalitySelfVote) :
    Covered (c.step op).db (c.step op).finalitySelfVote := by
  by_cases hop : op = .reopen
  · subst hop
    refine commit_induct (P := fun c' => Covered c'.db c'.finalitySelfVote) h ?_
    intro c' hopen
    obtain ⟨fs, c₁, hfs, hf, hcheck⟩ := openInternal_ok (reopen_ok hopen)
    have hsame : SameBlocks c.db c₁.db := hf.sameBlocks
    have hblock := hinv.toBlockInv.congr hsame
    obtain ⟨v, hv⟩ := checkRoundEnd_closed hblock hcheck
    refine hv.covered hblock ?_
    rw [finalitySelf_ok hinv] at hfs
    have hself : c₁.finalitySelfVote = afterHighest c.db :=
      hf.self.trans (Except.ok.inj hfs).symm
    rw [hself]
    refine hinv.covered_afterHighest.mono fun r b hb => ⟨r, b, ?_, le_rfl⟩
    rw [hsame.notarized]
    exact hb
  · obtain ⟨c₁, hphase, hblock, hend⟩ := step_closed c op hinv.toRoundInv
    have hcovered : Covered c₁.db c₁.finalitySelfVote := by
      rw [hphase.self hop]
      refine h.mono fun r b hb => ?_
      rcases hphase.notarized_cases with heq | ⟨resp, _, _, hadopted⟩
      · exact ⟨r, b, by rw [heq]; exact hb, le_rfl⟩
      · exact hadopted.notarized_le hb
    rcases hend with ⟨hstop, _⟩ | ⟨v, hv⟩
    · rw [hstop]
      exact hcovered
    · exact hv.covered hblock hcovered

end Steps

end Consensus

open Consensus

variable {D S X : Type} [LinearOrder D]

/-- What the channels showed the call is still not more than they show. -/
def Waiting.Shown (c : Consensus D S) : Waiting → Prop
  | .finalityConsensus _ => True
  | .finalitySelfVote reqRound cur => reqRound < cur ∧ cur ≤ c.finalityConsensus
  | .nextBlock reqRound cur curSelf => reqRound < cur ∧ cur ≤ c.finalityConsensus ∧
      reqRound < curSelf ∧ curSelf ≤ c.finalitySelfVote

theorem Waiting.Shown.mono {c c' : Consensus D S} {w : Waiting} (h : w.Shown c)
    (hcons : c.finalityConsensus ≤ c'.finalityConsensus)
    (hself : c.finalitySelfVote ≤ c'.finalitySelfVote) : w.Shown c' := by
  cases w with
  | finalityConsensus => trivial
  | finalitySelfVote => exact ⟨h.1, h.2.trans hcons⟩
  | nextBlock => exact ⟨h.1, h.2.1.trans hcons, h.2.2.1, h.2.2.2.trans hself⟩

namespace Peer

/-- The app is about to ask for a round. -/
def asking (c : Consensus D S) (req : BlockRound) : Peer D S :=
  { start c with place := req }

variable [Hashing D] [DecidableEq S] [Signing D S]
  (decode : BlockPayloadRaw → Option (List (CItem X)))

/-- One op. -/
def deliver (p : Peer D S) : DeliveryOp D S → Peer D S
  | .commit op =>
      { p with node := { p.node with consensus := p.node.consensus.step op } }
  | .app => p.step decode .app

/-- Neither finality value falls. -/
def Grows (p : Peer D S) (op : DeliveryOp D S) : Prop :=
  p.node.consensus.finalityConsensus ≤
      (p.deliver decode op).node.consensus.finalityConsensus ∧
    p.node.consensus.finalitySelfVote ≤
      (p.deliver decode op).node.consensus.finalitySelfVote

instance (p : Peer D S) (op : DeliveryOp D S) : Decidable (p.Grows decode op) :=
  inferInstanceAs (Decidable (_ ∧ _))

/-- No block of the last round number is taken. -/
def CommitsBelowLast (p : Peer D S) : DeliveryOp D S → Prop
  | .commit op => BelowLast p.node.consensus op
  | .app => True

instance (p : Peer D S) (op : DeliveryOp D S) : Decidable (p.CommitsBelowLast op) :=
  match op with
  | .commit _ => inferInstanceAs (Decidable (BelowLast _ _))
  | .app => .isTrue trivial

/-- The call is about to return a block. -/
def Returns (p : Peer D S) (b : BlockHeader D) : Prop :=
  p.block = none ∧ (p.step decode .app).block = some b

/-- Delivery is in order, for an app that began by asking for `req`. The round that
the app is asking for now is `place`. -/
structure Seamless (req : BlockRound) (p : Peer D S) : Prop where
  /-- When the call reads the table there is a block for it. -/
  found : ∀ reqRound cur curSelf, p.waiting = some (.nextBlock reqRound cur curSelf) →
    (p.db.getNextNotarizedBlock reqRound).isSome = true
  /-- The block it returns is stored, and the lowest from the round asked for. -/
  lowest : ∀ b, p.Returns decode b →
    p.db.consBlocksNotarized.get? b.round = some b ∧
      IsLeast {r | p.place ≤ r ∧ (p.db.consBlocksNotarized.get? r).isSome = true} b.round
  final : ∀ b, p.Returns decode b →
    b.round < p.node.consensus.finalityConsensus ∧
      b.round < p.node.consensus.finalitySelfVote
  /-- It is later than all that were handed out before. -/
  once : ∀ b, p.Returns decode b → ∀ b' ∈ p.handed, b'.round < b.round
  ordered : p.handed.Pairwise fun b b' => b.round < b'.round
  /-- No block that is stored was passed over. -/
  unskipped : ∀ r b, p.db.consBlocksNotarized.get? r = some b →
    req ≤ r → r < p.place → b ∈ p.handed

/-! ## What a step of the app does -/

variable {decode} {p p' : Peer D S}

omit [DecidableEq S] [Signing D S] in
/-- The call carries on what the channels have shown it. -/
theorem nextApp_shown (h : p.nextApp decode = .ok p')
    (hshown : ∀ w ∈ p.waiting, w.Shown p.node.consensus) :
    ∀ w ∈ p'.waiting, w.Shown p'.node.consensus := by
  unfold nextApp at h
  split at h
  · simp only [finishBlock, Outcome.bind_eq_ok, Outcome.pure_eq_ok] at h
    obtain ⟨round, _, rfl⟩ := h
    exact hshown
  · next wait _ hwaiting =>
      have hwait := hshown wait hwaiting
      cases wait with
      | finalityConsensus reqRound =>
          cases h
          split
          · next hlt =>
              rintro _ ⟨⟩
              exact ⟨hlt, le_rfl⟩
          · exact hshown
      | finalitySelfVote reqRound cur =>
          cases h
          split
          · next hlt =>
              rintro _ ⟨⟩
              exact ⟨hwait.1, hwait.2, hlt, le_rfl⟩
          · exact hshown
      | nextBlock reqRound cur curSelf =>
          simp only [ackAndWaitNextBlock, Outcome.bind_eq_ok] at h
          obtain ⟨b, _, h⟩ := h
          split at h
          · simp only [Outcome.bind_eq_ok, Outcome.pure_eq_ok] at h
            obtain ⟨fb, _, rfl⟩ := h
            rintro _ ⟨⟩
          · cases h
            rintro _ ⟨⟩
            trivial
  · cases h
    rintro _ ⟨⟩
    trivial

theorem step_shown (hshown : ∀ w ∈ p.waiting, w.Shown p.node.consensus) :
    ∀ w ∈ (p.step decode .app).waiting,
      w.Shown (p.step decode .app).node.consensus := by
  unfold step
  dsimp only
  cases h : p.nextApp decode with
  | ok p' => exact nextApp_shown h hshown
  | error _ => exact hshown

omit [Hashing D] [DecidableEq S] [Signing D S] in
/-- A block that is handed out is below what the channels have shown. -/
theorem handsOut_final {b : BlockHeader D} (hout : p.handsOut = some b)
    (hshown : ∀ w ∈ p.waiting, w.Shown p.node.consensus) :
    b.round < p.node.consensus.finalityConsensus ∧
      b.round < p.node.consensus.finalitySelfVote := by
  unfold handsOut at hout
  split at hout
  · next reqRound cur curSelf _ hwaiting =>
      obtain ⟨_, hcur, _, hself⟩ := hshown _ hwaiting
      have hfinal := of_decide_eq_true (Option.filter_eq_some_iff.mp hout).2
      exact ⟨hfinal.1.trans_le hcur, hfinal.2.trans_le hself⟩
  · cases hout

/-- The app comes by a block in one way only. -/
theorem Returns.hands {b : BlockHeader D} (h : p.Returns decode b) :
    ∃ wait, p.waiting = some wait ∧
      p.db.getNextNotarizedBlock wait.reqRound = some b ∧ p.handsOut = some b := by
  obtain ⟨hblock, hb⟩ := h
  have hcase := step_appCase decode p
  generalize p.step decode .app = p' at hcase hb
  cases hcase with
  | idle =>
      rw [hblock] at hb
      cases hb
  | finished => cases hb
  | asks =>
      have hnone : (p.request p.place).block = p.block := rfl
      rw [hnone, hblock] at hb
      cases hb
  | waits =>
      have hnone : p.block = some b := hb
      rw [hblock] at hnone
      cases hnone
  | asksAgain wait b' =>
      have hnone : (p.request b'.round).block = p.block := rfl
      rw [hnone, hblock] at hb
      cases hb
  | hands wait b' _ hwaiting hnext hout =>
      cases hb
      exact ⟨wait, hwaiting, hnext, hout⟩

/-! ## The invariant -/

/-- The round that the app is through up to. -/
def through (p : Peer D S) : BlockRound :=
  match p.block with
  | some b => b.round + 1
  | none => p.place

/-- What is handed out is what there is, from `req` on. -/
structure DeliveryInv (req : BlockRound) (p : Peer D S) : Prop where
  bounded : BoundedInv p.db
  covered : Covered p.db p.node.consensus.finalitySelfVote
  shown : ∀ w ∈ p.waiting, w.Shown p.node.consensus
  waiting : ∀ w, p.waiting = some w → p.block = none ∧ Skipped p.db p.place w.reqRound
  block : ∀ b, p.block = some b → p.place ≤ b.round
  handed : p.handed.Pairwise fun b b' => b.round < b'.round
  before : ∀ b ∈ p.handed, b.round < p.through
  reached : p.through = req ∨
    ∃ r b, p.db.consBlocksNotarized.get? r = some b ∧ p.through ≤ r + 1
  kept : ∀ r b, p.db.consBlocksNotarized.get? r = some b →
    req ≤ r → r < p.through → b ∈ p.handed

variable {req : BlockRound}

omit [Hashing D] [DecidableEq S] [Signing D S] in
theorem through_of_none (h : p.block = none) : p.through = p.place := by
  unfold through
  rw [h]

omit [DecidableEq S] [Signing D S] in
theorem DeliveryInv.place_le (h : DeliveryInv req p) : p.place ≤ p.through := by
  unfold through
  split
  · next b hb => exact (h.block b hb).trans (Nat.le_succ _)
  · exact le_rfl

theorem DeliveryInv.seamless (h : DeliveryInv req p) : p.Seamless decode req where
  found reqRound cur curSelf hwaiting :=
    h.covered.found ((h.shown _ hwaiting).2.2.1.trans_le (h.shown _ hwaiting).2.2.2)
  lowest b hb := by
    obtain ⟨wait, hwaiting, hnext, _⟩ := hb.hands
    obtain ⟨hget, _, hskip⟩ :=
      (h.waiting wait hwaiting).2.next h.bounded.toBlockInv hnext
    refine ⟨hget, ⟨hskip.place_le, by rw [hget]; rfl⟩, ?_⟩
    rintro r ⟨hle, hsome⟩
    obtain ⟨e, he⟩ := Option.isSome_iff_exists.mp hsome
    exact hskip.gap r e he hle
  final b hb := by
    obtain ⟨_, _, _, hout⟩ := hb.hands
    exact handsOut_final hout h.shown
  once b hb b' hb' := by
    obtain ⟨wait, hwaiting, hnext, _⟩ := hb.hands
    obtain ⟨_, _, hskip⟩ :=
      (h.waiting wait hwaiting).2.next h.bounded.toBlockInv hnext
    have hlt := h.before b' hb'
    rw [through_of_none hb.1] at hlt
    exact hlt.trans_le hskip.place_le
  ordered := h.handed
  unskipped r b hb hreq hlt := h.kept r b hb hreq (hlt.trans_le h.place_le)

/-! ## Steps -/

/-- What a commit does to the table leaves alone what the app is through with. -/
theorem DeliveryInv.commit (h : DeliveryInv req p) (op : ConsensusOp D S)
    (hbelow : BelowLast p.node.consensus op) (hgrows : p.Grows decode (.commit op)) :
    DeliveryInv req (p.deliver decode (.commit op)) where
  bounded := step_boundedInv _ op h.bounded hbelow
  covered := step_covered _ op h.bounded h.covered
  shown w hw := (h.shown w hw).mono hgrows.1 hgrows.2
  waiting w hw := ⟨(h.waiting w hw).1, (h.waiting w hw).2.step op h.bounded⟩
  block := h.block
  handed := h.handed
  before := h.before
  reached := by
    refine h.reached.imp_right ?_
    rintro ⟨r, b, hb, hle⟩
    obtain ⟨r', b', hb', hr⟩ := step_notarized_le _ op h.bounded.toRoundInv hb
    exact ⟨r', b', hb', hle.trans (Nat.succ_le_succ hr)⟩
  kept r b hb hreq hlt := by
    have hlt' : r < p.through := hlt
    rcases step_notarized_new _ op h.bounded hb with hold | hnew
    · exact h.kept r b hold hreq hlt'
    · rcases h.reached with heq | ⟨r', b', hb', hle⟩
      · rw [heq] at hlt'
        exact absurd hreq (not_le.mpr hlt')
      · have hlater := hnew r' b' hb'
        exact absurd (hlt'.trans_le hle) (not_lt.mpr hlater)

omit [DecidableEq S] [Signing D S] in
/-- The block handed out next follows all that were handed out. -/
theorem DeliveryInv.hand (h : DeliveryInv req p) {b : BlockHeader D}
    (hblock : p.block = none) (hget : p.db.consBlocksNotarized.get? b.round = some b)
    (hskip : Skipped p.db p.place b.round) : DeliveryInv req (p.hand b) := by
  have hbefore : ∀ b' ∈ p.handed, b'.round < b.round := by
    intro b' hb'
    have hlt := h.before b' hb'
    rw [through_of_none hblock] at hlt
    exact hlt.trans_le hskip.place_le
  have hnew : p.handed.getLast? ≠ some b := by
    intro hlast
    exact absurd (hbefore b (List.mem_of_getLast? hlast)) (lt_irrefl _)
  have hhanded : (p.hand b).handed = p.handed ++ [b] := if_neg hnew
  exact {
    bounded := h.bounded
    covered := h.covered
    shown := nofun
    waiting := nofun
    block := by
      rintro _ ⟨⟩
      exact hskip.place_le
    handed := by
      rw [hhanded]
      refine List.pairwise_append.mpr ⟨h.handed, List.pairwise_singleton _ _, ?_⟩
      intro b' hb' _ hmem
      rw [List.mem_singleton.mp hmem]
      exact hbefore b' hb'
    before := by
      rw [hhanded]
      intro b' hb'
      rcases List.mem_append.mp hb' with hold | hmem
      · exact (hbefore b' hold).trans (Nat.lt_succ_self _)
      · rw [List.mem_singleton.mp hmem]
        exact Nat.lt_succ_self _
    reached := Or.inr ⟨b.round, b, hget, le_rfl⟩
    kept := by
      intro r e he hreq hlt
      rw [hhanded]
      rcases lt_or_ge r p.place with hpast | hpresent
      · refine List.mem_append_left _ (h.kept r e he hreq ?_)
        rw [through_of_none hblock]
        exact hpast
      · -- nothing is stored between the round asked for and the block
        have hle := hskip.gap r e he hpresent
        have heq : r = b.round := le_antisymm (Nat.le_of_lt_succ hlt) hle
        rw [heq] at he
        have hsame := Option.some.inj (he.symm.trans hget)
        rw [hsame]
        exact List.mem_append_right _ List.mem_cons_self }

theorem DeliveryInv.app (h : DeliveryInv req p) :
    DeliveryInv req (p.step decode .app) := by
  have hshown : ∀ w ∈ (p.step decode .app).waiting,
      w.Shown (p.step decode .app).node.consensus := step_shown h.shown
  have hcase := step_appCase decode p
  generalize p.step decode .app = p' at hcase hshown
  cases hcase with
  | idle => exact h
  | finished b hb =>
      have hnone : p.waiting = none := by
        by_contra hsome
        obtain ⟨w, hw⟩ := Option.ne_none_iff_exists'.mp hsome
        rw [(h.waiting w hw).1] at hb
        cases hb
      have hthrough : p.through = b.round + 1 := by
        unfold through
        rw [hb]
      refine ⟨h.bounded, h.covered, hshown, fun w hw => ?_, nofun, h.handed, ?_, ?_, ?_⟩
      · rw [show p.waiting = some w from hw] at hnone
        cases hnone
      · have := h.before
        rw [hthrough] at this
        exact this
      · have := h.reached
        rw [hthrough] at this
        exact this
      · have := h.kept
        rw [hthrough] at this
        exact this
  | asks hblock =>
      refine { h with shown := hshown, waiting := ?_ }
      rintro _ ⟨⟩
      exact ⟨hblock, .refl _ _⟩
  | waits wait wait' hblock hwaiting hreq =>
      refine { h with shown := hshown, waiting := ?_ }
      rintro _ ⟨⟩
      rw [hreq]
      exact ⟨hblock, (h.waiting wait hwaiting).2⟩
  | asksAgain wait b hblock hwaiting hnext =>
      refine { h with shown := hshown, waiting := ?_ }
      rintro _ ⟨⟩
      exact ⟨hblock,
        ((h.waiting wait hwaiting).2.next h.bounded.toBlockInv hnext).2.2⟩
  | hands wait b hblock hwaiting hnext hout =>
      obtain ⟨hget, _, hskip⟩ :=
        (h.waiting wait hwaiting).2.next h.bounded.toBlockInv hnext
      exact h.hand hblock hget hskip

/-! ## Runs -/

omit [DecidableEq S] [Signing D S] in
theorem asking_inv {c : Consensus D S} (hinv : BoundedInv c.db)
    (hcovered : Covered c.db c.finalitySelfVote) :
    DeliveryInv req (asking c req) where
  bounded := hinv
  covered := hcovered
  shown := nofun
  waiting := nofun
  block := nofun
  handed := .nil
  before := nofun
  reached := Or.inl rfl
  kept _ _ _ hreq hlt := absurd hreq (not_le.mpr hlt)

/-- As long as no block of the last round number is taken and the finality values
grow, delivery is in order, whatever the consensus commits in between. -/
theorem seamless_of_belowLast {params : ConsensusParams D} {k : Option PeerPubkey}
    {pinned : Option (BlockRound × D)} {c : Consensus D S}
    {before : List (ConsensusOp D S)} {ops : List (DeliveryOp D S)}
    (hinit : Consensus.init params Db.empty k pinned = .ok c)
    (hbefore : Trail.Guarded Consensus.step BelowLast c before)
    (hops : Trail.Guarded (deliver decode)
      (fun p op => p.Grows decode op ∧ p.CommitsBelowLast op)
      (asking (c.run before) req) ops) :
    (Trail.run (deliver decode) (asking (c.run before) req) ops).Seamless decode
      req := by
  have hstart := init_restartInv hinit
  have hreached : BoundedInv (c.run before).db ∧
      Covered (c.run before).db (c.run before).finalitySelfVote := by
    refine hbefore.invariant
      (I := fun c => BoundedInv c.db ∧ Covered c.db c.finalitySelfVote) ?_ ?_
    · intro c op hinv hg
      exact ⟨step_boundedInv c op hinv.1 hg, step_covered c op hinv.1 hinv.2⟩
    · refine ⟨hstart.toBoundedInv, ?_⟩
      rw [hstart.self]
      exact hstart.covered_afterHighest
  refine (hops.invariant (I := DeliveryInv req) ?_
    (asking_inv hreached.1 hreached.2)).seamless
  intro p op hinv hg
  cases op with
  | commit op => exact hinv.commit op hg.2 hg.1
  | app => exact hinv.app

/-! ## Two peers, a block that is not final yet -/

section NotFinal

/-- The payloads do not matter. -/
def noCItems : BlockPayloadRaw → Option (List (CItem Empty)) := fun _ => some []

/-- A block comes in that both peers have signed. -/
def takesBlock (b : BlockHeader ListDigest) (payload : BlockPayloadRaw) :
    DeliveryOp ListDigest PlainSig :=
  .commit (.notarized ⟨notarizedBy [10, 11] [0, 1] b, payload⟩)

/-- The finality vote of the other peer comes in. -/
def otherVotes (round : BlockRound) : DeliveryOp ListDigest PlainSig :=
  .commit (.finality 11 ⟨round, (11, .finality round)⟩)

/-- The app asks for round 0 and finds the block of round 3, which is not final. It
is now asking for round 3. -/
def notFinalOps : List (DeliveryOp ListDigest PlainSig) :=
  [takesBlock (pairBlock none 3 [3]) [3], otherVotes 1, .app, .app, .app, .app]

/-- The block is replaced by that of round 5, and that becomes final. -/
def replacedOps : List (DeliveryOp ListDigest PlainSig) :=
  notFinalOps ++ [takesBlock (pairBlock none 5 [5]) [5], otherVotes 6,
    .app, .app, .app, .app]

theorem seamless_of_replaced : ∃ c : Consensus ListDigest PlainSig,
    Consensus.init (plainParams [10, 11]) Db.empty (some 10) none = .ok c ∧
      (Trail.run (deliver noCItems) (asking c 0) replacedOps).handed =
        [pairBlock none 5 [5]] ∧
      (Trail.run (deliver noCItems) (asking c 0) replacedOps).Seamless noCItems 0 := by
  have hrun : (Consensus.init (plainParams [10, 11]) (Db.empty : Db ListDigest PlainSig)
      (some 10) none).Returns fun c =>
        Trail.Guarded (deliver noCItems)
          (fun p op => p.Grows noCItems op ∧ p.CommitsBelowLast op)
          (asking c 0) replacedOps ∧
        (Trail.run (deliver noCItems) (asking c 0) replacedOps).handed =
          [pairBlock none 5 [5]] := by decide +kernel
  obtain ⟨c, hinit, hops, hhanded⟩ := Outcome.returns_iff.mp hrun
  have hbefore : Trail.Guarded Consensus.step BelowLast c [] := trivial
  have hseamless := seamless_of_belowLast hinit hbefore hops
  exact ⟨c, hinit, hhanded, hseamless⟩

/-- The block is replaced by one of the last round number. Then the block of round 2
comes in, which the app has passed, and the block after it. -/
def lastRoundOps : List (DeliveryOp ListDigest PlainSig) :=
  notFinalOps ++ [takesBlock (pairBlock none BlockRound.MAX [9]) [9],
    takesBlock (pairBlock none 2 [2]) [2],
    takesBlock (pairBlock (some (pairBlock none 2 [2])) 5 [5]) [5], otherVotes 6,
    .app, .app, .app, .app]

theorem last_round_skips_block :
    ¬ ∀ (c : Consensus ListDigest PlainSig) (before : List (ConsensusOp _ _))
        (req : BlockRound) (ops : List (DeliveryOp ListDigest PlainSig)),
      Consensus.init (plainParams [10, 11]) Db.empty (some 10) none = .ok c →
      Trail.Guarded (deliver noCItems) (Grows noCItems)
        (asking (c.run before) req) ops →
      (Trail.run (deliver noCItems) (asking (c.run before) req) ops).Seamless
        noCItems req := by
  intro h
  have hrun : (Consensus.init (plainParams [10, 11]) (Db.empty : Db ListDigest PlainSig)
      (some 10) none).Returns fun c =>
        Trail.Guarded (deliver noCItems) (Grows noCItems) (asking c 0) lastRoundOps ∧
        (Trail.run (deliver noCItems) (asking c 0)
          lastRoundOps).db.consBlocksNotarized.get? 2 = some (pairBlock none 2 [2]) ∧
        2 < (Trail.run (deliver noCItems) (asking c 0) lastRoundOps).place ∧
        pairBlock none 2 [2] ∉
          (Trail.run (deliver noCItems) (asking c 0) lastRoundOps).handed := by
    decide +kernel
  obtain ⟨c, hinit, hgrows, hget, hlt, hnot⟩ := Outcome.returns_iff.mp hrun
  exact hnot ((h c [] 0 lastRoundOps hinit hgrows).unskipped 2 _ hget (Nat.zero_le 2) hlt)

end NotFinal

end Peer

end Bfte
