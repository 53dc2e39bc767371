import Bfte.Proofs.Chain

/-!
# Pinned blocks

A pin names the block of one round. The round check compares it with the notarized
block of a round that it leaves, and then never again, so what the pin demands holds
in the first round after the pinned one. There the block stays as long as it is not
our latest one when a block comes in that takes the latest one's place.
-/

namespace Bfte

namespace Consensus

variable {D S : Type} [LinearOrder D] [Hashing D]

/-- The block notarized in a round has a hash. -/
def HasBlock (db : Db D S) (r : BlockRound) (hash : D) : Prop :=
  ∃ b, db.consBlocksNotarized.get? r = some b ∧ Hashing.blockHash b = hash

/-- The round is pinned, and once it has been left its block is the one of the
pin. -/
structure PinInv (db : Db D S) (r : BlockRound) (hash : D) : Prop where
  pinned : db.consBlocksPinned.get? r = some hash
  holds : r < db.getCurrentRound → HasBlock db r hash

/-! ## The round check -/

theorem checkPin_hasBlock {db : Db D S} {start r : BlockRound} {hash : D}
    (hpin : db.consBlocksPinned.get? r = some hash) (hstart : start ≤ r)
    (h : checkPin db start (r + 1) = .ok ()) : HasBlock db r hash := by
  have hleft : start ≠ r + 1 := by lia
  rw [checkPin, if_neg hleft, Nat.add_sub_cancel, Db.getPinnedBlock, hpin] at h
  have heq := Outcome.ensure_eq_ok.mp h
  obtain ⟨b, hb, hhash⟩ := Option.map_eq_some_iff.mp heq.symm
  exact ⟨b, hb, hhash⟩

/-- What is notarized stays when another block is put in. -/
theorem insertNotarizedBlock_keeps {ε : Type} {db db' : Db D S}
    {round : BlockRound} {block : BlockHeader D} {payload : Option BlockPayloadRaw}
    {o : InsertOutcome (BlockHeader D)}
    (h : (db.insertNotarizedBlock round block payload : Outcome ε _) = .ok (db', o))
    {r : BlockRound} {b : BlockHeader D}
    (hb : db.consBlocksNotarized.get? r = some b) :
    db'.consBlocksNotarized.get? r = some b := by
  obtain ⟨_, _, hres⟩ := Db.insertNotarizedBlock_eq_ok.mp h
  rcases hres with ⟨_, _, hres⟩ | ⟨hfree, hres⟩
  · cases hres
    exact hb
  · cases hres
    have hne : r ≠ round := by
      rintro rfl
      rw [hfree] at hb
      cases hb
    have hstored : (db.storeNotarized round block payload).consBlocksNotarized =
        db.consBlocksNotarized.insert round block := by
      cases payload <;> rfl
    rw [hstored, SortedTable.get?_insert_of_ne hne]
    exact hb

/-- A turn of the loop adds blocks, and leaves the pins alone. -/
theorem TurnCase.keeps {start : BlockRound} {highest : Option (BlockHeader D)}
    {v v' : RoundEnd D S} (h : TurnCase start highest v (.next v')) :
    v'.db.consBlocksPinned = v.db.consBlocksPinned ∧
      ∀ r hash, HasBlock v.db r hash → HasBlock v'.db r hash := by
  cases h with
  | notarized => exact ⟨rfl, fun _ _ hb => hb⟩
  | timedOut => exact ⟨rfl, fun _ _ hb => hb⟩
  | voted params p db o above hparams hp hvotes hdb =>
      constructor
      · obtain ⟨_, _, hres⟩ := Db.insertNotarizedBlock_eq_ok.mp hdb
        rcases hres with ⟨_, _, hres⟩ | ⟨_, hres⟩ <;> cases hres <;> rfl
      · rintro r hash ⟨b, hb, hhash⟩
        exact ⟨b, insertNotarizedBlock_keeps hdb hb, hhash⟩

/-- Of a pinned round that the loop has left, the block is the one of the pin. -/
theorem roundEndLoop_pinned {db : Db D S} {start : BlockRound} {v : RoundEnd D S}
    {highest : Option (BlockHeader D)} {b : Bool} {r : BlockRound} {hash : D}
    (hstart : start ≤ BlockRound.MAX)
    (hpin : db.consBlocksPinned.get? r = some hash)
    (h : roundEndLoop start highest (BlockRound.MAX - start) ⟨db, start, none⟩ =
      .ok (v, b)) :
    v.db.consBlocksPinned = db.consBlocksPinned ∧
      (start ≤ r → r < v.curRound → HasBlock v.db r hash) := by
  -- the turn that ends the round `r + 1`, or stays in it, has checked the pin
  have hchecked : ∀ {w : RoundEnd D S} {t : Turn D S},
      w.db.consBlocksPinned = db.consBlocksPinned →
      (start ≤ r → r + 1 < w.curRound → HasBlock w.db r hash) →
      roundEndTurn start highest w = .ok t →
      start ≤ r → r < w.curRound → HasBlock w.db r hash := by
    intro w t hpins hleft hturn hr hlt
    rcases Nat.lt_or_ge (r + 1) w.curRound with hpast | hnow
    · exact hleft hr hpast
    · have hcheck := (roundEndTurn_cases hturn).1
      have hcur : w.curRound = r + 1 := by lia
      rw [hcur] at hcheck
      exact checkPin_hasBlock (hpins ▸ hpin) hr hcheck
  obtain ⟨⟨hpins, hleft⟩, hdone⟩ := roundEndLoop_induct
    (P := fun w => w.db.consBlocksPinned = db.consBlocksPinned ∧
      (start ≤ r → r + 1 < w.curRound → HasBlock w.db r hash))
    (fun w w' ⟨hpins, hleft⟩ _ hturn => by
      have hcase := (roundEndTurn_cases hturn).2
      have hcur : w'.curRound = w.curRound := by cases hcase <;> rfl
      refine ⟨hcase.keeps.1.trans hpins, fun hr hlt => hcase.keeps.2 r hash ?_⟩
      have hlt' : r + 1 < w'.curRound + 1 := hlt
      exact hchecked hpins hleft hturn hr (by lia))
    (by show start + (BlockRound.MAX - start) = BlockRound.MAX; lia)
    ⟨rfl, fun hr hlt => absurd hlt (by show ¬ r + 1 < start; lia)⟩ h
  exact ⟨hpins, hchecked hpins hleft hdone⟩

theorem Closed.pins {c c' : Consensus D S} {v : RoundEnd D S} (h : Closed c v c') :
    c'.db.consBlocksPinned = c.db.consBlocksPinned := by
  rw [h.ended.db]
  have hn := h.loop.notarizes
  generalize v.newLastNotarizedRound = last at hn
  show v.db.consBlocksPinned = _
  generalize v.db = vdb at hn
  cases hn <;> rfl

theorem checkRoundEnd_pinInv {c c' : Consensus D S} {r : BlockRound} {hash : D}
    (hinv : BlockInv c.db) (hpin : PinInv c.db r hash)
    (h : c.checkRoundEnd c.db.getCurrentRound = .ok c') : PinInv c'.db r hash := by
  obtain ⟨v, b, hloop, hended⟩ := checkRoundEnd_ok h
  obtain ⟨hresult, hdone⟩ := roundEndLoop_ok hinv.round_eq
    (fun r p hp => (hinv.proposal r p hp).2.2) hinv.cur_le hloop
  have hv : Closed c v c' := ⟨hresult, ⟨b, hdone⟩, hended⟩
  obtain ⟨hpins, hleft⟩ := roundEndLoop_pinned hinv.cur_le hpin.pinned hloop
  refine ⟨?_, fun hlt => ?_⟩
  · rw [hended.db]
    exact hpins ▸ hpin.pinned
  · rcases Nat.lt_or_ge r c.db.getCurrentRound with hold | hnew
    · obtain ⟨b, hb, hhash⟩ := hpin.holds hold
      exact ⟨b, hv.notarized_mono hinv hb, hhash⟩
    · rw [hv.curRound] at hlt
      obtain ⟨b, hb, hhash⟩ := hleft hnew hlt
      exact ⟨b, hv.notarized_eq ▸ hb, hhash⟩

/-! ## What the ops write -/

omit [Hashing D] in
theorem insertBlockVotes_pins {round : BlockRound} {b : BlockHeader D}
    {l : List (PeerIdx × S)} {db : Db D S} :
    (db.insertBlockVotes round b l).consBlocksPinned = db.consBlocksPinned := by
  induction l generalizing db with
  | nil => rfl
  | cons e l ih => exact @ih (db.insertBlockVote round e.1 ⟨b, e.2⟩).1

omit [Hashing D] in
theorem insertDummyVotes_pins {round : BlockRound} {l : List (PeerIdx × S)}
    {db : Db D S} :
    (db.insertDummyVotes round l).consBlocksPinned = db.consBlocksPinned := by
  induction l generalizing db with
  | nil => rfl
  | cons e l ih => exact @ih (db.insertDummyVote round e.1 e.2).1

/-- The same pins and notarized blocks, in the same round. -/
theorem PinInv.congr {db db' : Db D S} {r : BlockRound} {hash : D}
    (h : PinInv db r hash) (hpins : db'.consBlocksPinned = db.consBlocksPinned)
    (hsame : SameBlocks db db') : PinInv db' r hash where
  pinned := hpins ▸ h.pinned
  holds hlt := by
    rw [hsame.getCurrentRound] at hlt
    obtain ⟨b, hb, hhash⟩ := h.holds hlt
    exact ⟨b, hsame.notarized ▸ hb, hhash⟩

/-- The block would take the place of our latest one, which is of round `r`. -/
def ReplacesAt (db : Db D S) (r : BlockRound) (block : BlockHeader D) : Prop :=
  ∃ latest ∈ db.getPrevNotarizedBlock db.getCurrentRound, latest.round = r ∧
    latest.round < block.round ∧ ¬ block.Extends (some latest) ∧
    block.Extends (db.getPrevNotarizedBlock latest.round)

instance (db : Db D S) (r : BlockRound) (block : BlockHeader D) :
    Decidable (ReplacesAt db r block) :=
  inferInstanceAs (Decidable (∃ latest ∈ _, _))

section Messages

variable [Signing D S] {db db' : Db D S}

omit [Signing D S] in
theorem NotarizedIntake.pins {resp : WaitNotarizedBlockResponse D S}
    (h : NotarizedIntake db resp db') :
    db'.consBlocksPinned = db.consBlocksPinned := by
  cases h with
  | dummies => exact insertDummyVotes_pins
  | extend db₁ o hlater hext hdb =>
      rw [insertBlockVotes_pins]
      obtain ⟨_, _, ⟨e, _, hres⟩ | ⟨_, hres⟩⟩ :=
        Db.insertNotarizedBlock_eq_ok.mp hdb <;> cases hres <;> rfl
  | replace latest db₁ o hlatest hlater hnot hext hdb =>
      rw [insertBlockVotes_pins]
      obtain ⟨_, _, ⟨e, _, hres⟩ | ⟨_, hres⟩⟩ :=
        Db.insertNotarizedBlock_eq_ok.mp hdb <;> cases hres <;> rfl

omit [Signing D S] in
/-- A notarized block takes no place but the latest one's. -/
theorem NotarizedIntake.keeps {resp : WaitNotarizedBlockResponse D S}
    (h : NotarizedIntake db resp db') {r : BlockRound} {b : BlockHeader D}
    (hb : db.consBlocksNotarized.get? r = some b)
    (hstays : resp.block.inner.isDummy = false →
      ¬ ReplacesAt db r resp.block.inner) :
    db'.consBlocksNotarized.get? r = some b := by
  cases h with
  | dummies =>
      rw [insertDummyVotes_sameBlocks.notarized]
      exact hb
  | extend db₁ o hlater hext hdb =>
      rw [insertBlockVotes_sameBlocks.notarized]
      exact insertNotarizedBlock_keeps hdb hb
  | replace latest db₁ o hlatest hlater hnot hext hdb =>
      rw [insertBlockVotes_sameBlocks.notarized]
      have hdummy := (Db.insertNotarizedBlock_eq_ok.mp hdb).2.1
      have hne : r ≠ latest.round := fun heq =>
        hstays hdummy ⟨latest, hlatest, heq.symm, hlater, hnot, hext⟩
      refine insertNotarizedBlock_keeps hdb ?_
      show (db.consBlocksNotarized.remove latest.round).get? r = some b
      rw [SortedTable.get?_remove, if_neg hne]
      exact hb

end Messages

/-! ## Runs -/

section Runs

variable [DecidableEq S] [Signing D S]

/-- No notarized block that passes all checks takes the place of the block of a
round. -/
def KeepsBlock (r : BlockRound) (c : Consensus D S) : ConsensusOp D S → Prop
  | .notarized resp => resp.block.inner.isDummy = false →
      checkNotarized c.db resp = .ok () → ¬ ReplacesAt c.db r resp.block.inner
  | _ => True

instance (r : BlockRound) (c : Consensus D S) (op : ConsensusOp D S) :
    Decidable (KeepsBlock r c op) :=
  match op with
  | .notarized _ => inferInstanceAs (Decidable (_ → _))
  | .vote _ _ => .isTrue trivial
  | .finality _ _ => .isTrue trivial
  | .paramsChange _ _ _ => .isTrue trivial
  | .reopen => .isTrue trivial

omit [DecidableEq S] in
/-- No op writes a pin. -/
theorem Phase.pins {c c₁ : Consensus D S} {op : ConsensusOp D S} (h : Phase c op c₁) :
    c₁.db.consBlocksPinned = c.db.consBlocksPinned := by
  cases h with
  | same => rfl
  | vote i resp params db _ hin => cases hin <;> rfl
  | notarized resp params db _ _ hin => exact hin.pins
  | finality k resp c₁ hf => rw [hf.db]
  | paramsChange =>
      unfold Db.insertConsensusParams
      dsimp only
      split <;> rfl
  | reopen fs c₁ hf =>
      rw [hf.db]
      rfl

theorem step_pinInv {r : BlockRound} {hash : D} (c : Consensus D S)
    (op : ConsensusOp D S) (hround : RoundInv c.db) (hpin : PinInv c.db r hash)
    (hg : KeepsBlock r c op) : PinInv (c.step op).db r hash := by
  obtain ⟨c₁, hphase, hend⟩ := step_phase c op hround
  have hblock := hphase.blockInv hround
  have hcur := hphase.curRound
  have hpins := hphase.pins
  have hpin₁ : PinInv c₁.db r hash := by
    cases hphase with
    | same => exact hpin
    | vote i resp params db _ hin =>
        refine ⟨hpins ▸ hpin.pinned, fun hlt => ?_⟩
        rw [hcur] at hlt
        obtain ⟨b, hb, hhash⟩ := hpin.holds hlt
        exact ⟨b, hin.notarized_eq ▸ hb, hhash⟩
    | notarized resp params db hok _ hin =>
        refine ⟨hpins ▸ hpin.pinned, fun hlt => ?_⟩
        rw [hcur] at hlt
        obtain ⟨b, hb, hhash⟩ := hpin.holds hlt
        exact ⟨b, hin.keeps hb fun hd => hg hd hok, hhash⟩
    | finality k resp c₁ hf => exact hpin.congr hpins hf.sameBlocks
    | paramsChange => exact hpin.congr hpins (insertConsensusParams_sameBlocks _ _ _)
    | reopen fs c₁ hf =>
        have hsame : SameBlocks c.db c₁.db := hf.sameBlocks
        exact hpin.congr hpins hsame
  rcases hend with ⟨hstop, _⟩ | hcheck
  · rw [hstop]
    exact hpin₁
  · exact checkRoundEnd_pinInv hblock hpin₁ hcheck

theorem step_pins (c : Consensus D S) (op : ConsensusOp D S) (hround : RoundInv c.db) :
    (c.step op).db.consBlocksPinned = c.db.consBlocksPinned := by
  obtain ⟨c₁, hphase, _, ⟨hstop, _⟩ | ⟨v, hv⟩⟩ := step_closed c op hround
  · rw [hstop]
    exact hphase.pins
  · exact hv.pins.trans hphase.pins

omit [DecidableEq S] [Signing D S] in
theorem init_pins {params : ConsensusParams D} {k : Option PeerPubkey}
    {c : Consensus D S} (h : init params Db.empty k none = .ok c) :
    c.db.consBlocksPinned = .empty := by
  obtain ⟨fs, c₁, hf, _, hdb, hcheck⟩ := init_checked h
  obtain ⟨v, hv⟩ := checkRoundEnd_closed hdb hcheck
  rw [hv.pins, hf.db]
  rfl

omit [DecidableEq S] [Signing D S] in
/-- Opening a database with a pin checks the pin on the rounds it leaves. -/
theorem init_pinInv {params : ConsensusParams D} {k : Option PeerPubkey}
    {r : BlockRound} {hash : D} {c : Consensus D S}
    (h : init params Db.empty k (some (r, hash)) = .ok c) : PinInv c.db r hash := by
  obtain ⟨fs, c₁, hf, hsame, hdb, hcheck⟩ := init_checked h
  refine checkRoundEnd_pinInv hdb ⟨?_, fun hlt => ?_⟩ hcheck
  · rw [hf.db]
    exact SortedTable.get?_insert_self _ _ _
  · rw [hsame.getCurrentRound] at hlt
    exact absurd hlt (Nat.not_lt_zero r)

/-- In every run in which no block takes the place of that of the pinned round, the
pin holds from the moment that round has been left. -/
theorem pin_holds_of_keepsBlock {params : ConsensusParams D}
    {k : Option PeerPubkey} {r : BlockRound} {hash : D} {c : Consensus D S}
    {ops : List (ConsensusOp D S)}
    (hinit : init params Db.empty k (some (r, hash)) = .ok c)
    (hops : Trail.Guarded step (KeepsBlock r) c ops)
    (hleft : r < (c.run ops).db.getCurrentRound) :
    HasBlock (c.run ops).db r hash := by
  have hinv : RoundInv (c.run ops).db ∧ PinInv (c.run ops).db r hash :=
    Trail.Guarded.invariant (I := fun c => RoundInv c.db ∧ PinInv c.db r hash)
      (fun c op h hg => ⟨step_roundInv c op h.1, step_pinInv c op h.1 h.2 hg⟩)
      ⟨init_roundInv hinit, init_pinInv hinit⟩ hops
  exact hinv.2.holds hleft

omit [DecidableEq S] in
/-- A block that does take that place leaves the pinned round without one. -/
theorem unpinned_of_replacesAt {c c' : Consensus D S}
    {resp : WaitNotarizedBlockResponse D S} {r : BlockRound}
    (hround : RoundInv c.db) (hrep : ReplacesAt c.db r resp.block.inner)
    (hdummy : resp.block.inner.isDummy = false)
    (h : c.processNotarizedBlockResponseTx resp = .ok c') :
    r < c'.db.getCurrentRound ∧ c'.db.consBlocksNotarized.get? r = none := by
  obtain ⟨latest, hlatest, rfl, hlater, hnot, hext⟩ := hrep
  obtain ⟨_, ⟨_, _, hsame⟩ | ⟨db, hin, hcheck⟩⟩ :=
    processNotarizedBlockResponseTx_ok h
  · rw [hlatest] at hsame
    cases hsame
    exact absurd hlater (Nat.lt_irrefl _)
  rw [← hin.curRound] at hcheck
  obtain ⟨v, hv⟩ := checkRoundEnd_closed (hin.blockInv hround.toBlockInv) hcheck
  have hlt : latest.round < db.getCurrentRound := by
    rw [hin.curRound]
    exact hround.prev_lt hlatest
  refine ⟨Nat.lt_of_lt_of_le hlt hv.cur_le, ?_⟩
  by_contra hsome
  obtain ⟨b, hb⟩ := Option.ne_none_iff_exists'.mp hsome
  rcases hv.notarized_cases hb with hkept | ⟨hcur, _⟩
  swap
  · exact absurd hcur (Nat.ne_of_lt hlt)
  -- the message was taken by replacing the latest block
  have hgone : ∀ {db₁ : Db D S} {o : InsertOutcome (BlockHeader D)},
      (c.db.deleteNotarizedBlock latest.round).insertNotarizedBlock
        resp.block.inner.round resp.block.inner (some resp.payload) =
          (.ok (db₁, o) : Outcome ProcessNotarizedBlockError _) →
      db₁.consBlocksNotarized.get? latest.round = none := by
    intro db₁ o hdb
    have hremoved : (c.db.consBlocksNotarized.remove latest.round).get?
        latest.round = none := by
      rw [SortedTable.get?_remove, if_pos rfl]
    obtain ⟨_, _, ⟨_, _, hres⟩ | ⟨_, hres⟩⟩ := Db.insertNotarizedBlock_eq_ok.mp hdb
    · cases hres
      exact hremoved
    · cases hres
      show ((c.db.consBlocksNotarized.remove latest.round).insert
        resp.block.inner.round resp.block.inner).get? latest.round = none
      rw [SortedTable.get?_insert_of_ne (Nat.ne_of_lt hlater)]
      exact hremoved
  cases hin with
  | dummies hd => exact absurd hd (by rw [hdummy]; exact Bool.false_ne_true)
  | extend db₁ o hlater' hext' hdb =>
      rw [hlatest] at hext'
      exact hnot hext'
  | replace latest' db₁ o hlatest' hlater' hnot' hext' hdb =>
      rw [hlatest] at hlatest'
      cases hlatest'
      rw [insertBlockVotes_sameBlocks.notarized, hgone hdb] at hkept
      cases hkept

end Runs

/-! ## Two peers and another history -/

section OtherHistory

/-- The pin on the block of round 0. -/
def pinZero : Option (BlockRound × ListDigest) :=
  some (0, Hashing.blockHash (pairBlock none 0 [0]))

/-- A block of round 1 on top of the given one, notarized by both. -/
def blockOneOn (prev : Option (BlockHeader ListDigest)) :
    WaitNotarizedBlockResponse ListDigest PlainSig :=
  ⟨notarizedBy [10, 11] [0, 1] (pairBlock prev 1 [1]), [1]⟩

theorem pin_holds_while_extended : ∃ c : Consensus ListDigest PlainSig,
    init (plainParams [10, 11]) Db.empty (some 10) pinZero = .ok c ∧
      HasBlock (c.run [.notarized blockZero,
        .notarized (blockOneOn (some (pairBlock none 0 [0])))]).db 0
        (Hashing.blockHash (pairBlock none 0 [0])) := by
  have hrun : (init (plainParams [10, 11]) (Db.empty : Db ListDigest PlainSig)
      (some 10) pinZero).Returns fun c =>
        Trail.Guarded step (KeepsBlock 0) c [.notarized blockZero,
          .notarized (blockOneOn (some (pairBlock none 0 [0])))] ∧
        0 < (c.run [.notarized blockZero,
          .notarized (blockOneOn (some (pairBlock none 0 [0])))]).db.getCurrentRound := by
    decide +kernel
  obtain ⟨c, hinit, hops, hcur⟩ := Outcome.returns_iff.mp hrun
  exact ⟨c, hinit, pin_holds_of_keepsBlock hinit hops hcur⟩

/-- The pinned block has been notarized and round 0 has been left. Then a block of
round 1 comes in that extends nothing, and takes its place. -/
theorem pinned_block_replaced :
    ¬ ∀ (c : Consensus ListDigest PlainSig)
        (ops : List (ConsensusOp ListDigest PlainSig)),
      init (plainParams [10, 11]) Db.empty (some 10) pinZero = .ok c →
      (∀ op ∈ ops, op.IsMessage) → 0 < (c.run ops).db.getCurrentRound →
      HasBlock (c.run ops).db 0 (Hashing.blockHash (pairBlock none 0 [0])) := by
  intro h
  have hrun : (init (plainParams [10, 11]) (Db.empty : Db ListDigest PlainSig)
      (some 10) pinZero).Returns fun c =>
        let db := (c.run [.notarized blockZero, .notarized (blockOneOn none)]).db
        0 < db.getCurrentRound ∧ db.consBlocksNotarized.get? 0 = none := by
    decide +kernel
  obtain ⟨c, hinit, hcur, hnone⟩ := Outcome.returns_iff.mp hrun
  obtain ⟨b, hb, _⟩ := h c [.notarized blockZero, .notarized (blockOneOn none)]
    hinit (by simp [ConsensusOp.IsMessage]) hcur
  rw [hnone] at hb
  cases hb

end OtherHistory

end Consensus

end Bfte
