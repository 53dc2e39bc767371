import Bfte.Proofs.Federation
import Bfte.Proofs.RoundPanics

/-!
# A notarized block that is genuine

`process_notarized_block_response_tx`, exit by exit, on a block whose signatures and
content have been checked. In a federation two exits are never taken or only at the
end of time: there are no two notarized blocks of a round, and the round check gets
through before the last round. What is left is the `expect` on the latest notarized
block: a node that has none panics on every block that is not a first one.
-/

namespace Bfte

namespace Consensus

variable {D S : Type} [LinearOrder D] [Hashing D] [Signing D S]

/-- How a notarized block that has been checked is answered. -/
inductive Handled (c : Consensus D S) (resp : WaitNotarizedBlockResponse D S) :
    Outcome ProcessNotarizedBlockError (Consensus D S) → Prop
  /-- A dummy of another round. -/
  | staleDummy (hdummy : resp.block.inner.isDummy = true)
      (hround : resp.block.inner.round ≠ c.db.getCurrentRound) :
      Handled c resp (Outcome.raise .wrongRoundDummy)
  /-- The latest notarized block. -/
  | known (hdummy : resp.block.inner.isDummy = false)
      (hlatest : c.db.getPrevNotarizedBlock c.db.getCurrentRound =
        some resp.block.inner) :
      Handled c resp (.ok c)
  /-- Another block of its round. -/
  | forked (latest : BlockHeader D) (msg : String)
      (hdummy : resp.block.inner.isDummy = false)
      (hlatest : c.db.getPrevNotarizedBlock c.db.getCurrentRound = some latest)
      (hround : latest.round = resp.block.inner.round)
      (hne : latest ≠ resp.block.inner) :
      Handled c resp (Outcome.crash msg)
  /-- A block of an earlier round. -/
  | passed (latest : BlockHeader D)
      (hdummy : resp.block.inner.isDummy = false)
      (hlatest : c.db.getPrevNotarizedBlock c.db.getCurrentRound = some latest)
      (hround : resp.block.inner.round < latest.round) :
      Handled c resp (Outcome.raise
        (.wrongRoundBlock latest.round resp.block.inner.round))
  /-- There is no latest block, and this is not a first one. -/
  | orphan (msg : String) (hdummy : resp.block.inner.isDummy = false)
      (hlatest : c.db.getPrevNotarizedBlock c.db.getCurrentRound = none)
      (hnot : ¬ resp.block.inner.Extends none) :
      Handled c resp (Outcome.crash msg)
  /-- It extends neither the latest block nor the one before it. -/
  | wrongParent (latest : BlockHeader D)
      (hdummy : resp.block.inner.isDummy = false)
      (hlatest : c.db.getPrevNotarizedBlock c.db.getCurrentRound = some latest)
      (hround : latest.round < resp.block.inner.round)
      (hnot : ¬ resp.block.inner.Extends (some latest))
      (hnot' : ¬ resp.block.inner.Extends (c.db.getPrevNotarizedBlock latest.round)) :
      Handled c resp (Outcome.raise .wrongParent)
  /-- It is stored, and the round check runs. -/
  | stored (db : Db D S) (hin : NotarizedIntake c.db resp db) :
      Handled c resp ((checkRoundEnd { c with db := db }
        c.db.getCurrentRound).mapErr .roundInvariant)

omit [Signing D S] in
theorem insertNotarizedBlock_handled {c : Consensus D S}
    {block : Notarized D S} (payload : BlockPayloadRaw)
    (hdummy : block.inner.isDummy = false) :
    ∃ db₁ o, c.db.insertNotarizedBlock block.inner.round block.inner
        (some payload) = (.ok (db₁, o) : Outcome ProcessNotarizedBlockError _) ∧
      c.insertNotarizedBlock block payload = .ok { c with
        db := db₁.insertBlockVotes block.inner.round block.inner
          block.sigs.entries } := by
  obtain ⟨⟨db₁, o⟩, hdb⟩ := insertNotarizedBlock_returns
    (ε := ProcessNotarizedBlockError) c.db (some payload) rfl hdummy
  refine ⟨db₁, o, hdb, ?_⟩
  unfold insertNotarizedBlock
  rw [Outcome.bind_of_ok hdb]
  rfl

omit [Signing D S] in
/-- A later block is stored, or the second latest block it needs is missing. -/
theorem extendOrReplaceTx_handled {c : Consensus D S}
    {resp : WaitNotarizedBlockResponse D S} {latest : Option (BlockHeader D)}
    (hlatest : c.db.getPrevNotarizedBlock c.db.getCurrentRound = latest)
    (hdummy : resp.block.inner.isDummy = false)
    (hlater : ∀ b ∈ latest, b.round < resp.block.inner.round) :
    (∃ db, NotarizedIntake c.db resp db ∧
      c.extendOrReplaceTx latest resp.block resp.payload =
        .ok { c with db := db }) ∨
    (latest = none ∧ ¬ resp.block.inner.Extends none ∧ ∃ msg,
      c.extendOrReplaceTx latest resp.block resp.payload = Outcome.crash msg) ∨
    ∃ l, latest = some l ∧ ¬ resp.block.inner.Extends (some l) ∧
      ¬ resp.block.inner.Extends (c.db.getPrevNotarizedBlock l.round) ∧
      c.extendOrReplaceTx latest resp.block resp.payload =
        Outcome.raise .wrongParent := by
  unfold extendOrReplaceTx
  split
  · next hext =>
      obtain ⟨db₁, o, hdb, hins⟩ :=
        insertNotarizedBlock_handled (c := c) resp.payload hdummy
      subst hlatest
      exact Or.inl ⟨_, .extend db₁ o hlater hext hdb, hins⟩
  · next hnot =>
      cases latest with
      | none => exact Or.inr (Or.inl ⟨rfl, hnot, _, rfl⟩)
      | some l =>
          rw [Outcome.bind_of_ok (Outcome.expect_eq_ok.mpr rfl)]
          dsimp only
          by_cases hext : resp.block.inner.doesDirectlyExtend
              (c.db.getPrevNotarizedBlock l.round) = true
          · obtain ⟨db₁, o, hdb, hins⟩ := insertNotarizedBlock_handled
              (c := { c with db := c.db.deleteNotarizedBlock l.round })
              resp.payload hdummy
            rw [Outcome.bind_of_ok (Outcome.ensure_of hext)]
            exact Or.inl ⟨_,
              .replace l db₁ o hlatest (hlater l rfl) hnot hext hdb, hins⟩
          · rw [Outcome.ensure, if_neg hext]
            exact Or.inr (Or.inr ⟨l, rfl, hnot, hext, rfl⟩)

omit [Signing D S] in
theorem processNotarizedTx_handled {c : Consensus D S}
    {resp : WaitNotarizedBlockResponse D S}
    (hdummy : resp.block.inner.isDummy = false) :
    Handled c resp (c.processNotarizedTx resp.block resp.payload) := by
  unfold processNotarizedTx
  dsimp only
  cases hlatest : c.db.getPrevNotarizedBlock c.db.getCurrentRound with
  | none =>
      rw [if_neg (by simp), Outcome.bind_of_ok (Outcome.ensure_of (by simp))]
      rcases extendOrReplaceTx_handled hlatest hdummy (by simp) with
        ⟨db, hin, hres⟩ | ⟨_, hnot, msg, hres⟩ | ⟨l, hl, _⟩
      · rw [Outcome.bind_of_ok hres]
        exact .stored db hin
      · rw [hres]
        exact .orphan msg hdummy hlatest hnot
      · cases hl
  | some latest =>
      rcases lt_trichotomy resp.block.inner.round latest.round with hlt | heq | hgt
      · have hany : ¬ ((some latest).any fun b =>
            decide (b.round = resp.block.inner.round)) = true := by
          simp only [Option.any_some, decide_eq_true_eq]
          lia
        have hens : ¬ ∀ b ∈ some latest, ¬ resp.block.inner.round ≤ b.round :=
          fun h => h latest rfl hlt.le
        rw [if_neg hany, Outcome.ensure, if_neg hens]
        exact .passed latest hdummy hlatest hlt
      · have hany : ((some latest).any fun b =>
            decide (b.round = resp.block.inner.round)) = true := by
          simp only [Option.any_some, decide_eq_true_eq]
          exact heq.symm
        rw [if_pos hany]
        by_cases hsame : latest = resp.block.inner
        · rw [Outcome.bind_of_ok (Outcome.assertThat_of (congrArg some hsame))]
          exact .known hdummy (hlatest.trans (congrArg some hsame))
        · rw [Outcome.assertThat, if_neg fun h => hsame (Option.some.inj h)]
          exact .forked latest _ hdummy hlatest heq.symm hsame
      · have hany : ¬ ((some latest).any fun b =>
            decide (b.round = resp.block.inner.round)) = true := by
          simp only [Option.any_some, decide_eq_true_eq]
          lia
        have hlater : ∀ b ∈ some latest, b.round < resp.block.inner.round := by
          rintro b ⟨⟩
          exact hgt
        rw [if_neg hany, Outcome.bind_of_ok
          (Outcome.ensure_of fun b hb => not_le.mpr (hlater b hb))]
        rcases extendOrReplaceTx_handled hlatest hdummy hlater with
          ⟨db, hin, hres⟩ | ⟨hl, _⟩ | ⟨l, hl, hnot, hnot', hres⟩
        · rw [Outcome.bind_of_ok hres]
          exact .stored db hin
        · cases hl
        · cases hl
          rw [hres]
          exact .wrongParent latest hdummy hlatest hgt hnot hnot'

theorem processNotarizedBlockResponseTx_handled {c : Consensus D S}
    {resp : WaitNotarizedBlockResponse D S}
    (hok : checkNotarized c.db resp = .ok ()) :
    Handled c resp (c.processNotarizedBlockResponseTx resp) := by
  unfold processNotarizedBlockResponseTx
  rw [Outcome.bind_of_ok hok]
  split
  · next hdummy =>
      unfold processNotarizedDummyTx
      dsimp only
      by_cases hround : resp.block.inner.round = c.db.getCurrentRound
      · rw [Outcome.bind_of_ok (Outcome.ensure_of hround)]
        exact .stored _ (.dummies hdummy hround)
      · rw [Outcome.ensure, if_neg hround]
        exact .staleDummy hdummy hround
  · next hd => exact processNotarizedTx_handled (Bool.eq_false_iff.mpr hd)

/-! ## The last round -/

/-- The block ends the last round there is. -/
def EndsLastRound (P : ConsensusParams D) (db : Db D S) (b : BlockHeader D) :
    Prop :=
  db.getCurrentRound = BlockRound.MAX ∧
    ((b.isDummy = true ∧ b.round = BlockRound.MAX) ∨
      (b.isDummy = false ∧ Takes db b ∧
        (db.consBlocksProposals.get? BlockRound.MAX).isSome = true ∧
        (b.round = BlockRound.MAX ∨
          (NumPeers.mk P.peers.len).threshold ≤
            db.getNumVotesProposal BlockRound.MAX)))

instance (P : ConsensusParams D) (db : Db D S) (b : BlockHeader D) :
    Decidable (EndsLastRound P db b) := inferInstanceAs (Decidable (_ ∧ _))

variable {P : ConsensusParams D}

omit [Signing D S] in
theorem LastRoundOver.cur_eq {db : Db D S} (h : LastRoundOver P db)
    (hinv : BlockInv db) (hmanned : Manned db) (hpos : P.peers.len ≠ 0) :
    db.getCurrentRound = BlockRound.MAX := by
  refine le_antisymm hinv.cur_le ?_
  rcases h with ⟨hsome, _⟩ | henough
  · obtain ⟨p, hp⟩ := Option.isSome_iff_exists.mp hsome
    exact (hinv.proposal _ p hp).2.2
  · refine hmanned.voted_le fun hzero => ?_
    rw [hzero] at henough
    exact (NumPeers.threshold_pos hpos).ne' (Nat.le_zero.mp henough)

theorem Fixed.sound {db : Db D S} (h : Fixed P db) (hinv : BlockInv db)
    (hpos : P.peers.len ≠ 0) : Sound P db :=
  ⟨h.params, h.len, hpos, fun r p hp =>
    ⟨(hinv.proposal r p hp).1, (hinv.proposal r p hp).2.1⟩⟩

omit [Signing D S] in
theorem NotarizedIntake.takes {db db' : Db D S}
    {resp : WaitNotarizedBlockResponse D S} (h : NotarizedIntake db resp db')
    (hdummy : resp.block.inner.isDummy = false) : Takes db resp.block.inner := by
  cases h with
  | dummies hd =>
      rw [hd] at hdummy
      cases hdummy
  | extend db₁ o hlater hext => exact ⟨hlater, Or.inl hext⟩
  | replace latest db₁ o hlatest hlater hnot hext =>
      refine ⟨fun b hb => ?_, Or.inr ⟨latest, hlatest, hext⟩⟩
      rw [hlatest] at hb
      cases hb
      exact hlater

omit [Signing D S] in
/-- The block votes of other rounds stay as they are. -/
theorem NotarizedIntake.voteBlock_of_ne {db db' : Db D S}
    {resp : WaitNotarizedBlockResponse D S} (h : NotarizedIntake db resp db')
    {r : BlockRound} (hne : r ≠ resp.block.inner.round) (j : PeerIdx) :
    db'.getVoteBlock r j = db.getVoteBlock r j := by
  have hinserted : ∀ {db db₁ : Db D S} {o : InsertOutcome (BlockHeader D)},
      db.insertNotarizedBlock resp.block.inner.round resp.block.inner
        (some resp.payload) =
          (.ok (db₁, o) : Outcome ProcessNotarizedBlockError _) →
      db₁.getVoteBlock r j = db.getVoteBlock r j := by
    intro db db₁ o hdb
    have hboth : ∀ w, (db₁.getVoteBlock r j = some w → db.getVoteBlock r j = some w) ∧
        (r ≠ resp.block.inner.round → db.getVoteBlock r j = some w →
          db₁.getVoteBlock r j = some w) :=
      fun _ => insertNotarizedBlock_voteBlock hdb
    exact Option.ext fun w => ⟨(hboth w).1, (hboth w).2 hne⟩
  cases h with
  | dummies =>
      unfold Db.getVoteBlock
      rw [insertDummyVotes_block]
  | extend db₁ o _ _ hdb =>
      exact (get?_insertBlockVotes_of_ne hne).trans (hinserted hdb)
  | replace latest db₁ o _ _ _ _ hdb =>
      have hdel : db₁.getVoteBlock r j =
          (db.deleteNotarizedBlock latest.round).getVoteBlock r j := hinserted hdb
      exact (get?_insertBlockVotes_of_ne hne).trans hdel

omit [Signing D S] in
/-- A notarized block leaves the dummy votes as they are. -/
theorem NotarizedIntake.votesDummy_eq {db db' : Db D S}
    {resp : WaitNotarizedBlockResponse D S} (h : NotarizedIntake db resp db')
    (hdummy : resp.block.inner.isDummy = false) :
    db'.consVotesDummy = db.consVotesDummy := by
  cases h with
  | dummies hd =>
      rw [hd] at hdummy
      cases hdummy
  | extend db₁ o _ _ hdb =>
      exact insertBlockVotes_dummy.trans (insertNotarizedBlock_voteDummy hdb)
  | replace latest db₁ o _ _ _ _ hdb =>
      exact insertBlockVotes_dummy.trans (insertNotarizedBlock_voteDummy hdb)

/-- A notarized dummy of the last round ends it. -/
theorem lastRoundOver_insertDummyVotes {db : Db D S}
    {resp : WaitNotarizedBlockResponse D S} (hver : Verified db resp P)
    (hcur : db.getCurrentRound = BlockRound.MAX) :
    LastRoundOver P (db.insertDummyVotes db.getCurrentRound
      resp.block.sigs.entries) := by
  have hlen : resp.block.sigs.entries.length =
      (resp.block.sigs.entries.map Prod.fst).length :=
    (List.length_map Prod.fst).symm
  have hnodup : (resp.block.sigs.entries.map Prod.fst).Nodup :=
    List.pairwise_map.mpr (resp.block.sigs.sorted.imp fun hlt => ne_of_lt hlt)
  refine Or.inr ((hver.enough.trans_eq hlen).trans (length_le_votesAt hnodup ?_))
  intro j hj
  obtain ⟨e, he, rfl⟩ := List.mem_map.mp hj
  rw [hcur]
  exact ⟨(lt_of_lt_of_le (hver.sigs e he).lt_len hver.len).le,
    insertDummyVotes_isSome (Or.inr hj)⟩

/-- What is stored makes the last round be over just when the block ends it. -/
theorem NotarizedIntake.lastRoundOver_iff {db db' : Db D S}
    {resp : WaitNotarizedBlockResponse D S} (h : NotarizedIntake db resp db')
    (hver : Verified db resp P) (hinv : CountInv P db) (hmanned : Manned db)
    (hpos : P.peers.len ≠ 0) :
    LastRoundOver P db' ↔ EndsLastRound P db resp.block.inner := by
  have hcur : LastRoundOver P db' → db.getCurrentRound = BlockRound.MAX := by
    intro hover
    rw [← h.curRound]
    exact hover.cur_eq (h.blockInv hinv.toBlockInv) (h.manned hmanned) hpos
  by_cases hdummy : resp.block.inner.isDummy = false
  · have hdummies : db'.getNumVotesDummy BlockRound.MAX =
        db.getNumVotesDummy BlockRound.MAX := by
      unfold Db.getNumVotesDummy
      rw [h.votesDummy_eq hdummy]
    have hvotes : resp.block.inner.round ≠ BlockRound.MAX →
        db'.getNumVotesProposal BlockRound.MAX =
          db.getNumVotesProposal BlockRound.MAX := fun hne =>
      le_antisymm
        (votesAt_length_le fun j hj =>
          (congrArg Option.isSome (h.voteBlock_of_ne hne.symm j)).symm.trans hj)
        (votesAt_length_le fun j hj =>
          (congrArg Option.isSome (h.voteBlock_of_ne hne.symm j)).trans hj)
    constructor
    · intro hover
      have hmax := hcur hover
      rcases hover with ⟨hsome, henough⟩ | henough
      · rw [h.proposals_eq] at hsome
        refine ⟨hmax, Or.inr ⟨hdummy, h.takes hdummy, hsome, ?_⟩⟩
        by_cases hround : resp.block.inner.round = BlockRound.MAX
        · exact Or.inl hround
        · exact Or.inr (hvotes hround ▸ henough)
      · have hquiet := hinv.quiet
        rw [hmax, ← hdummies] at hquiet
        exact absurd henough (not_le.mpr hquiet)
    · rintro ⟨_, ⟨hd, _⟩ | ⟨_, _, hsome, hround⟩⟩
      · rw [hd] at hdummy
        cases hdummy
      · refine Or.inl ⟨h.proposals_eq ▸ hsome, ?_⟩
        by_cases hmax : resp.block.inner.round = BlockRound.MAX
        · rw [← hmax]
          exact (h.enough hver hdummy).2
        · rw [hvotes hmax]
          exact hround.resolve_left hmax
  · have hdummy' : resp.block.inner.isDummy = true := by simpa using hdummy
    cases h with
    | dummies hd hround =>
        constructor
        · intro hover
          exact ⟨hcur hover, Or.inl ⟨hd, hround.trans (hcur hover)⟩⟩
        · rintro ⟨hmax, _⟩
          exact lastRoundOver_insertDummyVotes hver hmax
    | extend db₁ o _ _ hdb =>
        exact absurd (Db.insertNotarizedBlock_eq_ok.mp hdb).2.1 hdummy
    | replace latest db₁ o _ _ _ _ hdb =>
        exact absurd (Db.insertNotarizedBlock_eq_ok.mp hdb).2.1 hdummy

/-! ## Panics -/

/-- A block that has no parent a node could look for: there is no notarized block,
and this is not a first one. -/
def Orphan (db : Db D S) (b : BlockHeader D) : Prop :=
  b.isDummy = false ∧ db.getPrevNotarizedBlock db.getCurrentRound = none ∧
    ¬ b.Extends none

instance (db : Db D S) (b : BlockHeader D) : Decidable (Orphan db b) :=
  inferInstanceAs (Decidable (_ ∧ _ ∧ _))

/-- When a block that has been checked makes the node panic, as long as there is
one notarized block a round. -/
theorem processNotarizedBlockResponseTx_panicked {c : Consensus D S}
    {resp : WaitNotarizedBlockResponse D S}
    (hok : checkNotarized c.db resp = .ok ()) (hinv : CountInv P c.db)
    (hmanned : Manned c.db) (hpos : P.peers.len ≠ 0)
    (hone : ∀ latest ∈ c.db.getPrevNotarizedBlock c.db.getCurrentRound,
      resp.block.inner.isDummy = false → latest.round = resp.block.inner.round →
        latest = resp.block.inner) :
    (c.processNotarizedBlockResponseTx resp).Panicked ↔
      Orphan c.db resp.block.inner ∨ EndsLastRound P c.db resp.block.inner := by
  obtain ⟨params, hver⟩ := checkNotarized_ok hok
  have hP : params = P := hinv.params_eq hver.scheduled
  subst hP
  have hnot : ∀ (latest : BlockHeader D), resp.block.inner.isDummy = false →
      c.db.getPrevNotarizedBlock c.db.getCurrentRound = some latest →
      (latest.round < resp.block.inner.round →
        ¬ resp.block.inner.Extends (some latest) ∧
          ¬ resp.block.inner.Extends (c.db.getPrevNotarizedBlock latest.round)) →
      ¬ (Orphan c.db resp.block.inner ∨
        EndsLastRound params c.db resp.block.inner) := by
    rintro latest hdummy hlatest hbad (⟨_, hnone, _⟩ | ⟨_, ⟨hd, _⟩ | ⟨_, htakes, _⟩⟩)
    · rw [hlatest] at hnone
      cases hnone
    · rw [hdummy] at hd
      cases hd
    · obtain ⟨hext, hext'⟩ := hbad (htakes.1 latest hlatest)
      rcases htakes.2 with hfirst | ⟨l, hl, hsecond⟩
      · rw [hlatest] at hfirst
        exact hext hfirst
      · rw [hlatest] at hl
        cases hl
        exact hext' hsecond
  have hcase := processNotarizedBlockResponseTx_handled hok
  generalize c.processNotarizedBlockResponseTx resp = x at hcase
  cases hcase with
  | staleDummy hdummy hround =>
      refine iff_of_false Outcome.not_panicked_raise ?_
      rintro (⟨hd, _⟩ | ⟨hmax, ⟨_, hr⟩ | ⟨hd, _⟩⟩)
      · rw [hdummy] at hd
        cases hd
      · exact hround (hr.trans hmax.symm)
      · rw [hdummy] at hd
        cases hd
  | known hdummy hlatest =>
      exact iff_of_false Outcome.not_panicked_ok
        (hnot _ hdummy hlatest fun hlt => absurd hlt (lt_irrefl _))
  | forked latest msg hdummy hlatest hround hne =>
      exact absurd (hone latest hlatest hdummy hround) hne
  | passed latest hdummy hlatest hround =>
      exact iff_of_false Outcome.not_panicked_raise
        (hnot latest hdummy hlatest fun hlt => absurd hlt (lt_asymm hround))
  | orphan msg hdummy hlatest hext =>
      exact iff_of_true Outcome.panicked_crash (Or.inl ⟨hdummy, hlatest, hext⟩)
  | wrongParent latest hdummy hlatest hround hext hext' =>
      exact iff_of_false Outcome.not_panicked_raise
        (hnot latest hdummy hlatest fun _ => ⟨hext, hext'⟩)
  | stored db hin =>
      have hblock := hin.blockInv hinv.toBlockInv
      have hready := hin.manned hmanned
      have hsound : Sound params db :=
        (hin.fixed hver hinv.toFixed).sound hblock hpos
      have hcheck := checkRoundEnd_panicked (c := { c with db := db }) hblock hsound
        fun hover => hover.cur_eq hblock hready hpos
      rw [show ({ c with db := db } : Consensus D S).db.getCurrentRound =
        c.db.getCurrentRound from hin.curRound] at hcheck
      rw [Outcome.panicked_mapErr, hcheck, hin.lastRoundOver_iff hver hinv hmanned hpos]
      refine (or_iff_right ?_).symm
      rintro ⟨hdummy, hnone, hext⟩
      obtain ⟨_, hfirst | ⟨l, hl, _⟩⟩ := hin.takes hdummy
      · rw [hnone] at hfirst
        exact hext hfirst
      · rw [hnone] at hl
        cases hl

/-! ## What is answered -/

/-- The second latest notarized block. -/
def secondLatest (db : Db D S) : Option (BlockHeader D) :=
  (db.getPrevNotarizedBlock db.getCurrentRound).bind fun latest =>
    db.getPrevNotarizedBlock latest.round

/-- The block does not make the node panic, and if it extends neither the latest
block nor the second latest, it is an error that changes nothing. -/
def HandlesGenuine [DecidableEq S] (c : Consensus D S)
    (resp : WaitNotarizedBlockResponse D S) : Prop :=
  ¬ (c.processNotarizedBlockResponseTx resp).Panicked ∧
    (resp.block.inner.isDummy = false →
      ¬ resp.block.inner.Extends (c.db.getPrevNotarizedBlock c.db.getCurrentRound) →
      ¬ resp.block.inner.Extends (secondLatest c.db) →
        (c.processNotarizedBlockResponseTx resp).Failed ∧
          (c.step (.notarized resp)).db = c.db)

/-- The latest block itself, which does not extend the one before it. -/
def Misfit (db : Db D S) (b : BlockHeader D) : Prop :=
  db.getPrevNotarizedBlock db.getCurrentRound = some b ∧
    ¬ b.Extends (db.getPrevNotarizedBlock b.round)

instance (db : Db D S) (b : BlockHeader D) : Decidable (Misfit db b) :=
  inferInstanceAs (Decidable (_ ∧ _))

variable [DecidableEq S]

theorem step_of_failed {c : Consensus D S} {resp : WaitNotarizedBlockResponse D S}
    (h : (c.processNotarizedBlockResponseTx resp).Failed) :
    (c.step (.notarized resp)).db = c.db := by
  obtain ⟨e, he⟩ := h
  rw [step, he]
  rfl

omit [Signing D S] [DecidableEq S] in
/-- A block without a parent here, and not the latest one, is an error. -/
theorem Handled.failed {c : Consensus D S} {resp : WaitNotarizedBlockResponse D S}
    {x : Outcome ProcessNotarizedBlockError (Consensus D S)}
    (h : Handled c resp x) (hpanic : ¬ x.Panicked)
    (hdummy : resp.block.inner.isDummy = false)
    (hnot : ¬ resp.block.inner.Extends
      (c.db.getPrevNotarizedBlock c.db.getCurrentRound))
    (hnot' : ¬ resp.block.inner.Extends (secondLatest c.db)) :
    x.Failed ∨ c.db.getPrevNotarizedBlock c.db.getCurrentRound =
      some resp.block.inner := by
  cases h with
  | staleDummy | passed | wrongParent => exact Or.inl ⟨_, rfl⟩
  | known _ hlatest => exact Or.inr hlatest
  | forked | orphan => exact absurd Outcome.panicked_crash hpanic
  | stored db hin =>
      obtain ⟨_, hfirst | ⟨latest, hlatest, hsecond⟩⟩ := hin.takes hdummy
      · exact absurd hfirst hnot
      · unfold secondLatest at hnot'
        rw [hlatest] at hnot'
        exact absurd hsecond hnot'

theorem handlesGenuine_iff {c : Consensus D S}
    {resp : WaitNotarizedBlockResponse D S}
    (hok : checkNotarized c.db resp = .ok ()) (hinv : CountInv P c.db)
    (hmanned : Manned c.db) (hpos : P.peers.len ≠ 0)
    (hone : ∀ latest ∈ c.db.getPrevNotarizedBlock c.db.getCurrentRound,
      resp.block.inner.isDummy = false → latest.round = resp.block.inner.round →
        latest = resp.block.inner) :
    HandlesGenuine c resp ↔ ¬ Orphan c.db resp.block.inner ∧
      ¬ EndsLastRound P c.db resp.block.inner ∧ ¬ Misfit c.db resp.block.inner := by
  have hpanic := processNotarizedBlockResponseTx_panicked hok hinv hmanned hpos hone
  have hcase := processNotarizedBlockResponseTx_handled hok
  constructor
  · rintro ⟨hnot, hfails⟩
    rw [hpanic, not_or] at hnot
    refine ⟨hnot.1, hnot.2, ?_⟩
    rintro ⟨hlatest, hext⟩
    have hstored := (getPrevNotarizedBlock_eq_some hinv.round_eq).mp hlatest
    have hdummy := (hinv.notarized _ _ hstored.1).2
    have hself : ¬ resp.block.inner.Extends
        (c.db.getPrevNotarizedBlock c.db.getCurrentRound) := by
      rw [hlatest]
      exact fun h => absurd h.round_lt (lt_irrefl _)
    have hsecond : ¬ resp.block.inner.Extends (secondLatest c.db) := by
      unfold secondLatest
      rw [hlatest]
      exact hext
    obtain ⟨hfailed, _⟩ := hfails hdummy hself hsecond
    generalize c.processNotarizedBlockResponseTx resp = x at hcase hfailed
    cases hcase with
    | staleDummy hd =>
        rw [hdummy] at hd
        cases hd
    | known => exact Outcome.not_failed_ok hfailed
    | forked l _ _ hl _ hne =>
        rw [hlatest] at hl
        exact hne (Option.some.inj hl).symm
    | passed l _ hl hlt =>
        rw [hlatest] at hl
        cases hl
        exact lt_irrefl _ hlt
    | orphan _ _ hl =>
        rw [hlatest] at hl
        cases hl
    | wrongParent l _ hl hlt =>
        rw [hlatest] at hl
        cases hl
        exact lt_irrefl _ hlt
    | stored db hin =>
        exact absurd ((hin.takes hdummy).1 _ hlatest) (lt_irrefl _)
  · rintro ⟨horphan, hends, hmisfit⟩
    have hnot : ¬ (c.processNotarizedBlockResponseTx resp).Panicked := by
      rw [hpanic, not_or]
      exact ⟨horphan, hends⟩
    refine ⟨hnot, fun hdummy hlatest hsecond => ?_⟩
    rcases hcase.failed hnot hdummy hlatest hsecond with hfailed | hself
    · exact ⟨hfailed, step_of_failed hfailed⟩
    · refine absurd ⟨hself, ?_⟩ hmisfit
      unfold secondLatest at hsecond
      rw [hself] at hsecond
      exact hsecond

end Consensus

open Consensus Federation Node

variable {D S X : Type} [LinearOrder D] [Hashing D] [DecidableEq S] [Signing D S]
  {F : Federation D} {decode : BlockPayloadRaw → Option (List (CItem X))}
  {w : World D S}

/-- A genuine notarized block is handled unless it is an orphan, ends the last
round, or is the latest block of a table that is not a chain. -/
theorem genuine_handled_iff [CollisionFree D] (h : F.Reachable decode w) (i : ℕ)
    {resp : WaitNotarizedBlockResponse D S}
    (hok : checkNotarized (w i).db resp = .ok ())
    (hsigs : F.UnforgedBlock w resp.block) :
    HandlesGenuine (w i).node.consensus resp ↔
      ¬ Orphan (w i).db resp.block.inner ∧
      ¬ EndsLastRound F.params (w i).db resp.block.inner ∧
      ¬ Misfit (w i).db resp.block.inner := by
  have hw := reachable_worldInv h
  have hinv := hw.counted i
  refine handlesGenuine_iff hok hinv (hw.manned i)
    (Nat.one_le_iff_ne_zero.mp F.manned) fun latest hlatest hdummy hround => ?_
  obtain ⟨params, hver⟩ := checkNotarized_ok hok
  have hP : params = F.params := hinv.params_eq hver.scheduled
  rw [hP] at hver
  have hstored := hinv.prev_mem hlatest
  have hcert : F.Certified w resp.block.inner :=
    certified_of_valid hver.valid fun e he hj hsig => (hsigs e he).cast hj hsig
  exact (hw.certified i _ _ hstored).unique hw hcert hround
    (hinv.notarized _ _ hstored).2 hdummy

/-- Three of four peers notarize the block of round 0, and vote for the one of
round 1. -/
def twoBlocks : List (WorldOp ListDigest PlainSig) :=
  let first := quadBlock none 0 [0]
  let second := quadBlock (some first) 1 [1]
  [⟨3, .node (.proposalTask [0] 0)⟩, ⟨3, .node (.deliver 0)⟩,
    ⟨1, .node (.recvVote 3 (.proposal (signedBy 13 first) [0]))⟩,
    ⟨1, .node .voteTask⟩, ⟨1, .node (.deliver 0)⟩,
    ⟨2, .node (.recvVote 3 (.proposal (signedBy 13 first) [0]))⟩,
    ⟨2, .node .voteTask⟩, ⟨2, .node (.deliver 0)⟩,
    ⟨1, .node (.recvVote 2 (.vote (signedBy 12 first)))⟩,
    ⟨2, .node (.recvVote 1 (.vote (signedBy 11 first)))⟩,
    ⟨3, .node (.recvVote 1 (.vote (signedBy 11 first)))⟩,
    ⟨3, .node (.recvVote 2 (.vote (signedBy 12 first)))⟩,
    ⟨1, .node (.proposalTask [1] 0)⟩, ⟨1, .node (.deliver 0)⟩,
    ⟨2, .node (.recvVote 1 (.proposal (signedBy 11 second) [1]))⟩,
    ⟨2, .node .voteTask⟩, ⟨2, .node (.deliver 0)⟩,
    ⟨3, .node (.recvVote 1 (.proposal (signedBy 11 second) [1]))⟩,
    ⟨3, .node .voteTask⟩, ⟨3, .node (.deliver 0)⟩]

/-- The block of round 1, as notarized by the three. -/
def secondOfTwo : WaitNotarizedBlockResponse ListDigest PlainSig :=
  ⟨notarizedBy quadKeys [1, 2, 3] (quadBlock (some (quadBlock none 0 [0])) 1 [1]), [1]⟩

/-- The world after that. -/
def twoBlocksWorld : World ListDigest PlainSig :=
  World.run plainDecode (plainWorld (quadFederation 13)) twoBlocks

theorem twoBlocksWorld_reachable :
    (quadFederation 13).Reachable plainDecode twoBlocksWorld :=
  ⟨_, twoBlocks, quadWorld_started 13, by decide +kernel, rfl⟩

/-- The peer that was left out is sent the second block first. -/
theorem genuine_panics_fresh_node :
    ∃ (w : World ListDigest PlainSig) (resp : WaitNotarizedBlockResponse ListDigest PlainSig),
      (quadFederation 13).Reachable plainDecode w ∧
        (quadFederation 13).Correct 0 ∧ checkNotarized (w 0).db resp = .ok () ∧
        (quadFederation 13).UnforgedBlock w resp.block ∧
        (processNotarizedBlockResponseTx (w 0).node.consensus resp).Panicked := by
  have hrun : (checkNotarized (twoBlocksWorld 0).db secondOfTwo).Returns
      (fun _ => True) ∧ (quadFederation 13).Correct 0 ∧
      (quadFederation 13).UnforgedBlock twoBlocksWorld secondOfTwo.block ∧
      (processNotarizedBlockResponseTx (twoBlocksWorld 0).node.consensus
        secondOfTwo).Panicked := by decide +kernel
  obtain ⟨hok, hcorrect, hsigs, hpanic⟩ := hrun
  obtain ⟨_, hok, _⟩ := Outcome.returns_iff.mp hok
  exact ⟨_, _, twoBlocksWorld_reachable, hcorrect, hok, hsigs, hpanic⟩

/-- A peer that has the first block takes it. -/
theorem genuine_handled_of_second :
    HandlesGenuine (twoBlocksWorld 1).node.consensus secondOfTwo := by
  have hrun : (checkNotarized (twoBlocksWorld 1).db secondOfTwo).Returns
      (fun _ => True) ∧
      (quadFederation 13).UnforgedBlock twoBlocksWorld secondOfTwo.block ∧
      ¬ Orphan (twoBlocksWorld 1).db secondOfTwo.block.inner ∧
      ¬ EndsLastRound (quadFederation 13).params (twoBlocksWorld 1).db
        secondOfTwo.block.inner ∧
      ¬ Misfit (twoBlocksWorld 1).db secondOfTwo.block.inner := by decide +kernel
  obtain ⟨hok, hsigs, hmeets⟩ := hrun
  obtain ⟨_, hok, _⟩ := Outcome.returns_iff.mp hok
  exact (genuine_handled_iff twoBlocksWorld_reachable 1 hok hsigs).mpr hmeets

end Bfte
