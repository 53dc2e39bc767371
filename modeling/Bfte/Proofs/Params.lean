import Bfte.Proofs.Rounds

/-!
# The params of a round do not change once it is reached

Only a scheduled change writes the two params tables, and it writes for a round
after the current one. So the params of the current round and of all rounds
before it stay what they are. That needs two things of a state: that params are
stored under their hash, and that the channel the change is checked against
shows the current round of the database.
-/

namespace Bfte

namespace Consensus

variable {D S : Type} [LinearOrder D]

/-- Two databases with the same params tables. -/
structure SameParams (db db' : Db D S) : Prop where
  schedule : db'.consParamsSchedule = db.consParamsSchedule
  params : db'.consParams = db.consParams

theorem SameParams.refl (db : Db D S) : SameParams db db := ⟨rfl, rfl⟩

theorem SameParams.trans {db db' db'' : Db D S} (h : SameParams db db')
    (h' : SameParams db' db'') : SameParams db db'' :=
  ⟨h'.schedule.trans h.schedule, h'.params.trans h.params⟩

theorem SameParams.getConsensusParams {ε : Type} {db db' : Db D S}
    (h : SameParams db db') (r : BlockRound) :
    (db'.getConsensusParams r : Outcome ε _) = db.getConsensusParams r := by
  unfold Db.getConsensusParams Db.getConsensusParamsOpt
  rw [h.schedule, h.params]

theorem FinalityFrame.sameParams {c c' : Consensus D S} (h : FinalityFrame c c') :
    SameParams c.db c'.db := by
  rw [h.db]
  exact ⟨rfl, rfl⟩

theorem insertDummyVotes_sameParams {round : BlockRound} {l : List (PeerIdx × S)}
    {db : Db D S} : SameParams db (db.insertDummyVotes round l) := by
  induction l generalizing db with
  | nil => exact .refl db
  | cons e l ih =>
      have h := @ih (db.insertDummyVote round e.1 e.2).1
      exact ⟨h.schedule, h.params⟩

theorem insertBlockVotes_sameParams {round : BlockRound} {b : BlockHeader D}
    {l : List (PeerIdx × S)} {db : Db D S} :
    SameParams db (db.insertBlockVotes round b l) := by
  induction l generalizing db with
  | nil => exact .refl db
  | cons e l ih =>
      have h := @ih (db.insertBlockVote round e.1 ⟨b, e.2⟩).1
      exact ⟨h.schedule, h.params⟩

variable [Hashing D]

theorem Notarizes.sameParams {db db' : Db D S} {start : BlockRound}
    {last : Option BlockRound} (h : Notarizes db start db' last) :
    SameParams db db' := by
  cases h <;> exact ⟨rfl, rfl⟩

theorem Closed.sameParams {c c' : Consensus D S} {v : RoundEnd D S}
    (h : Closed c v c') : SameParams c.db c'.db := by
  have hn := h.loop.notarizes.sameParams
  rw [h.ended.db]
  exact ⟨hn.schedule, hn.params⟩

theorem insertNotarizedBlock_sameParams {ε : Type} {db : Db D S} {r : BlockRound}
    {b : BlockHeader D} {payload : Option BlockPayloadRaw}
    {res : Db D S × InsertOutcome (BlockHeader D)}
    (h : (db.insertNotarizedBlock r b payload : Outcome ε _) = .ok res) :
    SameParams db res.1 := by
  obtain ⟨_, _, ⟨e, _, rfl⟩ | ⟨_, rfl⟩⟩ := Db.insertNotarizedBlock_eq_ok.mp h
  · exact .refl db
  · cases payload <;> exact ⟨rfl, rfl⟩

theorem NotarizedIntake.sameParams {resp : WaitNotarizedBlockResponse D S}
    {db db' : Db D S} (h : NotarizedIntake db resp db') : SameParams db db' := by
  cases h with
  | dummies => exact insertDummyVotes_sameParams
  | extend db₁ o hlater hext hdb =>
      exact (insertNotarizedBlock_sameParams hdb).trans
        insertBlockVotes_sameParams
  | replace latest db₁ o hlatest hlater hnot hext hdb =>
      have hdel : SameParams db (db.deleteNotarizedBlock latest.round) := ⟨rfl, rfl⟩
      exact (hdel.trans (insertNotarizedBlock_sameParams hdb)).trans
        insertBlockVotes_sameParams

theorem VoteIntake.sameParams [Signing D S] {db db' : Db D S}
    {params : ConsensusParams D} {i : PeerIdx} {resp : WaitVoteResponse D S}
    (h : VoteIntake db params i resp db') : SameParams db db' := by
  cases h <;> exact ⟨rfl, rfl⟩

/-! ## The invariant -/

/-- Params are stored under their hash, and the channel shows the round. -/
structure ParamsInv (c : Consensus D S) : Prop where
  hash : ∀ h p, c.db.consParams.get? h = some p → Hashing.paramsHash p = h
  channel : c.currentRoundWithTimeout.1 = c.db.getCurrentRound

theorem Closed.paramsInv {c c' : Consensus D S} {v : RoundEnd D S}
    (h : Closed c v c') (hinv : ParamsInv c) : ParamsInv c' where
  hash := by
    rw [h.sameParams.params]
    exact hinv.hash
  channel := by
    rw [h.curRound]
    rcases h.ended.timeout with hround | ⟨hstill, hsame⟩
    · exact hround
    · rw [hsame, hinv.channel, hstill]

/-- Params are stored by their hash. -/
theorem get?_insertConsensusParams {db : Db D S} {r : BlockRound}
    {new p : ConsensusParams D} {h : D}
    (hget : (db.insertConsensusParams r new).1.consParams.get? h = some p) :
    (h = Hashing.paramsHash new ∧ p = new) ∨ db.consParams.get? h = some p := by
  simp only [Db.insertConsensusParams] at hget
  split at hget
  · exact Or.inr hget
  · exact SortedTable.get?_insert_eq_some hget

theorem insertConsensusParams_hash {db : Db D S} {r : BlockRound}
    {new : ConsensusParams D}
    (hhash : ∀ h p, db.consParams.get? h = some p → Hashing.paramsHash p = h)
    {h : D} {p : ConsensusParams D}
    (hget : (db.insertConsensusParams r new).1.consParams.get? h = some p) :
    Hashing.paramsHash p = h := by
  rcases get?_insertConsensusParams hget with ⟨heq, rfl⟩ | hold
  · exact heq.symm
  · exact hhash h p hold

theorem insertConsensusParams_schedule (db : Db D S) (r : BlockRound)
    (new : ConsensusParams D) :
    (db.insertConsensusParams r new).1.consParamsSchedule =
      db.consParamsSchedule.insert r (Hashing.paramsHash new) := by
  simp only [Db.insertConsensusParams]
  split <;> rfl

/-- A change of params leaves the params of earlier rounds alone. -/
theorem getConsensusParams_insert [CollisionFree D] {ε : Type} {db : Db D S}
    {r r' : BlockRound} {new p : ConsensusParams D}
    (hhash : ∀ h p, db.consParams.get? h = some p → Hashing.paramsHash p = h)
    (hr : r' < r) (hp : (db.getConsensusParams r' : Outcome ε _) = .ok p) :
    ((db.insertConsensusParams r new).1.getConsensusParams r' : Outcome ε _) =
      .ok p := by
  obtain ⟨e, he, hget⟩ := Db.getConsensusParams_eq_ok.mp hp
  refine Db.getConsensusParams_eq_ok.mpr ⟨e, ?_, ?_⟩
  · rw [insertConsensusParams_schedule, ← he]
    refine SortedTable.lastUpTo_congr fun k hk => ?_
    exact SortedTable.get?_insert_of_ne (ne_of_lt (lt_of_le_of_lt hk hr))
  · simp only [Db.insertConsensusParams]
    split
    · exact hget
    · simp only
      rw [SortedTable.get?_insert]
      split
      · next heq =>
          have hpe := hhash e.2 p hget
          rw [CollisionFree.paramsHash_inj p new (hpe.trans heq)]
      · exact hget

section Steps

variable [DecidableEq S] [Signing D S]

omit [DecidableEq S] in
theorem Phase.sameParams {c c₁ : Consensus D S} {op : ConsensusOp D S}
    (h : Phase c op c₁) (hop : ∀ r t s, op ≠ .paramsChange r t s) :
    SameParams c.db c₁.db := by
  cases h with
  | same => exact .refl _
  | vote i resp params db _ hin => exact hin.sameParams
  | notarized resp params db _ _ hin => exact hin.sameParams
  | finality k resp c₁ hf => exact hf.sameParams
  | paramsChange r t s => exact absurd rfl (hop r t s)
  | reopen fs c₁ hf => exact hf.sameParams

omit [DecidableEq S] in
theorem Phase.paramsInv {c c₁ : Consensus D S} {op : ConsensusOp D S}
    (h : Phase c op c₁) (hinv : ParamsInv c) : ParamsInv c₁ := by
  have hcur := h.curRound
  cases h with
  | same => exact hinv
  | vote i resp params db _ hin =>
      exact ⟨by rw [hin.sameParams.params]; exact hinv.hash,
        by rw [hcur]; exact hinv.channel⟩
  | notarized resp params db _ _ hin =>
      exact ⟨by rw [hin.sameParams.params]; exact hinv.hash,
        by rw [hcur]; exact hinv.channel⟩
  | finality k resp c₁ hf =>
      exact ⟨by rw [hf.sameParams.params]; exact hinv.hash,
        by rw [hf.timeout, hcur]; exact hinv.channel⟩
  | paramsChange round timestamp peers new =>
      refine ⟨fun h p hget => insertConsensusParams_hash hinv.hash hget, ?_⟩
      rw [hcur]
      exact hinv.channel
  | reopen fs c₁ hf =>
      exact ⟨by rw [hf.sameParams.params]; exact hinv.hash,
        by rw [hf.timeout, hcur]; rfl⟩

theorem step_paramsInv (c : Consensus D S) (op : ConsensusOp D S)
    (hround : RoundInv c.db) (hinv : ParamsInv c) : ParamsInv (c.step op) := by
  obtain ⟨c₁, hphase, _, hend⟩ := step_closed c op hround
  have hinv₁ : ParamsInv c₁ := hphase.paramsInv hinv
  rcases hend with ⟨hstop, _⟩ | ⟨v, hv⟩
  · rw [hstop]
    exact hinv₁
  · exact hv.paramsInv hinv₁

/-- Nothing but a scheduled change writes the params tables. -/
theorem step_sameParams (c : Consensus D S) (op : ConsensusOp D S)
    (hround : RoundInv c.db) (hop : ∀ r t s, op ≠ .paramsChange r t s) :
    SameParams c.db (c.step op).db := by
  obtain ⟨c₁, hphase, _, hend⟩ := step_closed c op hround
  have hsame : SameParams c.db c₁.db := hphase.sameParams hop
  rcases hend with ⟨hstop, _⟩ | ⟨v, hv⟩
  · rw [hstop]
    exact hsame
  · exact hsame.trans hv.sameParams

/-- Params known for a round up to the current one stay. -/
theorem step_getConsensusParams [CollisionFree D] {ε : Type} (c : Consensus D S)
    (op : ConsensusOp D S) (hround : RoundInv c.db) (hinv : ParamsInv c)
    {r : BlockRound} {p : ConsensusParams D} (hr : r ≤ c.db.getCurrentRound)
    (hp : (c.db.getConsensusParams r : Outcome ε _) = .ok p) :
    ((c.step op).db.getConsensusParams r : Outcome ε _) = .ok p := by
  by_cases hop : ∀ r t s, op ≠ .paramsChange r t s
  · rw [(step_sameParams c op hround hop).getConsensusParams]
    exact hp
  · push Not at hop
    obtain ⟨round, t, s, rfl⟩ := hop
    have hcase := step_cases c (.paramsChange round t s)
    generalize c.step (.paramsChange round t s) = c' at hcase
    cases hcase with
    | same => exact hp
    | paramsChange _ _ _ cur new hcur hnew hlt =>
        rw [hinv.channel] at hlt
        exact getConsensusParams_insert hinv.hash (lt_of_le_of_lt hr hlt) hp

omit [DecidableEq S] [Signing D S] in
/-- A new database has the params it is initialized with. -/
theorem init_sameParams {params : ConsensusParams D} {k : Option PeerPubkey}
    {pinned : Option (BlockRound × D)} {c' : Consensus D S}
    (h : init params Db.empty k pinned = .ok c') :
    SameParams ((Db.empty : Db D S).insertConsensusParams 0 params).1 c'.db := by
  obtain ⟨fs, c₁, hf, _, hdb, hcheck⟩ := init_checked h
  have hpin : SameParams ((Db.empty : Db D S).insertConsensusParams 0 params).1
      (insertPin ((Db.empty : Db D S).insertConsensusParams 0 params).1 pinned) := by
    unfold insertPin
    split <;> exact ⟨rfl, rfl⟩
  obtain ⟨v, hv⟩ := checkRoundEnd_closed hdb hcheck
  exact (hpin.trans hf.sameParams).trans hv.sameParams

omit [DecidableEq S] [Signing D S] in
/-- The params a database is initialized with are those of every round. -/
theorem init_scheduled {ε : Type} {params : ConsensusParams D} {k : Option PeerPubkey}
    {pinned : Option (BlockRound × D)} {c' : Consensus D S}
    (h : init params Db.empty k pinned = .ok c') (r : BlockRound) :
    (c'.db.getConsensusParams r : Outcome ε _) = .ok params := by
  rw [(init_sameParams h).getConsensusParams]
  exact Db.getConsensusParams_initial params r

omit [DecidableEq S] [Signing D S] in
theorem init_paramsInv {params : ConsensusParams D} {k : Option PeerPubkey}
    {pinned : Option (BlockRound × D)} {c' : Consensus D S}
    (h : init params Db.empty k pinned = .ok c') : ParamsInv c' := by
  obtain ⟨fs, c₁, hf, _, hdb, hcheck⟩ := init_checked h
  obtain ⟨v, hv⟩ := checkRoundEnd_closed hdb hcheck
  refine ⟨?_, ?_⟩
  · rw [(init_sameParams h).params]
    intro hash p hget
    exact insertConsensusParams_hash (fun _ _ hg => by cases hg) hget
  · rw [hv.curRound]
    have htimeout : c₁.currentRoundWithTimeout.1 = c₁.db.getCurrentRound := by
      rw [hf.timeout, hf.sameBlocks.getCurrentRound]
      rfl
    rcases hv.ended.timeout with hround | ⟨hstill, heq⟩
    · exact hround
    · rw [heq, htimeout, hstill]

end Steps

end Consensus

end Bfte
