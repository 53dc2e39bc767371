import Bfte.Proofs.Tables

/-!
# How a round ends

The transactions all finish with `check_round_end`, so what that function can do
is said once, here. `TurnCase` lists the ways one turn of its loop can go.
`roundEndLoop_induct` is the loop rule: what every turn but the last keeps holds
where the loop stops. The rest of the function is bookkeeping for the finality
votes, which touches no block, no block vote and no params; `FinalityFrame` says
so with one equation per record.
-/

namespace Bfte

namespace Consensus

variable {D S : Type} [LinearOrder D]

/-! ## Finality votes touch nothing else -/

/-- `c'` is `c` with other finality values, and perhaps fewer dummy votes. -/
structure FinalityFrame (c c' : Consensus D S) : Prop where
  db : c'.db = { c.db with
    consFinalityVotes := c'.db.consFinalityVotes
    consFinalityConsensus := c'.db.consFinalityConsensus
    consVotesDummy := c'.db.consVotesDummy }
  dummy : ∀ r i sig, c'.db.consVotesDummy.get? (voteKey r i) = some sig →
    c.db.consVotesDummy.get? (voteKey r i) = some sig
  key : c'.ourPeerPubkey = c.ourPeerPubkey
  timeout : c'.currentRoundWithTimeout = c.currentRoundWithTimeout
  self : c'.finalitySelfVote = c.finalitySelfVote
  selfTrace : c'.trace.finalitySelfVote = c.trace.finalitySelfVote

theorem FinalityFrame.refl (c : Consensus D S) : FinalityFrame c c :=
  ⟨rfl, fun _ _ _ h => h, rfl, rfl, rfl, rfl⟩

/-- What a recount computes it stores, and what it shows, if that moves, is not
below what was stored. -/
theorem recalculateFinalityConsensusTx_ok {ε : Type} {c c' : Consensus D S}
    {r : BlockRound}
    (h : (c.recalculateFinalityConsensusTx r : Outcome ε _) = .ok c') :
    ∃ (params : ConsensusParams D) (computed shown : BlockRound)
        (counted : Consensus D S),
      ((finalityVotes c.db params.peers).insertionSort (· ≤ ·))[
        (NumPeers.mk params.peers.len).maxFaulty]? = some computed ∧
      shown = (if computed < c.db.getFinalityConsensus.getD 0
        then c.db.getFinalityConsensus.getD 0 else computed) ∧
      counted = logRecount { c with db := c.db.updateFinalityConsensus computed }
        ⟨⟨params.peers.len⟩, finalityVotes c.db params.peers,
          c.db.getFinalityConsensus.getD 0⟩ ∧
      (c.db.getFinalityConsensus.getD 0 = shown ∧ c' = counted ∨
        c' = sendFinalityConsensus
          { counted with db := counted.db.pruneDummyVotes shown } shown) := by
  simp only [recalculateFinalityConsensusTx, Outcome.bind_eq_ok,
    ConsensusParams.numPeers_eq_ok, Outcome.expect_eq_ok] at h
  obtain ⟨params, _, _, ⟨_, rfl⟩, computed, hcomputed, h⟩ := h
  refine ⟨params, computed, _, _, hcomputed, rfl, rfl, ?_⟩
  generalize (if computed < c.db.getFinalityConsensus.getD 0
    then c.db.getFinalityConsensus.getD 0 else computed) = shown at h ⊢
  split at h
  · next hstill =>
      cases h
      exact Or.inl ⟨hstill, rfl⟩
  · cases h
    exact Or.inr rfl

/-- With params of peers that can be counted, a recount comes to an end. -/
theorem recalculateFinalityConsensusTx_returns {ε : Type} {c : Consensus D S}
    {r : BlockRound} {params : ConsensusParams D}
    (hparams : (c.db.getConsensusParams r : Outcome ε _) = .ok params)
    (hlen : params.peers.len ≤ 255) (hpos : params.peers.len ≠ 0) :
    ∃ c', (c.recalculateFinalityConsensusTx r : Outcome ε _) = .ok c' := by
  have hlt : (NumPeers.mk params.peers.len).maxFaulty <
      ((finalityVotes c.db params.peers).insertionSort (· ≤ ·)).length := by
    rw [List.length_insertionSort, finalityVotes, List.length_map]
    show (params.peers.len - 1) / 3 < params.peers.len
    omega
  have hnum : (params.numPeers : Outcome ε _) = .ok ⟨params.peers.len⟩ :=
    ConsensusParams.numPeers_eq_ok.mpr ⟨hlen, rfl⟩
  unfold recalculateFinalityConsensusTx
  rw [Outcome.bind_of_ok hparams]
  dsimp only
  rw [Outcome.bind_of_ok hnum,
    Outcome.bind_of_ok (Outcome.expect_eq_ok.mpr (List.getElem?_eq_getElem hlt))]
  generalize hshown : (if (finalityVotes c.db params.peers |>.insertionSort (· ≤ ·))[
    (NumPeers.mk params.peers.len).maxFaulty] < _ then _ else _) = shown
  by_cases hstill : c.db.getFinalityConsensus.getD 0 = shown
  · rw [if_pos hstill]
    exact ⟨_, rfl⟩
  · rw [if_neg hstill]
    exact ⟨_, rfl⟩

theorem recalculateFinalityConsensusTx_frame {ε : Type} {c c' : Consensus D S}
    {r : BlockRound}
    (h : (c.recalculateFinalityConsensusTx r : Outcome ε _) = .ok c') :
    FinalityFrame c c' := by
  obtain ⟨params, computed, shown, _, _, _, rfl, ⟨_, rfl⟩ | rfl⟩ :=
    recalculateFinalityConsensusTx_ok h
  · exact ⟨rfl, fun _ _ _ h => h, rfl, rfl, rfl, rfl⟩
  · exact ⟨rfl, fun _ _ _ h => (Db.get?_pruneDummyVotes.mp h).1, rfl, rfl, rfl,
      rfl⟩

theorem updatePeerFinalityVoteRound_frame {ε : Type} {c c' : Consensus D S}
    {r v : BlockRound} {k : PeerPubkey}
    (h : (c.updatePeerFinalityVoteRound r k v : Outcome ε _) = .ok c') :
    FinalityFrame c c' := by
  simp only [updatePeerFinalityVoteRound] at h
  split at h
  · cases h
    exact ⟨rfl, fun _ _ _ h => h, rfl, rfl, rfl, rfl⟩
  · have hf := recalculateFinalityConsensusTx_frame h
    exact ⟨hf.db, hf.dummy, hf.key, hf.timeout, hf.self, hf.selfTrace⟩

/-! ## One turn of the loop -/

variable [Hashing D]

/-- What a turn of the loop can do in the round of `v`. -/
inductive TurnCase (start : BlockRound) (highest : Option (BlockHeader D))
    (v : RoundEnd D S) : Turn D S → Prop
  /-- A block of this round or a later one is notarized. -/
  | notarized (h : BlockHeader D) (hh : highest = some h)
      (hle : v.curRound ≤ h.round) :
      TurnCase start highest v
        (.next { v with newLastNotarizedRound := some v.curRound })
  /-- The stored proposal has enough votes. -/
  | voted (params : ConsensusParams D) (p : BlockHeader D) (db : Db D S)
      (o : InsertOutcome (BlockHeader D))
      (above : ∀ h ∈ highest, h.round < v.curRound)
      (hparams : v.db.getConsensusParams v.curRound =
        (.ok params : Outcome RoundInvariantError _))
      (hp : v.db.consBlocksProposals.get? v.curRound = some p)
      (hvotes : (NumPeers.mk params.peers.len).threshold ≤
        v.db.getNumVotesProposal v.curRound)
      (hdb : v.db.insertNotarizedBlock v.curRound p none =
        (.ok (db, o) : Outcome RoundInvariantError _)) :
      TurnCase start highest v
        (.next ⟨db, v.curRound, some v.curRound⟩)
  /-- Enough peers gave up on the round. -/
  | timedOut (params : ConsensusParams D)
      (above : ∀ h ∈ highest, h.round < v.curRound)
      (hparams : v.db.getConsensusParams v.curRound =
        (.ok params : Outcome RoundInvariantError _))
      (hvotes : (NumPeers.mk params.peers.len).threshold ≤
        v.db.getNumVotesDummy v.curRound)
      (hproposal : (v.db.consBlocksProposals.get? v.curRound).isSome = true →
        v.db.getNumVotesProposal v.curRound <
          (NumPeers.mk params.peers.len).threshold) :
      TurnCase start highest v (.next v)
  /-- Nothing ends the round. -/
  | settled (params : ConsensusParams D) (needsATimeout : Bool)
      (above : ∀ h ∈ highest, h.round < v.curRound)
      (hparams : v.db.getConsensusParams v.curRound =
        (.ok params : Outcome RoundInvariantError _))
      (hlen : params.peers.len ≤ 255)
      (hvotes : (v.db.consBlocksProposals.get? v.curRound).isSome = true →
        v.db.getNumVotesProposal v.curRound <
          (NumPeers.mk params.peers.len).threshold)
      (hdummy : v.db.getNumVotesDummy v.curRound <
        (NumPeers.mk params.peers.len).threshold) :
      TurnCase start highest v (.done needsATimeout)

theorem roundEndTurn_cases {start : BlockRound}
    {highest : Option (BlockHeader D)} {v : RoundEnd D S} {t : Turn D S}
    (h : roundEndTurn start highest v = .ok t) :
    checkPin v.db start v.curRound = .ok () ∧ TurnCase start highest v t := by
  simp only [roundEndTurn, Outcome.bind_eq_ok] at h
  obtain ⟨_, hpin, h⟩ := h
  refine ⟨hpin, ?_⟩
  split at h
  · next hany =>
      obtain ⟨b, hb, hle⟩ := (Option.any_eq_true _ _).mp hany
      cases h
      exact .notarized b hb (of_decide_eq_true hle)
  · next hany =>
      have above : ∀ b ∈ highest, b.round < v.curRound := fun b hb => by
        by_contra hlt
        exact hany ((Option.any_eq_true _ _).mpr
          ⟨b, hb, decide_eq_true (not_lt.mp hlt)⟩)
      simp only [Outcome.bind_eq_ok, ConsensusParams.numPeers_eq_ok,
        Db.getProposal_eq_ok] at h
      obtain ⟨params, hparams, _, ⟨hlen, rfl⟩, o, ⟨ho, _⟩, h⟩ := h
      split at h
      · next hvoted =>
          simp only [Outcome.bind_eq_ok, Outcome.expect_eq_ok] at h
          obtain ⟨p, rfl, ⟨db, o⟩, hdb, h⟩ := h
          cases h
          exact .voted params p db o above hparams ho hvoted.2 hdb
      · next hvoted =>
          have hfew : (v.db.consBlocksProposals.get? v.curRound).isSome = true →
              v.db.getNumVotesProposal v.curRound <
                (NumPeers.mk params.peers.len).threshold := fun hsome =>
            not_le.mp fun hle => hvoted ⟨ho ▸ hsome, hle⟩
          split at h
          · next hdummy =>
              cases h
              exact .timedOut params above hparams hdummy hfew
          · next hdummy =>
              simp only [Outcome.bind_eq_ok] at h
              obtain ⟨_, _, h⟩ := h
              cases h
              exact .settled params _ above hparams hlen hfew (not_le.mp hdummy)

/-! ## The loop -/

/-- The loop rule: what every turn but the last keeps holds where the loop stops,
and the turn there is the last. -/
theorem roundEndLoop_induct {start : BlockRound}
    {highest : Option (BlockHeader D)} {P : RoundEnd D S → Prop}
    (step : ∀ v v', P v → v.curRound < BlockRound.MAX →
      roundEndTurn start highest v = .ok (.next v') → P v'.next) :
    ∀ {left : ℕ} {v v' : RoundEnd D S} {b : Bool},
      v.curRound + left = BlockRound.MAX → P v →
      roundEndLoop start highest left v = .ok (v', b) →
      P v' ∧ roundEndTurn start highest v' = .ok (.done b) := by
  intro left
  induction left with
  | zero =>
      intro v v' b _ hP h
      simp only [roundEndLoop, Outcome.bind_eq_ok] at h
      obtain ⟨t, ht, h⟩ := h
      cases t with
      | done b' =>
          cases h
          exact ⟨hP, ht⟩
      | next w => cases h
  | succ left ih =>
      intro v v' b hleft hP h
      simp only [roundEndLoop, Outcome.bind_eq_ok] at h
      obtain ⟨t, ht, h⟩ := h
      cases t with
      | done b' =>
          cases h
          exact ⟨hP, ht⟩
      | next w =>
          have hcur : w.curRound = v.curRound := by
            cases (roundEndTurn_cases ht).2 <;> rfl
          refine ih ?_ (step v w hP (by lia) ht) h
          show w.curRound + 1 + left = BlockRound.MAX
          lia

/-- What the loop did to the blocks, and which round it notarized last. -/
inductive Notarizes (db : Db D S) (start : BlockRound) :
    Db D S → Option BlockRound → Prop
  /-- Nothing of this round or a later one is notarized. -/
  | nothing (below : ∀ h ∈ db.getPrevNotarizedBlock BlockRound.MAX,
        h.round < start) :
      Notarizes db start db none
  /-- The latest notarized block is of this round or a later one. -/
  | received (h : BlockHeader D)
      (hh : db.getPrevNotarizedBlock BlockRound.MAX = some h)
      (hle : start ≤ h.round) :
      Notarizes db start db (some h.round)
  /-- The stored proposal had enough votes. -/
  | voted (params : ConsensusParams D) (p : BlockHeader D)
      (below : ∀ h ∈ db.getPrevNotarizedBlock BlockRound.MAX, h.round < start)
      (hlt : start < BlockRound.MAX)
      (hparams : db.getConsensusParams start =
        (.ok params : Outcome RoundInvariantError _))
      (hp : db.consBlocksProposals.get? start = some p)
      (hround : p.round = start) (hdummy : p.isDummy = false)
      (hvotes : (NumPeers.mk params.peers.len).threshold ≤
        db.getNumVotesProposal start) :
      Notarizes db start (db.storeNotarized start p none) (some start)

theorem Notarizes.proposals {db db' : Db D S} {start : BlockRound}
    {last : Option BlockRound} (h : Notarizes db start db' last) :
    db'.consBlocksProposals = db.consBlocksProposals := by
  cases h <;> rfl

/-- Where the loop of `check_round_end` stops, started on `db` in `start`. -/
structure LoopResult (db : Db D S) (start : BlockRound) (v : RoundEnd D S) :
    Prop where
  start_le : start ≤ v.curRound
  cur_le : v.curRound ≤ BlockRound.MAX
  above : ∀ h ∈ db.getPrevNotarizedBlock BlockRound.MAX, h.round < v.curRound
  last_lt : ∀ last ∈ v.newLastNotarizedRound, last < v.curRound
  notarizes : Notarizes db start v.db v.newLastNotarizedRound

/-- The invariant of the loop: while a block received is ahead, the last
notarized round is the one just left. -/
inductive LoopInv (db : Db D S) (start : BlockRound) (v : RoundEnd D S) : Prop
  | still (hdb : v.db = db) (hlast : v.newLastNotarizedRound = none)
      (below : v.curRound = start ∨
        ∀ h ∈ db.getPrevNotarizedBlock BlockRound.MAX, h.round < start)
  | received (h : BlockHeader D)
      (hh : db.getPrevNotarizedBlock BlockRound.MAX = some h)
      (hle : start ≤ h.round) (hdb : v.db = db) (hlt : start < v.curRound)
      (hlast : v.newLastNotarizedRound = some (min h.round (v.curRound - 1)))
  | voted (hn : Notarizes db start v.db v.newLastNotarizedRound)
      (hlast : v.newLastNotarizedRound = some start) (hlt : start < v.curRound)
      (below : ∀ h ∈ db.getPrevNotarizedBlock BlockRound.MAX, h.round < start)

omit [Hashing D] in
/-- The highest notarized block, if the table stores blocks under their round. -/
theorem notarized_le_highest {db : Db D S} {r : BlockRound} {b : BlockHeader D}
    (hkey : ∀ r h, db.consBlocksNotarized.get? r = some h → h.round = r)
    (hb : db.consBlocksNotarized.get? r = some b) (hr : r < BlockRound.MAX) :
    ∃ h ∈ db.getPrevNotarizedBlock BlockRound.MAX, r ≤ h.round := by
  rw [Db.getPrevNotarizedBlock_eq_below]
  cases hl : db.consBlocksNotarized.lastBelow BlockRound.MAX with
  | none =>
      have hge := SortedTable.lastBelow_eq_none.mp hl r b hb
      exact absurd hge (not_le.mpr hr)
  | some e =>
      obtain ⟨k, h⟩ := e
      obtain ⟨hget, _, hmax⟩ := SortedTable.lastBelow_eq_some.mp hl
      exact ⟨h, rfl, (hkey k h hget).symm ▸ hmax r b hb hr⟩

theorem loopInv_step {db : Db D S} {start : BlockRound} {v v' : RoundEnd D S}
    (hkey : ∀ r h, db.consBlocksNotarized.get? r = some h → h.round = r)
    (hprop : ∀ r h, db.consBlocksProposals.get? r = some h → r ≤ start)
    (hstart : start ≤ v.curRound) (hlt : v.curRound < BlockRound.MAX)
    (hI : LoopInv db start v)
    (h : TurnCase start (db.getPrevNotarizedBlock BlockRound.MAX) v (.next v')) :
    LoopInv db start v'.next := by
  have hproposals : v.db.consBlocksProposals = db.consBlocksProposals := by
    cases hI with
    | still hdb => rw [hdb]
    | received _ _ _ hdb => rw [hdb]
    | voted hn => exact hn.proposals
  cases h with
  | notarized b hh hle =>
      cases hI with
      | still hdb hlast below =>
          have hcur : v.curRound = start := below.elim id fun hbelow => by
            have := hbelow b hh
            lia
          refine .received b hh (hcur ▸ hle) hdb (Nat.lt_succ_of_le hstart) ?_
          simp [RoundEnd.next, hle]
      | received b' hh' hle' hdb hlt' hlast =>
          refine .received b hh ?_ hdb (Nat.lt_succ_of_le hstart) ?_
          · exact hstart.trans hle
          · simp [RoundEnd.next, hle]
      | voted hn hlast hlt' below =>
          have := below b hh
          lia
  | voted params p db' o above hparams hp hvotes hdb' =>
      rw [hproposals] at hp
      have hcur : v.curRound = start := by
        have := hprop _ _ hp
        lia
      cases hI with
      | received _ _ _ _ hlt' => lia
      | voted _ _ hlt' => lia
      | still hdb hlast below =>
          rw [hcur] at above hlt hparams hp hvotes hdb'
          rw [hdb] at hparams hvotes hdb'
          obtain ⟨hround, hdummy, hins⟩ := Db.insertNotarizedBlock_eq_ok.mp hdb'
          have hnone : db.consBlocksNotarized.get? start = none := by
            by_contra hsome
            obtain ⟨b, hb⟩ := Option.ne_none_iff_exists'.mp hsome
            obtain ⟨b', hb', hle⟩ := notarized_le_highest hkey hb hlt
            exact absurd (above b' hb') (not_lt.mpr hle)
          rcases hins with ⟨e, he, _⟩ | ⟨_, hres⟩
          · rw [hnone] at he
            cases he
          · cases hres
            refine .voted ?_ (by rw [hcur]; rfl) (by rw [hcur]; exact Nat.lt_succ_self _) above
            rw [hcur]
            exact .voted params p above hlt hparams hp hround hdummy hvotes
  | timedOut params above =>
      cases hI with
      | still hdb hlast below =>
          refine .still hdb hlast (Or.inr fun b hb => ?_)
          rcases below with hcur | hbelow
          · exact hcur ▸ above b hb
          · exact hbelow b hb
      | received b hh hle hdb hlt' hlast =>
          have hb := above b hh
          refine .received b hh hle hdb (Nat.lt_succ_of_lt hlt') ?_
          show v.newLastNotarizedRound = some (min b.round v.curRound)
          rw [hlast]
          congr 1
          lia
      | voted hn hlast hlt' below =>
          exact .voted hn hlast (Nat.lt_succ_of_lt hlt') below

/-- The loop stops in a round nothing ends, past every notarized block, having
notarized at most the proposal of the round it started in. -/
theorem roundEndLoop_ok {db : Db D S} {start : BlockRound} {v : RoundEnd D S}
    {b : Bool}
    (hkey : ∀ r h, db.consBlocksNotarized.get? r = some h → h.round = r)
    (hprop : ∀ r h, db.consBlocksProposals.get? r = some h → r ≤ start)
    (hstart : start ≤ BlockRound.MAX)
    (h : roundEndLoop start (db.getPrevNotarizedBlock BlockRound.MAX)
      (BlockRound.MAX - start) ⟨db, start, none⟩ = .ok (v, b)) :
    LoopResult db start v ∧
      TurnCase start (db.getPrevNotarizedBlock BlockRound.MAX) v (.done b) := by
  obtain ⟨⟨hle, hmax, hI⟩, hdone⟩ := roundEndLoop_induct
    (P := fun v => start ≤ v.curRound ∧ v.curRound ≤ BlockRound.MAX ∧
      LoopInv db start v)
    (fun v v' ⟨hle, _, hI⟩ hlt hturn => by
      have hcase := (roundEndTurn_cases hturn).2
      have hcur : v'.curRound = v.curRound := by cases hcase <;> rfl
      have hnext : v'.next.curRound = v.curRound + 1 :=
        congrArg (· + 1) hcur
      exact ⟨by lia, by lia, loopInv_step hkey hprop hle hlt hI hcase⟩)
    (by show start + (BlockRound.MAX - start) = BlockRound.MAX; lia)
    ⟨le_refl _, hstart, .still rfl rfl (Or.inl rfl)⟩ h
  have hcase := (roundEndTurn_cases hdone).2
  refine ⟨?_, hcase⟩
  have habove : ∀ h ∈ db.getPrevNotarizedBlock BlockRound.MAX,
      h.round < v.curRound := by
    cases hcase with
    | settled _ _ above => exact above
  cases hI with
  | still hdb hlast below =>
      refine ⟨hle, hmax, habove, by simp [hlast], ?_⟩
      rw [hdb, hlast]
      refine .nothing fun b hb => ?_
      rcases below with hcur | hbelow
      · exact hcur ▸ habove b hb
      · exact hbelow b hb
  | received b hh hle' hdb hlt hlast =>
      have hlast' : v.newLastNotarizedRound = some b.round := by
        have := habove b hh
        rw [hlast]
        congr 1
        lia
      refine ⟨hle, hmax, habove, ?_, ?_⟩
      · rw [hlast']
        rintro _ ⟨⟩
        exact habove b hh
      · rw [hdb, hlast']
        exact .received b hh hle'
  | voted hn hlast hlt below =>
      refine ⟨hle, hmax, habove, ?_, hn⟩
      rw [hlast]
      rintro _ ⟨⟩
      exact hlt

/-! ## The whole of `check_round_end` -/

/-- What `check_round_end` makes of `c`, when its loop stops at `v`. -/
structure RoundEnded (c : Consensus D S) (start : BlockRound) (v : RoundEnd D S)
    (c' : Consensus D S) : Prop where
  db : c'.db = { v.db with
    consCurrentRound := c'.db.consCurrentRound
    consFinalityVotes := c'.db.consFinalityVotes
    consFinalityConsensus := c'.db.consFinalityConsensus
    consVotesDummy := c'.db.consVotesDummy }
  cur : c'.db.consCurrentRound =
    if start = v.curRound then v.db.consCurrentRound else some v.curRound
  dummy : ∀ r i sig, c'.db.consVotesDummy.get? (voteKey r i) = some sig →
    v.db.consVotesDummy.get? (voteKey r i) = some sig
  key : c'.ourPeerPubkey = c.ourPeerPubkey
  self : c'.finalitySelfVote =
    (v.newLastNotarizedRound.map (· + 1)).getD c.finalitySelfVote
  selfTrace : c'.trace.finalitySelfVote =
    c.trace.finalitySelfVote ++ (v.newLastNotarizedRound.map (· + 1)).toList
  timeout : c'.currentRoundWithTimeout.1 = v.curRound ∨
    (v.curRound = start ∧ c'.currentRoundWithTimeout = c.currentRoundWithTimeout)

omit [Hashing D] in
theorem sendCurrentRound_round (c : Consensus D S) (r : BlockRound) (b : Bool) :
    (c.sendCurrentRound r b).currentRoundWithTimeout.1 = r := by
  unfold sendCurrentRound
  split
  · next h => rw [h]
  · rfl

omit [Hashing D] in
theorem updateFinalitySelfVote_frame {c c' : Consensus D S} {r : BlockRound}
    {last : Option BlockRound}
    (h : c.updateFinalitySelfVote r last = .ok c') :
    c'.finalitySelfVote = (last.map (· + 1)).getD c.finalitySelfVote ∧
      c'.trace.finalitySelfVote =
        c.trace.finalitySelfVote ++ (last.map (· + 1)).toList ∧
      FinalityFrame { c with
        finalitySelfVote := c'.finalitySelfVote
        trace := { c.trace with
          finalitySelfVote := c'.trace.finalitySelfVote } } c' := by
  cases last with
  | none =>
      cases h
      exact ⟨rfl, by simp, .refl c⟩
  | some last =>
      simp only [updateFinalitySelfVote, Outcome.bind_eq_ok,
        BlockRound.nextExpect_eq_ok] at h
      obtain ⟨_, ⟨_, rfl⟩, h⟩ := h
      split at h
      · cases h
        exact ⟨rfl, rfl, .refl _⟩
      · have hf := updatePeerFinalityVoteRound_frame h
        refine ⟨hf.self, hf.selfTrace, ?_⟩
        exact ⟨hf.db, hf.dummy, hf.key, hf.timeout, rfl, rfl⟩

theorem checkRoundEnd_ok {c c' : Consensus D S} {start : BlockRound}
    (h : c.checkRoundEnd start = .ok c') :
    ∃ v b, roundEndLoop start (c.db.getPrevNotarizedBlock BlockRound.MAX)
        (BlockRound.MAX - start) ⟨c.db, start, none⟩ = .ok (v, b) ∧
      RoundEnded c start v c' := by
  simp only [checkRoundEnd, Outcome.bind_eq_ok] at h
  obtain ⟨⟨v, b⟩, hloop, c₁, hmid, h⟩ := h
  refine ⟨v, b, hloop, ?_⟩
  obtain ⟨hself, htrace, hf⟩ := updateFinalitySelfVote_frame hmid
  have hdb : c₁.db = { v.db with
      consCurrentRound := c₁.db.consCurrentRound
      consFinalityVotes := c₁.db.consFinalityVotes
      consFinalityConsensus := c₁.db.consFinalityConsensus
      consVotesDummy := c₁.db.consVotesDummy } := by
    rw [hf.db]
    simp only [advanceRound]
    split <;> rfl
  have hcur : c₁.db.consCurrentRound =
      if start = v.curRound then v.db.consCurrentRound
      else some v.curRound := by
    rw [hf.db]
    simp only [advanceRound]
    split <;> rfl
  have hdummy : ∀ r i sig, c₁.db.consVotesDummy.get? (voteKey r i) = some sig →
      v.db.consVotesDummy.get? (voteKey r i) = some sig := by
    intro r i sig hget
    have := hf.dummy r i sig hget
    simp only [advanceRound] at this
    split at this <;> exact this
  split at h
  · next hstill =>
      cases h
      exact ⟨hdb, hcur, hdummy, hf.key, hself, htrace,
        Or.inr ⟨hstill.1, hf.timeout⟩⟩
  · cases h
    have hround := sendCurrentRound_round c₁ v.curRound b
    simp only [sendCurrentRound] at hround ⊢
    split
    · next heq =>
        exact ⟨hdb, hcur, hdummy, hf.key, hself, htrace,
          Or.inl (congrArg Prod.fst heq)⟩
    · exact ⟨hdb, hcur, hdummy, hf.key, hself, htrace, Or.inl rfl⟩

end Consensus

end Bfte
