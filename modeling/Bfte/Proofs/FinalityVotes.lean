import Bfte.Core.Concrete
import Bfte.Lib.OrderStat
import Bfte.Proofs.Rounds

/-!
# When the finality consensus goes forward

The finality consensus is the vote past the faulty ones, so it is at least `p`
exactly when a threshold of the votes are. It is recomputed from scratch each
time, and the votes it is made of may go down: a peer's vote is overwritten
before it is looked at, and a new peer starts from 0. The guard keeps a lower
value off the channel, but by then it has been stored, and the next recount
compares with what is stored.

So finality goes forward exactly as long as each recount finds a threshold of
votes that are not below the stored value. `Kept` says what a transaction does
to finality under that condition; it composes along a transaction.
-/

namespace Bfte

/-- A threshold of the votes counted are not below the stored value. -/
def Recount.Enough (r : Recount) : Prop :=
  r.numPeers.threshold ≤ r.votes.countP (fun v => decide (r.prev ≤ v))

instance (r : Recount) : Decidable r.Enough := inferInstanceAs (Decidable (_ ≤ _))

namespace Consensus

variable {D S : Type} [LinearOrder D]

/-- The values shown go up, and none is above the stored one. -/
structure FinalityInv (c : Consensus D S) : Prop where
  sorted : c.trace.finalityConsensus.Pairwise (· ≤ ·)
  stored : ∀ x ∈ c.trace.finalityConsensus,
    x ≤ c.db.getFinalityConsensus.getD 0

/-- And the channel shows the stored value. -/
structure ShownInv (c : Consensus D S) : Prop extends FinalityInv c where
  channel : c.finalityConsensus = c.db.getFinalityConsensus.getD 0

/-- The transaction made some recounts, and if all of them found enough votes,
finality went forward. -/
def Kept (c c' : Consensus D S) : Prop :=
  ∃ rs, c'.trace.recounts = c.trace.recounts ++ rs ∧
    ((∀ r ∈ rs, r.Enough) → ShownInv c → ShownInv c')

theorem Kept.of_same {c c' : Consensus D S} (htrace : c'.trace.recounts =
      c.trace.recounts ∧ c'.trace.finalityConsensus = c.trace.finalityConsensus)
    (hchannel : c'.finalityConsensus = c.finalityConsensus)
    (hstored : c'.db.consFinalityConsensus = c.db.consFinalityConsensus) :
    Kept c c' := by
  obtain ⟨hrecounts, hshown⟩ := htrace
  refine ⟨[], by rw [hrecounts, List.append_nil], fun _ hinv => ⟨⟨?_, ?_⟩, ?_⟩⟩
  · rw [hshown]
    exact hinv.sorted
  · unfold Db.getFinalityConsensus
    rw [hshown, hstored]
    exact hinv.stored
  · unfold Db.getFinalityConsensus
    rw [hchannel, hstored]
    exact hinv.channel

theorem Kept.refl (c : Consensus D S) : Kept c c := .of_same ⟨rfl, rfl⟩ rfl rfl

theorem Kept.trans {c c₁ c₂ : Consensus D S} (h : Kept c c₁) (h' : Kept c₁ c₂) :
    Kept c c₂ := by
  obtain ⟨rs, hrs, hinv⟩ := h
  obtain ⟨rs', hrs', hinv'⟩ := h'
  refine ⟨rs ++ rs', by rw [hrs', hrs, List.append_assoc], fun henough hc => ?_⟩
  have hc₁ := hinv (fun r hr => henough r (List.mem_append_left _ hr)) hc
  exact hinv' (fun r hr => henough r (List.mem_append_right _ hr)) hc₁

/-! ## One recount -/

/-- With enough votes the value computed is not below the stored one. -/
theorem Recount.Enough.le_computed {numPeers : NumPeers} {votes : List BlockRound}
    {computed : BlockRound} (prev : BlockRound)
    (hlen : votes.length = numPeers.total)
    (hk : (votes.insertionSort (· ≤ ·))[numPeers.maxFaulty]? = some computed) :
    (Recount.mk numPeers votes prev).Enough ↔ prev ≤ computed := by
  have hkth : OrderStat.kth votes numPeers.maxFaulty = some computed := hk
  rw [OrderStat.le_kth_iff hkth prev, hlen]
  exact Iff.rfl

theorem recalculateFinalityConsensusTx_kept {ε : Type} {c c' : Consensus D S}
    {r : BlockRound}
    (h : (c.recalculateFinalityConsensusTx r : Outcome ε _) = .ok c') :
    Kept c c' := by
  obtain ⟨params, computed, shown, counted, hcomputed, hshown, rfl, hcase⟩ :=
    recalculateFinalityConsensusTx_ok h
  have hlen : (finalityVotes c.db params.peers).length =
      (NumPeers.mk params.peers.len).total := List.length_map _
  have henough := Recount.Enough.le_computed
    (c.db.getFinalityConsensus.getD 0) hlen hcomputed
  refine ⟨[⟨⟨params.peers.len⟩, finalityVotes c.db params.peers,
    c.db.getFinalityConsensus.getD 0⟩], ?_, fun hall hinv => ?_⟩
  · rcases hcase with ⟨_, rfl⟩ | rfl
    · rfl
    · rfl
  · have hle := henough.mp (hall _ List.mem_cons_self)
    obtain rfl : shown = computed := hshown.trans (if_neg (not_lt.mpr hle))
    have hup : ∀ x ∈ c.trace.finalityConsensus, x ≤ shown :=
      fun x hx => (hinv.stored x hx).trans hle
    rcases hcase with ⟨heq, rfl⟩ | rfl
    · exact ⟨⟨hinv.sorted, hup⟩, hinv.channel.trans heq⟩
    · refine ⟨⟨List.pairwise_append.mpr ⟨hinv.sorted, by simp, ?_⟩, ?_⟩, rfl⟩
      · intro x hx y hy
        rw [List.mem_singleton.mp hy]
        exact hup x hx
      · intro x hx
        rcases List.mem_append.mp hx with hx | hx
        · exact hup x hx
        · exact le_of_eq (List.mem_singleton.mp hx)

theorem updatePeerFinalityVoteRound_kept {ε : Type} {c c' : Consensus D S}
    {r : BlockRound} {k : PeerPubkey} {v : BlockRound}
    (h : (c.updatePeerFinalityVoteRound r k v : Outcome ε _) = .ok c') :
    Kept c c' := by
  simp only [updatePeerFinalityVoteRound] at h
  have hwrite : Kept c { c with db := c.db.updateFinalityVote k v } :=
    .of_same ⟨rfl, rfl⟩ rfl rfl
  split at h
  · cases h
    exact hwrite
  · exact hwrite.trans (recalculateFinalityConsensusTx_kept h)

/-! ## The round check -/

variable [Hashing D]

/-- Two databases with the same finality. -/
structure SameFinality (db db' : Db D S) : Prop where
  stored : db'.consFinalityConsensus = db.consFinalityConsensus
  votes : db'.consFinalityVotes = db.consFinalityVotes

omit [Hashing D] in
theorem SameFinality.trans {db db' db'' : Db D S} (h : SameFinality db db')
    (h' : SameFinality db' db'') : SameFinality db db'' :=
  ⟨h'.stored.trans h.stored, h'.votes.trans h.votes⟩

theorem insertNotarizedBlock_finality {ε : Type} {db : Db D S} {r : BlockRound}
    {b : BlockHeader D} {payload : Option BlockPayloadRaw}
    {res : Db D S × InsertOutcome (BlockHeader D)}
    (h : (db.insertNotarizedBlock r b payload : Outcome ε _) = .ok res) :
    SameFinality db res.1 := by
  obtain ⟨_, _, ⟨e, _, rfl⟩ | ⟨_, rfl⟩⟩ := Db.insertNotarizedBlock_eq_ok.mp h
  · exact ⟨rfl, rfl⟩
  · cases payload <;> exact ⟨rfl, rfl⟩

theorem roundEndLoop_finality {start : BlockRound}
    {highest : Option (BlockHeader D)} {left : ℕ} {v v' : RoundEnd D S} {b : Bool}
    (h : roundEndLoop start highest left v = .ok (v', b)) :
    SameFinality v.db v'.db := by
  induction left generalizing v with
  | zero =>
      simp only [roundEndLoop, Outcome.bind_eq_ok] at h
      obtain ⟨t, _, h⟩ := h
      cases t with
      | done => cases h; exact ⟨rfl, rfl⟩
      | next w => cases h
  | succ left ih =>
      simp only [roundEndLoop, Outcome.bind_eq_ok] at h
      obtain ⟨t, ht, h⟩ := h
      cases t with
      | done => cases h; exact ⟨rfl, rfl⟩
      | next w =>
          have hturn : SameFinality v.db w.db := by
            obtain ⟨_, hcase⟩ := roundEndTurn_cases ht
            cases hcase with
            | notarized => exact ⟨rfl, rfl⟩
            | timedOut => exact ⟨rfl, rfl⟩
            | voted params p db o above hparams hp hvotes hdb =>
                exact insertNotarizedBlock_finality hdb
          have hrest : SameFinality w.next.db v'.db := ih h
          exact hturn.trans hrest

theorem checkRoundEnd_kept {c c' : Consensus D S} {start : BlockRound}
    (h : c.checkRoundEnd start = .ok c') : Kept c c' := by
  simp only [checkRoundEnd, Outcome.bind_eq_ok] at h
  obtain ⟨⟨v, b⟩, hloop, c₁, hself, h⟩ := h
  have hdb : (advanceRound v.db start v.curRound).consFinalityConsensus =
      c.db.consFinalityConsensus := by
    rw [← (roundEndLoop_finality hloop).stored]
    unfold advanceRound
    split <;> rfl
  have hmoved : Kept c { c with db := advanceRound v.db start v.curRound } :=
    .of_same ⟨rfl, rfl⟩ rfl hdb
  have hc₁ : Kept c c₁ := by
    cases hlast : v.newLastNotarizedRound with
    | none =>
        rw [hlast] at hself
        cases hself
        exact hmoved
    | some last =>
        rw [hlast] at hself
        simp only [updateFinalitySelfVote, Outcome.bind_eq_ok,
          BlockRound.nextExpect_eq_ok] at hself
        obtain ⟨_, ⟨_, rfl⟩, hself⟩ := hself
        have hsend : ∀ c : Consensus D S,
            Kept c (c.sendFinalitySelfVote (last + 1)) :=
          fun c => .of_same ⟨rfl, rfl⟩ rfl rfl
        split at hself
        · cases hself
          exact hmoved.trans (hsend _)
        · exact (hmoved.trans (hsend _)).trans
            (updatePeerFinalityVoteRound_kept hself)
  split at h
  · cases h
    exact hc₁
  · cases h
    refine hc₁.trans ?_
    unfold sendCurrentRound
    split
    · exact .refl _
    · exact .of_same ⟨rfl, rfl⟩ rfl rfl

/-! ## Messages -/

omit [Hashing D] in
theorem insertDummyVotes_finality {round : BlockRound} {l : List (PeerIdx × S)}
    {db : Db D S} : SameFinality db (db.insertDummyVotes round l) := by
  induction l generalizing db with
  | nil => exact ⟨rfl, rfl⟩
  | cons e l ih =>
      have h := @ih (db.insertDummyVote round e.1 e.2).1
      exact ⟨h.stored, h.votes⟩

omit [Hashing D] in
theorem insertBlockVotes_finality {round : BlockRound} {b : BlockHeader D}
    {l : List (PeerIdx × S)} {db : Db D S} :
    SameFinality db (db.insertBlockVotes round b l) := by
  induction l generalizing db with
  | nil => exact ⟨rfl, rfl⟩
  | cons e l ih =>
      have h := @ih (db.insertBlockVote round e.1 ⟨b, e.2⟩).1
      exact ⟨h.stored, h.votes⟩

theorem NotarizedIntake.finality {resp : WaitNotarizedBlockResponse D S}
    {db db' : Db D S} (h : NotarizedIntake db resp db') :
    SameFinality db db' := by
  cases h with
  | dummies => exact insertDummyVotes_finality
  | extend db₁ o hlater hext hdb =>
      exact (insertNotarizedBlock_finality hdb).trans insertBlockVotes_finality
  | replace latest db₁ o hlatest hlater hnot hext hdb =>
      have hdel : SameFinality db (db.deleteNotarizedBlock latest.round) :=
        ⟨rfl, rfl⟩
      exact (hdel.trans (insertNotarizedBlock_finality hdb)).trans
        insertBlockVotes_finality

theorem VoteIntake.finality [Signing D S] {db db' : Db D S}
    {params : ConsensusParams D} {i : PeerIdx} {resp : WaitVoteResponse D S}
    (h : VoteIntake db params i resp db') : SameFinality db db' := by
  cases h <;> exact ⟨rfl, rfl⟩

theorem insertConsensusParams_finality (db : Db D S) (r : BlockRound)
    (params : ConsensusParams D) :
    SameFinality db (db.insertConsensusParams r params).1 := by
  unfold Db.insertConsensusParams
  dsimp only
  split <;> exact ⟨rfl, rfl⟩

/-! ## Opening -/

omit [Hashing D] in
/-- Opening shows the stored value again. -/
theorem fresh_kept (c : Consensus D S) (fs : BlockRound) :
    Kept c (fresh c.db c.ourPeerPubkey c.trace fs) := by
  refine ⟨[], by rw [List.append_nil]; rfl, fun _ hinv => ⟨⟨?_, ?_⟩, rfl⟩⟩
  · refine List.pairwise_append.mpr ⟨hinv.sorted, by simp, fun x hx y hy => ?_⟩
    rw [List.mem_singleton.mp hy]
    exact hinv.stored x hx
  · intro x hx
    rcases List.mem_append.mp hx with hx | hx
    · exact hinv.stored x hx
    · exact le_of_eq (List.mem_singleton.mp hx)

/-- So the state that opening builds relates to one with the same database and
trace that was never opened. -/
theorem openInternal_kept {ε : Type} {c c' : Consensus D S}
    (h : (openInternal c.db c.ourPeerPubkey c.trace : Outcome ε _) = .ok c') :
    Kept c c' := by
  simp only [openInternal, openInternalTx, Outcome.bind_eq_ok,
    Outcome.expectOk_eq_ok] at h
  obtain ⟨fs, _, c₁, hwrite, hcheck⟩ := h
  have hc₁ : Kept (fresh c.db c.ourPeerPubkey c.trace fs) c₁ := by
    unfold writeFinalitySelfVote at hwrite
    split at hwrite
    · exact updatePeerFinalityVoteRound_kept hwrite
    · cases hwrite
      exact .refl _
  exact ((fresh_kept c fs).trans hc₁).trans (checkRoundEnd_kept hcheck)

/-! ## Runs -/

section Runs

variable [DecidableEq S] [Signing D S]

theorem step_kept (c : Consensus D S) (op : ConsensusOp D S) :
    Kept c (c.step op) := by
  have hcase := step_cases c op
  generalize c.step op = c' at hcase
  cases hcase with
  | same => exact .refl c
  | vote i resp params db _ hparams hin hcounted =>
      have hdb : Kept c { c with db := db } := .of_same ⟨rfl, rfl⟩ rfl hin.finality.stored
      rcases hcounted with ⟨_, rfl⟩ | ⟨_, hcheck⟩
      · exact hdb
      · exact hdb.trans (checkRoundEnd_kept hcheck)
  | notarized resp params db _ hok hver hin hcheck =>
      have hdb : Kept c { c with db := db } := .of_same ⟨rfl, rfl⟩ rfl hin.finality.stored
      exact hdb.trans (checkRoundEnd_kept hcheck)
  | finality k resp _ hsig hupdate => exact updatePeerFinalityVoteRound_kept hupdate
  | paramsChange =>
      exact .of_same ⟨rfl, rfl⟩ rfl (insertConsensusParams_finality _ _ _).stored
  | reopen _ hopen => exact openInternal_kept hopen

theorem run_kept (c : Consensus D S) (ops : List (ConsensusOp D S)) :
    Kept c (c.run ops) := by
  induction ops generalizing c with
  | nil => exact .refl c
  | cons op ops ih => exact (step_kept c op).trans (ih (c.step op))

omit [DecidableEq S] [Signing D S] in
/-- The first start is an opening too, of a state with nothing shown yet. -/
theorem init_kept {params : ConsensusParams D} {k : Option PeerPubkey}
    {pinned : Option (BlockRound × D)} {c : Consensus D S}
    (h : init params Db.empty k pinned = .ok c) :
    ∃ c₀ : Consensus D S, ShownInv c₀ ∧ c₀.trace.recounts = [] ∧ Kept c₀ c := by
  refine ⟨⟨insertPin ((Db.empty : Db D S).insertConsensusParams 0 params).1 pinned,
    k, (0, false), 0, 0, Trace.empty⟩, ⟨⟨List.Pairwise.nil, ?_⟩, ?_⟩, rfl,
    openInternal_kept (init_ok h)⟩
  · intro x hx
    cases hx
  · unfold insertPin
    split
    · show 0 = ((Db.empty : Db D S).insertConsensusParams 0
        params).1.consFinalityConsensus.getD 0
      rw [(insertConsensusParams_finality _ _ _).stored]
      rfl
    · show 0 = ((Db.empty : Db D S).insertConsensusParams 0
        params).1.consFinalityConsensus.getD 0
      rw [(insertConsensusParams_finality _ _ _).stored]
      rfl

theorem run_shownInv {params : ConsensusParams D} {k : Option PeerPubkey}
    {pinned : Option (BlockRound × D)} {c : Consensus D S}
    {ops : List (ConsensusOp D S)}
    (hinit : init params Db.empty k pinned = .ok c)
    (henough : ∀ r ∈ (c.run ops).trace.recounts, r.Enough) :
    ShownInv (c.run ops) := by
  obtain ⟨c₀, hinv, hnone, hkept⟩ := init_kept hinit
  obtain ⟨rs, hrs, hforward⟩ := hkept.trans (run_kept c ops)
  rw [hnone, List.nil_append] at hrs
  exact hforward (fun r hr => henough r (by rw [hrs]; exact hr)) hinv

/-- In every run in which each recount finds a threshold of votes that are not
below the stored value, the values shown go up and the stored one stays above
them. -/
theorem finality_forward_of_enough {params : ConsensusParams D}
    {k : Option PeerPubkey} {pinned : Option (BlockRound × D)}
    {c : Consensus D S} {ops : List (ConsensusOp D S)}
    (hinit : init params Db.empty k pinned = .ok c)
    (henough : ∀ r ∈ (c.run ops).trace.recounts, r.Enough) :
    FinalityInv (c.run ops) :=
  (run_shownInv hinit henough).toFinalityInv

end Runs

/-! ## One peer goes back -/

section GoingBack

instance (c : Consensus D S) : Decidable (FinalityInv c) :=
  decidable_of_iff
    (c.trace.finalityConsensus.Pairwise (· ≤ ·) ∧
      ∀ x ∈ c.trace.finalityConsensus, x ≤ c.db.getFinalityConsensus.getD 0)
    ⟨fun h => ⟨h.1, h.2⟩, fun h => ⟨h.sorted, h.stored⟩⟩

/-- A finality vote of a peer. -/
def finalityVote (k : PeerPubkey) (r : BlockRound) :
    ConsensusOp ListDigest PlainSig :=
  .finality k ⟨r, Signing.sign k (SignMsg.finality r : SignMsg ListDigest)⟩

/-- Three peers of four have notarized up to round 10; we are behind. -/
def threeVotes : List (ConsensusOp ListDigest PlainSig) :=
  [finalityVote 10 10, finalityVote 11 10, finalityVote 12 10]

theorem finality_forward_of_threeVotes : ∃ c : Consensus ListDigest PlainSig,
    init (plainParams [10, 11, 12, 13]) Db.empty (some 13) none = .ok c ∧
      FinalityInv (c.run threeVotes) := by
  have hrun : (init (plainParams [10, 11, 12, 13])
      (Db.empty : Db ListDigest PlainSig) (some 13) none).Returns fun c =>
        ∀ r ∈ (c.run threeVotes).trace.recounts, r.Enough := by decide +kernel
  obtain ⟨c, hinit, henough⟩ := Outcome.returns_iff.mp hrun
  exact ⟨c, hinit, finality_forward_of_enough hinit henough⟩

/-- One of them takes its vote back and then raises it in small steps. -/
def backwardVotes : List (ConsensusOp ListDigest PlainSig) :=
  threeVotes ++ [finalityVote 12 3, finalityVote 12 4, finalityVote 12 5]

theorem backward_votes_lower_finality :
    ¬ ∀ (c : Consensus ListDigest PlainSig)
        (ops : List (ConsensusOp ListDigest PlainSig)),
      init (plainParams [10, 11, 12, 13]) Db.empty (some 13) none = .ok c →
      (c.run ops).trace.finalityConsensus.Pairwise (· ≤ ·) ∧
        ∀ x ∈ (c.run ops).trace.finalityConsensus,
          x ≤ (c.run ops).db.getFinalityConsensus.getD 0 := by
  intro h
  have hrun : (init (plainParams [10, 11, 12, 13])
      (Db.empty : Db ListDigest PlainSig) (some 13) none).Returns fun c =>
        (c.run backwardVotes).trace.finalityConsensus = [0, 10, 5] ∧
          (c.run backwardVotes).db.getFinalityConsensus = some 5 := by
    decide +kernel
  obtain ⟨c, hinit, hshown, _⟩ := Outcome.returns_iff.mp hrun
  have hsorted := (h c backwardVotes hinit).1
  rw [hshown] at hsorted
  simp at hsorted

end GoingBack

end Consensus

end Bfte
