import Bfte.Lib.Watermark
import Bfte.Proofs.DummyRounds
import Bfte.Proofs.FinalityValue
import Bfte.Proofs.Starting

/-!
# The finality consensus keeps up

The finality consensus is counted anew only when the finality vote of a peer has grown, and
a peer may take its votes back in between. With peers that do not change it is nevertheless
never behind the votes that are stored: as soon as a threshold of the members have voted
for a round, in whatever order and among whatever else the votes have come in, it is at
least that round, and so is the value that is shown.

A consensus is related to a mark that follows votes: every message moves it on by votes of
the peer the message is from, and by own ones.
-/

namespace Bfte

namespace Consensus

variable {D S : Type} [LinearOrder D]

/-- The finality votes, the finality consensus that is stored and the one that is shown. -/
def finalityMark (c : Consensus D S) : Watermark.State PeerPubkey BlockRound :=
  ⟨finalityVoteOf c.db, c.db.getFinalityConsensus.getD 0, c.finalityConsensus⟩

/-- The params of every round are these. -/
def Throughout (params : ConsensusParams D) (db : Db D S) : Prop :=
  ∀ r, (db.getConsensusParams r : Outcome Empty _) = .ok params

/-- A mark is moved on by votes of some keys. -/
def MarkMoves (peers : PeerSet) (P : PeerPubkey → Prop)
    (s s' : Watermark.State PeerPubkey BlockRound) : Prop :=
  Watermark.Moves peers.items (NumPeers.mk peers.len).maxFaulty P s s'

theorem Throughout.congr {params : ConsensusParams D} {db db' : Db D S}
    (h : Throughout params db) (hsame : SameParams db db') : Throughout params db' := by
  intro r
  rw [hsame.getConsensusParams]
  exact h r

/-! ## One vote -/

variable {params : ConsensusParams D} {c c' : Consensus D S} {r : BlockRound}
  {k : PeerPubkey} {v : BlockRound}

theorem finalityVoteOf_update (db : Db D S) (k : PeerPubkey) (v : BlockRound) :
    finalityVoteOf (db.updateFinalityVote k v) = Function.update (finalityVoteOf db) k v := by
  funext k'
  rw [Function.update_apply]
  unfold finalityVoteOf Db.getFinalityVote Db.updateFinalityVote
  dsimp only
  rw [SortedTable.get?_insert]
  split <;> rfl

/-- A count. -/
theorem recalculateFinalityConsensusTx_mark {ε : Type} (hparams : Throughout params c.db)
    (h : (c.recalculateFinalityConsensusTx r : Outcome ε _) = .ok c') :
    ∃ m, OrderStat.kth (params.peers.items.map (finalityVoteOf c.db))
        (NumPeers.mk params.peers.len).maxFaulty = some m ∧
      c'.finalityMark = ⟨finalityVoteOf c.db, m,
        if c.db.getFinalityConsensus.getD 0 < m then m else c.finalityConsensus⟩ := by
  unfold recalculateFinalityConsensusTx at h
  rw [Outcome.bind_of_ok (Db.getConsensusParams_cast (hparams r))] at h
  simp only [Outcome.bind_eq_ok, ConsensusParams.numPeers_eq_ok, Outcome.expect_eq_ok] at h
  obtain ⟨_, ⟨_, rfl⟩, m, hm, h⟩ := h
  refine ⟨m, hm, ?_⟩
  rcases lt_trichotomy m (c.db.getFinalityConsensus.getD 0) with hlt | heq | hgt
  · rw [if_pos hlt, if_pos rfl] at h
    cases h
    rw [if_neg (not_lt.mpr (le_of_lt hlt))]
    rfl
  · rw [if_neg (not_lt.mpr (le_of_eq heq.symm)), if_pos heq.symm] at h
    cases h
    rw [if_neg (not_lt.mpr (le_of_eq heq))]
    rfl
  · rw [if_neg (not_lt.mpr (le_of_lt hgt)), if_neg (ne_of_lt hgt)] at h
    cases h
    rw [if_pos hgt]
    rfl

/-- The vote of a peer is written down, and counted if it has grown. -/
theorem updatePeerFinalityVoteRound_move {ε : Type} (hparams : Throughout params c.db)
    (h : (c.updatePeerFinalityVoteRound r k v : Outcome ε _) = .ok c') :
    Watermark.Move params.peers.items (NumPeers.mk params.peers.len).maxFaulty
      (some (k, v)) c.finalityMark c'.finalityMark := by
  simp only [updatePeerFinalityVoteRound] at h
  split at h
  · next hold =>
      cases h
      obtain ⟨prev, hprev, hle⟩ := (Option.any_eq_true _ _).mp hold
      have hmark : finalityMark { c with db := c.db.updateFinalityVote k v } =
          { c.finalityMark with votes := Function.update (finalityVoteOf c.db) k v } := by
        unfold finalityMark
        rw [finalityVoteOf_update]
        rfl
      rw [hmark]
      refine .recorded c.finalityMark k v ?_
      show v ≤ (c.db.getFinalityVote k).getD 0
      rw [hprev]
      exact of_decide_eq_true hle
  · have hparams' : Throughout params (c.db.updateFinalityVote k v) :=
      hparams.congr ⟨rfl, rfl⟩
    obtain ⟨m, hm, hmark⟩ := recalculateFinalityConsensusTx_mark
      (c := { c with db := c.db.updateFinalityVote k v }) hparams' h
    rw [finalityVoteOf_update] at hm hmark
    rw [hmark]
    exact .recounted c.finalityMark k v m hm

/-! ## Transactions -/

/-- `c'` comes from `c` by votes of some keys, as far as finality goes. -/
structure Counts (params : ConsensusParams D) (P : PeerPubkey → Prop)
    (c c' : Consensus D S) : Prop where
  schedule : SameParams c.db c'.db
  key : c'.ourPeerPubkey = c.ourPeerPubkey
  moves : Throughout params c.db →
    MarkMoves params.peers P c.finalityMark c'.finalityMark

variable {P : PeerPubkey → Prop}

theorem Counts.trans {c₁ : Consensus D S} (h : Counts params P c c₁)
    (h' : Counts params P c₁ c') : Counts params P c c' where
  schedule := h.schedule.trans h'.schedule
  key := h'.key.trans h.key
  moves hparams := (h.moves hparams).trans (h'.moves (hparams.congr h.schedule))

theorem Counts.mono {Q : PeerPubkey → Prop} (h : Counts params P c c')
    (hPQ : ∀ k, P k → Q k) : Counts params Q c c' :=
  ⟨h.schedule, h.key, fun hparams => (h.moves hparams).mono hPQ⟩

theorem Counts.of_same (hparams : SameParams c.db c'.db)
    (hkey : c'.ourPeerPubkey = c.ourPeerPubkey) (hfinality : SameFinality c.db c'.db)
    (hshown : c'.finalityConsensus = c.finalityConsensus) : Counts params P c c' := by
  refine ⟨hparams, hkey, fun _ => ?_⟩
  have hmark : c'.finalityMark = c.finalityMark := by
    unfold finalityMark finalityVoteOf Db.getFinalityVote Db.getFinalityConsensus
    rw [hfinality.votes, hfinality.stored, hshown]
  rw [hmark]
  exact .refl

theorem Counts.refl (c : Consensus D S) : Counts params P c c :=
  .of_same (.refl _) rfl ⟨rfl, rfl⟩ rfl

theorem updatePeerFinalityVoteRound_counts {ε : Type} (hk : P k)
    (h : (c.updatePeerFinalityVoteRound r k v : Outcome ε _) = .ok c') :
    Counts params P c c' where
  schedule := (updatePeerFinalityVoteRound_frame h).sameParams
  key := (updatePeerFinalityVoteRound_frame h).key
  moves hparams := by
    refine (updatePeerFinalityVoteRound_move hparams h).moves fun e he => ?_
    cases he
    exact hk

variable [Hashing D]

theorem roundEndLoop_params {start : BlockRound} {highest : Option (BlockHeader D)}
    {left : ℕ} {w w' : RoundEnd D S} {b : Bool}
    (h : roundEndLoop start highest left w = .ok (w', b)) : SameParams w.db w'.db := by
  induction left generalizing w with
  | zero =>
      simp only [roundEndLoop, Outcome.bind_eq_ok] at h
      obtain ⟨t, _, h⟩ := h
      cases t with
      | done => cases h; exact .refl _
      | next _ => cases h
  | succ left ih =>
      simp only [roundEndLoop, Outcome.bind_eq_ok] at h
      obtain ⟨t, ht, h⟩ := h
      cases t with
      | done => cases h; exact .refl _
      | next x =>
          have hturn : SameParams w.db x.db := by
            obtain ⟨_, hcase⟩ := roundEndTurn_cases ht
            cases hcase with
            | notarized => exact .refl _
            | timedOut => exact .refl _
            | voted params p db o above hparams hp hvotes hdb =>
                exact insertNotarizedBlock_sameParams hdb
          exact hturn.trans (ih (w := x.next) h)

/-- The own vote is the only one that the round check counts. -/
theorem checkRoundEnd_counts {start : BlockRound} (h : c.checkRoundEnd start = .ok c') :
    Counts params (fun k => c.ourPeerPubkey = some k) c c' := by
  simp only [checkRoundEnd, Outcome.bind_eq_ok] at h
  obtain ⟨⟨w, b⟩, hloop, c₁, hself, h⟩ := h
  have hmoved : Counts params (fun k => c.ourPeerPubkey = some k) c
      { c with db := advanceRound w.db start w.curRound } := by
    refine .of_same ((roundEndLoop_params hloop).trans ?_) rfl ?_ rfl
    · unfold advanceRound
      split <;> exact ⟨rfl, rfl⟩
    · refine (roundEndLoop_finality hloop).trans ?_
      unfold advanceRound
      split <;> exact ⟨rfl, rfl⟩
  have hc₁ : Counts params (fun k => c.ourPeerPubkey = some k) c c₁ := by
    cases hlast : w.newLastNotarizedRound with
    | none =>
        rw [hlast] at hself
        cases hself
        exact hmoved
    | some last =>
        rw [hlast] at hself
        simp only [updateFinalitySelfVote, Outcome.bind_eq_ok,
          BlockRound.nextExpect_eq_ok] at hself
        obtain ⟨_, ⟨_, rfl⟩, hself⟩ := hself
        have hsent : ∀ c₂ : Consensus D S, Counts params
            (fun k => c.ourPeerPubkey = some k) c₂ (c₂.sendFinalitySelfVote (last + 1)) :=
          fun _ => .of_same (.refl _) rfl ⟨rfl, rfl⟩ rfl
        split at hself
        · cases hself
          exact hmoved.trans (hsent _)
        · next k hk =>
            exact (hmoved.trans (hsent _)).trans (updatePeerFinalityVoteRound_counts hk hself)
  split at h
  · cases h
    exact hc₁
  · cases h
    refine hc₁.trans ?_
    unfold sendCurrentRound
    split
    · exact .refl _
    · exact .of_same (.refl _) rfl ⟨rfl, rfl⟩ rfl

/-- Opening shows what is stored, and counts the own vote. -/
theorem openInternal_counts {ε : Type}
    (h : (openInternal c.db c.ourPeerPubkey c.trace : Outcome ε _) = .ok c') :
    Counts params (fun k => c.ourPeerPubkey = some k) c c' := by
  simp only [openInternal, openInternalTx, Outcome.bind_eq_ok, Outcome.expectOk_eq_ok] at h
  obtain ⟨fs, _, c₁, hwrite, hcheck⟩ := h
  have hfresh : Counts params (fun k => c.ourPeerPubkey = some k) c
      (fresh c.db c.ourPeerPubkey c.trace fs) := by
    refine ⟨.refl _, rfl, fun _ => ?_⟩
    have hshown : Watermark.Move params.peers.items (NumPeers.mk params.peers.len).maxFaulty
        none c.finalityMark { c.finalityMark with shown := c.finalityMark.mark } := .shown _
    refine hshown.moves fun e he => ?_
    cases he
  have hc₁ : Counts params (fun k => c.ourPeerPubkey = some k)
      (fresh c.db c.ourPeerPubkey c.trace fs) c₁ := by
    unfold writeFinalitySelfVote at hwrite
    split at hwrite
    · next k hk => exact updatePeerFinalityVoteRound_counts hk hwrite
    · cases hwrite
      exact .refl _
  have hopened := hfresh.trans hc₁
  have hcounts : Counts params (fun k => c₁.ourPeerPubkey = some k) c₁ c' :=
    checkRoundEnd_counts hcheck
  rw [hopened.key] at hcounts
  exact hopened.trans hcounts

/-! ## Runs -/

section Runs

variable [DecidableEq S] [Signing D S]

omit [LinearOrder D] [Hashing D] [DecidableEq S] in
/-- The op is a finality vote that a peer has signed. -/
def Votes (op : ConsensusOp D S) (k : PeerPubkey) (v : BlockRound) : Prop :=
  ∃ sig, op = .finality k ⟨v, sig⟩ ∧
    verifyHashSignature (.finality v : SignMsg D) k sig = .ok ()

theorem step_finality_counts (c : Consensus D S) (k : PeerPubkey)
    (resp : WaitFinalityVoteResponse S) :
    Counts params (fun k' => ∃ v, Votes (.finality k resp : ConsensusOp D S) k' v) c
      (c.step (.finality k resp)) := by
  refine commit_induct (P := fun c' => Counts params _ c c') (.refl c) fun c' h => ?_
  simp only [processFinalityVoteUpdateResponseTx, Outcome.bind_eq_ok,
    Outcome.orRaise_eq_ok] at h
  obtain ⟨_, hsig, h⟩ := h
  exact updatePeerFinalityVoteRound_counts ⟨resp.update, resp.sig, rfl, hsig⟩ h

/-- An op moves finality on by the votes of the peer it comes from, and by own ones. -/
theorem step_counts (c : Consensus D S) (op : ConsensusOp D S)
    (hop : ∀ r t s, op ≠ .paramsChange r t s) :
    Counts params (fun k => c.ourPeerPubkey = some k ∨ ∃ v, Votes op k v) c (c.step op) := by
  by_cases hfinality : ∃ k resp, op = .finality k resp
  · obtain ⟨k, resp, rfl⟩ := hfinality
    exact (step_finality_counts c k resp).mono fun _ => Or.inr
  · refine Counts.mono (P := fun k => c.ourPeerPubkey = some k) ?_ fun _ => Or.inl
    have hcase := step_cases c op
    generalize c.step op = c' at hcase
    cases hcase with
    | same => exact .refl c
    | vote i resp params' db _ hparams hin hcounted =>
        have hdb : Counts params (fun k => c.ourPeerPubkey = some k) c
            { c with db := db } := .of_same hin.sameParams rfl hin.finality rfl
        rcases hcounted with ⟨_, rfl⟩ | ⟨_, hcheck⟩
        · exact hdb
        · exact hdb.trans (checkRoundEnd_counts hcheck)
    | notarized resp params' db _ hok hver hin hcheck =>
        have hdb : Counts params (fun k => c.ourPeerPubkey = some k) c
            { c with db := db } := .of_same hin.sameParams rfl hin.finality rfl
        exact hdb.trans (checkRoundEnd_counts hcheck)
    | finality k resp => exact absurd ⟨k, resp, rfl⟩ hfinality
    | paramsChange round timestamp peers => exact absurd rfl (hop round timestamp peers)
    | reopen _ hopen => exact openInternal_counts hopen

/-- A signed finality vote of a peer is stored. -/
theorem step_vote_stored {op : ConsensusOp D S} (hparams : Throughout params c.db)
    (hpos : params.peers.len ≠ 0) (hlen : params.peers.len ≤ 255) (hvote : Votes op k v) :
    finalityVoteOf (c.step op).db k = v := by
  obtain ⟨sig, rfl, hsig⟩ := hvote
  have hreturns : ∃ c', (c.updatePeerFinalityVoteRound c.db.getCurrentRound k v :
      Outcome ProcessFinalityVoteError _) = .ok c' := by
    unfold updatePeerFinalityVoteRound
    dsimp only
    split
    · exact ⟨_, rfl⟩
    · exact recalculateFinalityConsensusTx_returns
        (Db.getConsensusParams_cast (hparams.congr ⟨rfl, rfl⟩ _)) hlen hpos
  obtain ⟨c', hc'⟩ := hreturns
  have hstep : c.step (.finality k ⟨v, sig⟩) = c' := by
    show c.commit (c.processFinalityVoteUpdateResponseTx k ⟨v, sig⟩) = c'
    unfold processFinalityVoteUpdateResponseTx
    rw [Outcome.bind_of_ok (Outcome.orRaise_eq_ok.mpr hsig), hc']
    rfl
  rw [hstep]
  exact (updatePeerFinalityVoteRound_move hparams hc').votes_self

/-- The vote that is stored for another peer is the last one it has signed. -/
theorem step_vote_kept {op : ConsensusOp D S} (hop : ∀ r t s, op ≠ .paramsChange r t s)
    (hparams : Throughout params c.db) (hown : c.ourPeerPubkey ≠ some k)
    (hvote : ∀ v, ¬ Votes op k v) :
    finalityVoteOf (c.step op).db k = finalityVoteOf c.db k := by
  refine ((step_counts c op hop).moves hparams).votes_of_not ?_
  rintro (hkey | ⟨v, hv⟩)
  · exact hown hkey
  · exact hvote v hv

/-- The peers can be counted, and finality is not behind their votes. -/
structure UpToDate (params : ConsensusParams D) (own : Option PeerPubkey)
    (c : Consensus D S) : Prop where
  staffed : params.peers.len ≠ 0 ∧ params.peers.len ≤ 255
  throughout : Throughout params c.db
  own : c.ourPeerPubkey = own
  current : Watermark.Current params.peers.items (NumPeers.mk params.peers.len).maxFaulty
    c.finalityMark

variable {own : Option PeerPubkey} {pinned : Option (BlockRound × D)}

omit [Hashing D] [DecidableEq S] [Signing D S] in
theorem Counts.upToDate (h : Counts params P c c') (hc : UpToDate params own c) :
    UpToDate params own c' :=
  ⟨hc.staffed, hc.throughout.congr h.schedule, h.key.trans hc.own,
    (h.moves hc.throughout).current hc.current⟩

theorem run_upToDate {ops : List (ConsensusOp D S)} (hc : UpToDate params own c)
    (hops : ∀ op ∈ ops, ∀ r t s, op ≠ .paramsChange r t s) :
    UpToDate params own (c.run ops) := by
  induction ops generalizing c with
  | nil => exact hc
  | cons op ops ih =>
      obtain ⟨hop, hops⟩ := List.forall_mem_cons.mp hops
      exact ih ((step_counts c op hop).upToDate hc) hops

omit [DecidableEq S] [Signing D S] in
/-- Opening a new database starts from no votes, and from a finality consensus of 0. -/
theorem init_upToDate (h : init params Db.empty own pinned = .ok c) :
    UpToDate params own c := by
  let c₀ : Consensus D S :=
    ⟨initialDb params pinned, own, (0, false), 0, 0, Trace.empty⟩
  have hfinality : SameFinality (Db.empty : Db D S) (initialDb params pinned) := by
    refine (insertConsensusParams_finality _ 0 params).trans ?_
    unfold initialDb insertPin
    split <;> exact ⟨rfl, rfl⟩
  have hzero : ∀ k, finalityVoteOf c₀.db k = 0 := by
    intro k
    unfold finalityVoteOf Db.getFinalityVote
    rw [hfinality.votes]
    rfl
  have hstaffed := init_returns_iff.mp ⟨c, h⟩
  have hpos : 0 < params.peers.items.length - (NumPeers.mk params.peers.len).maxFaulty :=
    NumPeers.threshold_pos hstaffed.1
  have hcurrent : UpToDate params own c₀ := by
    refine ⟨hstaffed, initialDb_params params pinned, rfl, fun p hp => ?_, ?_⟩
    · obtain ⟨k, _, hk⟩ := hp.exists_le hpos
      exact (hk.trans_eq (hzero k)).trans (Nat.zero_le _)
    · show c₀.db.getFinalityConsensus.getD 0 ≤ 0
      unfold Db.getFinalityConsensus
      rw [hfinality.stored]
      exact le_refl _
  exact (openInternal_counts (c := c₀) (init_ok h)).upToDate hcurrent

/-! ## Votes that have come in -/

/-- The peer has voted for a round at least, and does not take that back. -/
def VotedUpTo (ops : List (ConsensusOp D S)) (k : PeerPubkey) (r : BlockRound) : Prop :=
  ∃ before op after v, ops = before ++ op :: after ∧ Votes op k v ∧ r ≤ v ∧
    ∀ op' ∈ after, ∀ v', Votes op' k v' → r ≤ v'

theorem run_vote_kept {ops : List (ConsensusOp D S)} (hc : UpToDate params own c)
    (hops : ∀ op ∈ ops, ∀ r t s, op ≠ .paramsChange r t s) (hown : own ≠ some k)
    (hlater : ∀ op ∈ ops, ∀ v, Votes op k v → r ≤ v) (hr : r ≤ finalityVoteOf c.db k) :
    r ≤ finalityVoteOf (c.run ops).db k := by
  induction ops generalizing c with
  | nil => exact hr
  | cons op ops ih =>
      obtain ⟨hop, hops⟩ := List.forall_mem_cons.mp hops
      obtain ⟨hvote, hlater⟩ := List.forall_mem_cons.mp hlater
      refine ih ((step_counts c op hop).upToDate hc) hops hlater ?_
      by_cases hvotes : ∃ v, Votes op k v
      · obtain ⟨v, hv⟩ := hvotes
        rw [step_vote_stored hc.throughout hc.staffed.1 hc.staffed.2 hv]
        exact hvote v hv
      · rw [← hc.own] at hown
        rw [step_vote_kept hop hc.throughout hown (not_exists.mp hvotes)]
        exact hr

/-- The vote of another peer that has come in is stored at the end. -/
theorem run_votedUpTo {ops : List (ConsensusOp D S)} (hc : UpToDate params own c)
    (hops : ∀ op ∈ ops, ∀ r t s, op ≠ .paramsChange r t s) (hown : own ≠ some k)
    (hvoted : VotedUpTo ops k r) : r ≤ finalityVoteOf (c.run ops).db k := by
  obtain ⟨before, op, after, v, rfl, hvote, hle, hlater⟩ := hvoted
  obtain ⟨hbefore, hops⟩ := List.forall_mem_append.mp hops
  obtain ⟨hop, hafter⟩ := List.forall_mem_cons.mp hops
  have hmid : UpToDate params own (c.run before) := run_upToDate hc hbefore
  have hstored := step_vote_stored hmid.throughout hmid.staffed.1 hmid.staffed.2 hvote
  have hrest := run_vote_kept ((step_counts _ op hop).upToDate hmid) hafter hown hlater
    (hle.trans_eq hstored.symm)
  unfold run at hrest ⊢
  rw [Trail.run_append]
  exact hrest

/-- In every run in which the params do not change: once a threshold of the members have
voted for a round or beyond, and have not taken that back, the finality consensus has got
there, the stored one and the one that is shown. In between there may be anything else,
restarts and votes that go back and forth too. -/
theorem finality_reaches {ops : List (ConsensusOp D S)} (members : List PeerPubkey)
    (hinit : init params Db.empty own pinned = .ok c)
    (hops : ∀ op ∈ ops, ∀ r t s, op ≠ .paramsChange r t s)
    (hnodup : members.Nodup) (hmembers : ∀ k ∈ members, k ∈ params.peers.items)
    (henough : (NumPeers.mk params.peers.len).threshold ≤ members.length)
    (hvotes : ∀ k ∈ members,
      (own ≠ some k ∧ VotedUpTo ops k r) ∨ r ≤ finalityVoteOf (c.run ops).db k) :
    r ≤ (c.run ops).db.getFinalityConsensus.getD 0 ∧ r ≤ (c.run ops).finalityConsensus := by
  have hc : UpToDate params own c := init_upToDate hinit
  have hend : UpToDate params own (c.run ops) := run_upToDate hc hops
  have hstored : ∀ k ∈ members, r ≤ finalityVoteOf (c.run ops).db k := by
    intro k hk
    rcases hvotes k hk with ⟨hown, hvoted⟩ | hle
    · exact run_votedUpTo hc hops hown hvoted
    · exact hle
  have hmark := hend.current.mark r
    (Watermark.reached_of_voters hnodup hmembers henough hstored)
  exact ⟨hmark, hmark.trans hend.current.shown⟩

end Runs

section BackAndForth

/-- Two peers of four vote for round 10 and a third takes its vote back for a while; the
node is restarted in between. -/
def backAndForthVotes : List (ConsensusOp ListDigest PlainSig) :=
  [finalityVote 10 10, finalityVote 12 10, finalityVote 12 3, .reopen, finalityVote 11 10,
    finalityVote 12 10]

theorem votes_finalityVote {k k' : PeerPubkey} {v v' : BlockRound}
    (h : Votes (finalityVote k v) k' v') : k' = k ∧ v' = v := by
  obtain ⟨_, heq, _⟩ := h
  cases heq
  exact ⟨rfl, rfl⟩

theorem votes_finalityVote_self (k : PeerPubkey) (v : BlockRound) :
    Votes (finalityVote k v) k v :=
  ⟨_, rfl, verifyHashSignature_eq_ok.mpr ⟨rfl, decide_eq_true rfl⟩⟩

/-- None of the later votes takes it back. -/
theorem votedUpTo_finalityVote (before : List (ConsensusOp ListDigest PlainSig))
    {after : List (ConsensusOp ListDigest PlainSig)} {k : PeerPubkey} {r : BlockRound}
    (hafter : ∀ op ∈ after, op = .reopen ∨ ∃ k' v, op = finalityVote k' v ∧
      (k' = k → r ≤ v)) : VotedUpTo (before ++ finalityVote k r :: after) k r := by
  refine ⟨before, _, after, r, rfl, votes_finalityVote_self k r, le_refl r, ?_⟩
  intro op hop v hv
  rcases hafter op hop with rfl | ⟨k', v', rfl, hle⟩
  · obtain ⟨_, heq, _⟩ := hv
    cases heq
  · obtain ⟨rfl, rfl⟩ := votes_finalityVote hv
    exact hle rfl

theorem finality_reaches_backAndForth : ∃ c : Consensus ListDigest PlainSig,
    init (plainParams [10, 11, 12, 13]) Db.empty (some 13) none = .ok c ∧
      10 ≤ (c.run backAndForthVotes).db.getFinalityConsensus.getD 0 ∧
      10 ≤ (c.run backAndForthVotes).finalityConsensus := by
  have hinit : (init (plainParams [10, 11, 12, 13])
      (Db.empty : Db ListDigest PlainSig) (some 13) none).Returns fun _ => True := by
    decide +kernel
  obtain ⟨c, hinit, -⟩ := Outcome.returns_iff.mp hinit
  refine ⟨c, hinit, finality_reaches [10, 11, 12] hinit ?_ (by decide)
    (by decide) (by decide) ?_⟩
  · intro op hop r t s heq
    subst heq
    simp [backAndForthVotes, finalityVote] at hop
  · have hten : VotedUpTo backAndForthVotes 10 10 :=
      votedUpTo_finalityVote [] (by simp [finalityVote])
    have heleven : VotedUpTo backAndForthVotes 11 10 :=
      votedUpTo_finalityVote [finalityVote 10 10, finalityVote 12 10,
        finalityVote 12 3, .reopen] (by simp [finalityVote])
    have htwelve : VotedUpTo backAndForthVotes 12 10 :=
      votedUpTo_finalityVote [finalityVote 10 10, finalityVote 12 10,
        finalityVote 12 3, .reopen, finalityVote 11 10] (by simp)
    intro k hk
    simp only [List.mem_cons, List.not_mem_nil, or_false] at hk
    rcases hk with rfl | rfl | rfl
    · exact Or.inl ⟨by decide, hten⟩
    · exact Or.inl ⟨by decide, heleven⟩
    · exact Or.inl ⟨by decide, htwelve⟩

end BackAndForth

end Consensus

end Bfte
