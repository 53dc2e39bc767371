import Bfte.Proofs.GenuineBlocks
import Bfte.Proofs.Voters

/-!
# Catching up from another peer

A peer asks for the first notarized block after its own latest one, and a peer that
is asked answers with what it has. The answer extends the latest block of the one
who asks, or that has to be deleted and the answer extends the block before it; the
code takes it for granted that one of the two is the case.

It is, if no peer takes a block late. A correct peer has voted for the latest block
of the one and for the answer of the other, and has seen the parents of both.
-/

namespace Bfte

/-! ## An answer does not make the check panic -/

/-- There is a peer at the index, and its key is a key. -/
def Seated (D S : Type) [Signing D S] (peers : PeerSet) (j : PeerIdx) : Prop :=
  ∃ k, peers.items[j]? = some k ∧ Signing.validKey D S k = true

theorem SigOk.seated {D S : Type} [Signing D S] {peers : PeerSet} {msg : SignMsg D}
    {j : PeerIdx} {sig : S} (h : SigOk peers msg j sig) : Seated D S peers j := by
  obtain ⟨k, hk, hvalid, _⟩ := h
  exact ⟨k, hk, hvalid⟩

namespace Consensus

variable {D S : Type} [LinearOrder D] [Hashing D] [Signing D S]

omit [LinearOrder D] [Hashing D] in
theorem verifyEach_not_panicked {h : BlockHeader D} {peers : PeerSet}
    {l : List (PeerIdx × S)} (hseats : ∀ e ∈ l, Seated D S peers e.1) :
    ¬ (Notarized.verifyEach h peers l).Panicked := by
  induction l with
  | nil => exact Outcome.not_panicked_ok
  | cons e l ih =>
      obtain ⟨i, sig⟩ := e
      obtain ⟨k, hk, hvalid⟩ := hseats (i, sig) List.mem_cons_self
      unfold Notarized.verifyEach
      rw [Outcome.bind_of_ok (PeerSet.index_eq_ok.mpr hk)]
      intro hpanic
      rcases Outcome.bind_panicked.mp hpanic with hsig | ⟨_, _, hrest⟩
      · unfold verifyHashSignature at hsig
        rw [Outcome.panicked_orRaise, Outcome.bind_of_ok (Outcome.assertThat_of hvalid)]
          at hsig
        exact Outcome.not_panicked_ensure hsig
      · exact ih (fun e he => hseats e (List.mem_cons_of_mem _ he)) hrest

variable {P : ConsensusParams D}

omit [LinearOrder D] [Hashing D] in
theorem verifySigs_not_panicked {b : Notarized D S} (hlen : P.peers.len ≤ 255)
    (hseats : ∀ e ∈ b.sigs.entries, Seated D S P.peers e.1) :
    ¬ (b.verifySigs P).Panicked := by
  have hnum : (P.numPeers : Outcome InvalidNotarizationError _) = .ok ⟨P.peers.len⟩ :=
    ConsensusParams.numPeers_eq_ok.mpr ⟨hlen, rfl⟩
  unfold Notarized.verifySigs
  rw [Outcome.bind_of_ok hnum]
  intro hpanic
  rcases Outcome.bind_panicked.mp hpanic with henough | ⟨_, _, heach⟩
  · exact Outcome.not_panicked_ensure henough
  · exact verifyEach_not_panicked hseats heach

/-- The check comes back with a result, and what it objects to is not the parent. -/
theorem checkNotarized_cases {db : Db D S} {resp : WaitNotarizedBlockResponse D S}
    (hfixed : Fixed P db)
    (hseats : ∀ e ∈ resp.block.sigs.entries, Seated D S P.peers e.1) :
    checkNotarized db resp = .ok () ∨
      ∃ e, checkNotarized db resp = .error (.err e) ∧ e ≠ .wrongParent := by
  have hparams : (db.getConsensusParams resp.block.inner.round :
      Outcome ProcessNotarizedBlockError _) = .ok P :=
    Db.getConsensusParams_cast (hfixed.params _)
  unfold checkNotarized
  rw [Outcome.bind_of_ok hparams]
  cases hsigs : resp.block.verifySigs P with
  | error f =>
      cases f with
      | err e => exact Or.inr ⟨.invalidSignatures e, rfl, by simp⟩
      | panic msg =>
          exact absurd ⟨msg, hsigs⟩ (verifySigs_not_panicked hfixed.len hseats)
  | ok =>
      rw [Outcome.bind_of_ok (Outcome.mapErr_eq_ok.mpr rfl)]
      cases hcontent : resp.block.inner.verifyWithContent (Hashing.paramsHash P)
        (Hashing.paramsLen P) resp.payload with
      | error f =>
          cases f with
          | err e => exact Or.inr ⟨.invalidNotarizedContent e, rfl, by simp⟩
          | panic msg =>
              exact absurd ⟨msg, hcontent⟩ BlockHeader.not_panicked_verifyWithContent
      | ok => exact Or.inl rfl

/-! ## Who has signed what is stored -/

/-- The stored dummy votes are of peers. -/
def SeatsInv (P : ConsensusParams D) (db : Db D S) : Prop :=
  ∀ r j sig, db.getVoteDummy r j = some sig → Seated D S P.peers j

theorem step_seatsInv [DecidableEq S] (c : Consensus D S) (op : ConsensusOp D S)
    (hop : ∀ r t s, op ≠ .paramsChange r t s) (hinv : CountInv P c.db)
    (h : SeatsInv P c.db) : SeatsInv P (c.step op).db := by
  obtain ⟨c₁, hphase, _, hend⟩ := step_closed c op hinv.toRoundInv
  intro r j sig hs
  have hs₁ : c₁.db.consVotesDummy.get? (voteKey r j) = some sig := by
    rcases hend with ⟨hstop, _⟩ | ⟨v, hv⟩
    · rw [← hstop]
      exact hs
    · exact hv.voteDummy_sub hs
  cases hphase with
  | same => exact h r j sig hs₁
  | vote i resp params db hparams hin =>
      have hP : params = P := hinv.params_eq hparams
      rcases hin.voteDummy_cases hs₁ with hold | ⟨_, rfl, _⟩
      · exact h r j sig hold
      · rw [← hP]
        exact hin.voted.2.seated
  | notarized resp params db _ hver hin =>
      have hP : params = P := hinv.params_eq hver.scheduled
      rcases hin.voteDummy_cases hs₁ with hold | ⟨_, _, hmem, _⟩
      · exact h r j sig hold
      · rw [← hP]
        exact (hver.sigs _ hmem).seated
  | finality k resp c₁ hf => exact h r j sig (hf.dummy _ _ _ hs₁)
  | paramsChange r t s => exact absurd rfl (hop r t s)
  | reopen fs c₁ hf => exact h r j sig (hf.dummy _ _ _ hs₁)

/-- An answer is signed by peers. -/
theorem Answer.seated {db : Db D S} {req : WaitNotarizedBlockRequest}
    {resp : WaitNotarizedBlockResponse D S} (h : Answer db req resp)
    (hfixed : Fixed P db) (hseats : SeatsInv P db) :
    ∀ e ∈ resp.block.sigs.entries, Seated D S P.peers e.1 := by
  intro e he
  cases h with
  | block block payload hnext hpayload =>
      have hsorted : SortedTable.Sorted (db.getVotesProposal block.round) :=
        List.pairwise_map.mpr (votesAt_sorted db.consVotesBlock block.round)
      have hmem : e ∈ db.getVotesProposal block.round := by
        rw [← SortedTable.entries_ofList hsorted]
        exact he
      obtain ⟨v, hv, rfl⟩ := List.mem_map.mp hmem
      exact (hfixed.signed _ _ _ (mem_votesAt.mp hv).1).2.seated
  | dummy params hnext hparams hlen hvotes =>
      have hsorted : SortedTable.Sorted (db.getVotesDummy req.curRound) :=
        votesAt_sorted db.consVotesDummy req.curRound
      have hmem : e ∈ db.getVotesDummy req.curRound := by
        rw [← SortedTable.entries_ofList hsorted]
        exact he
      exact hseats _ _ _ (mem_votesAt.mp hmem).1

end Consensus

open Consensus Federation Node

variable {D S X : Type} [LinearOrder D] [Hashing D] [DecidableEq S] [Signing D S]
  {F : Federation D} {decode : BlockPayloadRaw → Option (List (CItem X))}
  {w : World D S}

/-! ## Federations that take no block late -/

/-- Correct peers take blocks in time. -/
def Federation.TakesPrompt (F : Federation D) (w : World D S) (a : WorldOp D S) :
    Prop :=
  match a.op with
  | .node op => F.Correct a.node → Node.TakesPrompt (w a.node).node op
  | .app => True

instance (F : Federation D) (w : World D S) :
    ∀ a : WorldOp D S, Decidable (F.TakesPrompt w a)
  | ⟨_, .node _⟩ => inferInstanceAs (Decidable (_ → _))
  | ⟨_, .app⟩ => .isTrue trivial

/-- What holds of such a federation. -/
structure SyncInv (F : Federation D) (w : World D S) : Prop extends WorldInv F w where
  seats : ∀ i, SeatsInv F.params (w i).db
  voter : ∀ i, F.Correct i → VoterInv (w i).node

theorem step_syncInv [CollisionFree D] (w : World D S) (a : WorldOp D S)
    (hw : SyncInv F w) (hg : F.Genuine w a ∧ F.TakesPrompt w a) :
    SyncInv F (w.step decode a) := by
  refine ⟨step_worldInv w a hw.toWorldInv hg.1, fun i => ?_, fun i hi => ?_⟩
  · rcases hw.step_cases decode hg.1 i with h | ⟨cop, h, hbr⟩
    · rw [Peer.db, h]
      exact hw.seats i
    · rw [Peer.db, h]
      exact step_seatsInv _ cop hbr.params_stay (hw.counted i) (hw.seats i)
  · rcases World.step_cases decode w a i with h | ⟨op, rfl, h⟩
    · rw [h]
      exact hw.voter i hi
    · rw [h]
      exact step_voterInv _ op (hw.once i hi) (hw.voter i hi) (hg.2 hi)

omit [DecidableEq S] in
theorem started_syncInv (h : F.Started w) : SyncInv F w := by
  refine ⟨started_worldInv h, fun i r j sig hs => ?_, fun i _ => ?_⟩
  · obtain ⟨_, _, c, hc, hwi⟩ := h.of_init i
    rw [hwi] at hs
    have hnone := (init_votes hc r j).2
    rw [show (Peer.start c).db.getVoteDummy r j = none from hnone] at hs
    cases hs
  · obtain ⟨_, _, c, hc, hwi⟩ := h.of_init i
    rw [hwi]
    exact init_voterInv hc

/-! ## The answer fits -/

omit [DecidableEq S] in
/-- The first notarized block of one peer after the latest one of another extends
that or the one before it. -/
theorem SyncInv.next_extends [CollisionFree D] (hw : SyncInv F w) {p q : ℕ}
    (hp : F.Correct p) (hq : F.Correct q) {b next : BlockHeader D}
    (hb : (w p).db.getPrevNotarizedBlock (w p).db.getCurrentRound = some b)
    (hnext : (w q).db.getNextNotarizedBlock (b.round + 1) = some next) :
    next.Extends (some b) ∨
      next.Extends ((w p).db.getPrevNotarizedBlock b.round) := by
  have hpchain := (hw.voter p hp).chain
  have hqchain := (hw.voter q hq).chain
  have hbget := hpchain.prev_mem hb
  obtain ⟨hget, hlt, hmin⟩ := hqchain.next_spec hnext
  have hbdummy := (hpchain.notarized _ _ hbget).2
  have hdummy := (hqchain.notarized _ _ hget).2
  have hbcert := hw.certified p _ _ hbget
  -- the parents, as the two peers see them
  have hparent : b.Extends ((w p).db.getPrevNotarizedBlock b.round) :=
    hpchain.chain _ _ hbget
  have hnextParent : next.Extends ((w q).db.getPrevNotarizedBlock next.round) :=
    hqchain.chain _ _ hget
  -- and as a peer that has voted for both
  obtain ⟨v, hv, hvb, hvnext⟩ := Quorum.common hbcert (hw.certified q _ _ hget)
  obtain ⟨parent, parent', hext, hext', hfollows⟩ :=
    (hw.voter v hv).follows b hvb next hvnext hbdummy hdummy hlt
  rw [hext.unique hparent] at hfollows
  rw [hext'.unique hnextParent] at hfollows
  cases hprev : (w q).db.getPrevNotarizedBlock next.round with
  | none =>
      rw [hprev] at hfollows hnextParent
      cases hsecond : (w p).db.getPrevNotarizedBlock b.round with
      | none => exact Or.inr hnextParent
      | some p' =>
          obtain ⟨_, hnone, _⟩ := hfollows.later p' hsecond
          cases hnone
  | some a =>
      rw [hprev] at hfollows hnextParent
      obtain ⟨haget, halt, _⟩ :=
        (getPrevNotarizedBlock_eq_some hqchain.round_eq).mp hprev
      have hadummy := (hqchain.notarized _ _ haget).2
      have hacert := hw.certified q _ _ haget
      have hle : a.round ≤ b.round := by
        by_contra hgt
        have := hmin _ _ haget (not_le.mp hgt)
        lia
      rcases eq_or_lt_of_le hle with heq | hlt'
      · rw [hacert.unique hw.toWorldInv hbcert heq hadummy hbdummy] at hnextParent
        exact Or.inl hnextParent
      · obtain ⟨p', hp', hle'⟩ := hfollows.gap a rfl hlt'
        obtain ⟨_, ha, hge⟩ := hfollows.later p' hp'
        cases ha
        obtain ⟨hpget, _⟩ :=
          (getPrevNotarizedBlock_eq_some hpchain.round_eq).mp hp'
        have hsame := hacert.unique hw.toWorldInv (hw.certified p _ _ hpget)
          (le_antisymm hle' hge) hadummy (hpchain.notarized _ _ hpget).2
        rw [hsame] at hnextParent
        rw [show (w p).db.getPrevNotarizedBlock b.round = some p' from hp']
        exact Or.inr hnextParent

omit [Hashing D] [DecidableEq S] [Signing D S] in
/-- What the request asks for. -/
theorem Node.requestPeerNotarizedBlock_ok {ε : Type} {c : Consensus D S}
    {req : WaitNotarizedBlockRequest}
    (h : (requestPeerNotarizedBlock c : Outcome ε _) = .ok req) :
    req.curRound = c.db.getCurrentRound ∧
      (∀ b, c.db.getPrevNotarizedBlock c.db.getCurrentRound = some b →
        req.minNotarizedRound = b.round + 1) ∧
      (c.db.getPrevNotarizedBlock c.db.getCurrentRound = none →
        req.minNotarizedRound = 0) := by
  unfold requestPeerNotarizedBlock at h
  dsimp only at h
  cases hb : c.db.getPrevNotarizedBlock c.db.getCurrentRound with
  | none =>
      rw [hb] at h
      cases h
      refine ⟨rfl, fun b' heq => ?_, fun _ => rfl⟩
      cases heq
  | some b =>
      rw [hb] at h
      simp only [Outcome.bind_eq_ok, Outcome.expect_eq_ok, Outcome.pure_eq_ok] at h
      obtain ⟨next, hnext, rfl⟩ := h
      split at hnext
      · cases hnext
        refine ⟨rfl, fun b' heq => ?_, fun heq => ?_⟩
        · cases heq
          rfl
        · cases heq
      · cases hnext

omit [DecidableEq S] in
/-- The first notarized block of a correct peer is a first block. -/
theorem SyncInv.first_extends (hw : SyncInv F w) {q : ℕ} (hq : F.Correct q)
    {next : BlockHeader D} (hnext : (w q).db.getNextNotarizedBlock 0 = some next) :
    next.Extends none := by
  have hchain := (hw.voter q hq).chain
  obtain ⟨hget, _, hmin⟩ := hchain.next_spec hnext
  have hext : next.Extends ((w q).db.getPrevNotarizedBlock next.round) :=
    hchain.chain _ _ hget
  rw [getPrevNotarizedBlock_eq_none.mpr fun r' b' hb' => hmin r' b' hb' (Nat.zero_le _)]
    at hext
  exact hext

/-- In every run in which correct peers take no block late, what one of them is
answered by another is neither turned away for its parent nor makes it panic, as long
as there is a round left. -/
theorem answer_syncs_of_takesPrompt [CollisionFree D] {w₀ : World D S}
    {ops : List (WorldOp D S)} (hstart : F.Started w₀)
    (hops : Trail.Guarded (World.step decode)
      (fun w a => F.Genuine w a ∧ F.TakesPrompt w a) w₀ ops) {p q : ℕ}
    (hp : F.Correct p) (hq : F.Correct q)
    (hcur : (World.run decode w₀ ops p).db.getCurrentRound < BlockRound.MAX)
    {req : WaitNotarizedBlockRequest} {resp : WaitNotarizedBlockResponse D S}
    (hreq : (requestPeerNotarizedBlock (World.run decode w₀ ops p).node.consensus :
      Outcome Empty _) = .ok req)
    (hresp : (getNotarizedBlockResp (World.run decode w₀ ops q).db req :
      Outcome Empty _) = .ok (some resp)) :
    processNotarizedBlockResponseTx (World.run decode w₀ ops p).node.consensus resp ≠
        .error (.err .wrongParent) ∧
      ¬ (processNotarizedBlockResponseTx (World.run decode w₀ ops p).node.consensus
        resp).Panicked := by
  have hw : SyncInv F (World.run decode w₀ ops) :=
    hops.invariant (I := SyncInv F) step_syncInv (started_syncInv hstart)
  generalize World.run decode w₀ ops = w at hw hcur hreq hresp
  have hpinv := hw.counted p
  have hanswer := getNotarizedBlockResp_ok hresp
  obtain ⟨_, hmin, hzero⟩ := requestPeerNotarizedBlock_ok hreq
  -- the answer is later than the latest block, or the first there is
  have hblock : resp.block.inner.isDummy = false →
      (w q).db.getNextNotarizedBlock req.minNotarizedRound =
        some resp.block.inner := by
    intro hdummy
    cases hanswer with
    | block block payload hnext => exact hnext
    | dummy =>
        rw [show (notarized (.newDummy _ _) _ : Notarized D S).inner.isDummy = true from
          BlockHeader.isDummy_newDummy _ _] at hdummy
        cases hdummy
  rcases checkNotarized_cases hpinv.toFixed
    (hanswer.seated (hw.counted q).toFixed (hw.seats q)) with hok | ⟨e, herr, hne⟩
  · constructor
    · intro hwrong
      have hcase := processNotarizedBlockResponseTx_handled hok
      generalize processNotarizedBlockResponseTx (w p).node.consensus resp = x
        at hcase hwrong
      cases hcase with
      | staleDummy | known | forked | passed | orphan => cases hwrong
      | wrongParent latest hdummy hlatest _ hnot hnot' =>
          have hnext := hblock hdummy
          rw [hmin latest hlatest] at hnext
          rcases hw.next_extends hp hq hlatest hnext with hext | hext
          · exact hnot hext
          · exact hnot' hext
      | stored db hin =>
          cases hcheck : checkRoundEnd { (w p).node.consensus with db := db }
            (w p).db.getCurrentRound with
          | ok c =>
              rw [hcheck] at hwrong
              cases hwrong
          | error f =>
              rw [hcheck] at hwrong
              cases f <;> cases hwrong
    · rw [processNotarizedBlockResponseTx_panicked hok hpinv (hw.manned p)
        (Nat.one_le_iff_ne_zero.mp F.manned), not_or]
      · refine ⟨?_, fun hends => ne_of_lt hcur hends.1⟩
        rintro ⟨hdummy, hnone, hnot⟩
        have hnext := hblock hdummy
        rw [hzero hnone] at hnext
        exact hnot (hw.first_extends hq hnext)
      · intro latest hlatest hdummy hround
        have hnext := hblock hdummy
        rw [hmin latest hlatest] at hnext
        obtain ⟨_, hlt, _⟩ := (hw.counted q).next_spec hnext
        exact absurd hround (ne_of_lt hlt)
  · have hres : processNotarizedBlockResponseTx (w p).node.consensus resp =
        .error (.err e) := by
      unfold processNotarizedBlockResponseTx
      rw [herr]
      rfl
    rw [hres]
    refine ⟨fun heq => hne ?_, nofun⟩
    cases heq
    rfl

/-! ## Four correct peers -/

/-- The block of round 0 is notarized by one of four peers and that of round 1 by
another; the votes for the first reach the rest late, and round 2 extends it. -/
def lateFirst : List (WorldOp ListDigest PlainSig) :=
  let first := quadBlock none 0 [0]
  let other := quadBlock none 1 [1]
  let next := quadBlock (some first) 2 [2]
  let skip0 := BlockHeader.newDummy 0 (plainParams quadKeys)
  let skip1 := BlockHeader.newDummy 1 (plainParams quadKeys)
  quadTask 3 (.proposalTask [0] 0) ++
    [quadPropose 1 3 first [0]] ++ quadTask 1 .voteTask ++
    [quadPropose 2 3 first [0]] ++ quadTask 2 .voteTask ++
    [quadPropose 0 3 first [0], quadVote 0 1 first, quadVote 0 2 first] ++
    -- the three that have not heard of each other's votes give up on round 0
    quadTask 1 .timeoutTask ++ quadTask 2 .timeoutTask ++ quadTask 3 .timeoutTask ++
    [quadVote 1 2 skip0, quadVote 1 3 skip0, quadVote 2 1 skip0, quadVote 2 3 skip0,
      quadVote 3 1 skip0, quadVote 3 2 skip0] ++
    quadTask 1 (.proposalTask [1] 0) ++
    [quadPropose 2 1 other [1]] ++ quadTask 2 .voteTask ++
    [quadPropose 3 1 other [1]] ++ quadTask 3 .voteTask ++ [quadVote 2 3 other] ++
    quadTask 0 .timeoutTask ++ quadTask 1 .timeoutTask ++ quadTask 3 .timeoutTask ++
    [quadVote 0 1 skip1, quadVote 0 3 skip1, quadVote 1 0 skip1, quadVote 1 3 skip1,
      quadVote 3 0 skip1, quadVote 3 1 skip1] ++
    [⟨1, .node (.recvNotarized ⟨notarizedBy quadKeys [1, 2, 3] first, [0]⟩)⟩,
      ⟨3, .node (.recvNotarized ⟨notarizedBy quadKeys [1, 2, 3] first, [0]⟩)⟩] ++
    quadTask 1 (.proposalTask [2] 0) ++
    [quadPropose 0 1 next [2]] ++ quadTask 0 .voteTask ++
    [quadPropose 3 1 next [2]] ++ quadTask 3 .voteTask ++ [quadVote 0 3 next]

/-- The world after that, in which nobody has misbehaved. -/
def lateFirstWorld : World ListDigest PlainSig :=
  World.run plainDecode (plainWorld (quadFederation 14)) lateFirst

theorem lateFirstWorld_reachable :
    (quadFederation 14).Reachable plainDecode lateFirstWorld :=
  ⟨_, lateFirst, quadWorld_started 14, by decide +kernel, rfl⟩

/-- The peer with the block of round 1 is answered with that of round 2, which
extends neither its latest block nor nothing. -/
theorem answer_wrongParent :
    ∃ (w : World ListDigest PlainSig) (req : WaitNotarizedBlockRequest)
      (resp : WaitNotarizedBlockResponse ListDigest PlainSig),
      (quadFederation 14).Reachable plainDecode w ∧ (quadFederation 14).Correct 2 ∧
        (quadFederation 14).Correct 0 ∧
        (w 2).db.getCurrentRound < BlockRound.MAX ∧
        (requestPeerNotarizedBlock (w 2).node.consensus : Outcome Empty _) = .ok req ∧
        (getNotarizedBlockResp (w 0).db req : Outcome Empty _) = .ok (some resp) ∧
        processNotarizedBlockResponseTx (w 2).node.consensus resp =
          .error (.err .wrongParent) := by
  have hrun : (quadFederation 14).Correct 2 ∧ (quadFederation 14).Correct 0 ∧
      (lateFirstWorld 2).db.getCurrentRound < BlockRound.MAX ∧
      (requestPeerNotarizedBlock (lateFirstWorld 2).node.consensus :
        Outcome Empty _).Returns fun req =>
          (getNotarizedBlockResp (lateFirstWorld 0).db req :
            Outcome Empty _).Returns fun resp =>
              (resp.any fun resp => decide
                ((processNotarizedBlockResponseTx (lateFirstWorld 2).node.consensus
                  resp).map (fun _ => ()) = .error (.err .wrongParent))) = true := by
    decide +kernel
  have hreach := lateFirstWorld_reachable
  generalize lateFirstWorld = w at hrun hreach
  obtain ⟨hp, hq, hcur, hreturns⟩ := hrun
  obtain ⟨req, hreq, hreturns⟩ := Outcome.returns_iff.mp hreturns
  obtain ⟨answer, hresp, hany⟩ := Outcome.returns_iff.mp hreturns
  cases answer with
  | none => cases hany
  | some resp =>
      refine ⟨w, req, resp, hreach, hp, hq, hcur, hreq, hresp, ?_⟩
      have hwrong := of_decide_eq_true hany
      cases hres : processNotarizedBlockResponseTx (w 2).node.consensus resp with
      | ok c =>
          rw [hres] at hwrong
          cases hwrong
      | error f =>
          rw [hres] at hwrong
          injection hwrong with hwrong
          rw [hwrong]

/-- The peer that was left out of two blocks asks one that has the first. -/
theorem answer_syncs_of_leftOut :
    ∃ (req : WaitNotarizedBlockRequest)
      (resp : WaitNotarizedBlockResponse ListDigest PlainSig),
      (requestPeerNotarizedBlock (twoBlocksWorld 0).node.consensus :
        Outcome Empty _) = .ok req ∧
      (getNotarizedBlockResp (twoBlocksWorld 1).db req : Outcome Empty _) =
        .ok (some resp) ∧
      processNotarizedBlockResponseTx (twoBlocksWorld 0).node.consensus resp ≠
        .error (.err .wrongParent) ∧
      ¬ (processNotarizedBlockResponseTx (twoBlocksWorld 0).node.consensus
        resp).Panicked := by
  have hops : Trail.Guarded (World.step plainDecode)
      (fun w a => (quadFederation 13).Genuine w a ∧ (quadFederation 13).TakesPrompt w a)
      (plainWorld (quadFederation 13)) twoBlocks := by decide +kernel
  have hrun : (quadFederation 13).Correct 0 ∧ (quadFederation 13).Correct 1 ∧
      (twoBlocksWorld 0).db.getCurrentRound < BlockRound.MAX ∧
      (requestPeerNotarizedBlock (twoBlocksWorld 0).node.consensus :
        Outcome Empty _).Returns fun req =>
          (getNotarizedBlockResp (twoBlocksWorld 1).db req :
            Outcome Empty _).Returns fun answer => answer.isSome = true := by
    decide +kernel
  obtain ⟨hp, hq, hcur, hreturns⟩ := hrun
  obtain ⟨req, hreq, hreturns⟩ := Outcome.returns_iff.mp hreturns
  obtain ⟨answer, hresp, hsome⟩ := Outcome.returns_iff.mp hreturns
  obtain ⟨resp, rfl⟩ := Option.isSome_iff_exists.mp hsome
  exact ⟨req, resp, hreq, hresp,
    answer_syncs_of_takesPrompt (quadWorld_started 13) hops hp hq hcur hreq hresp⟩

end Bfte
