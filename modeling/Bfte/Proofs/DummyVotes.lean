import Bfte.Core.Concrete
import Bfte.Proofs.Nodes

/-!
# Stored dummy votes and the header they are for

Of a dummy vote only the signature is stored; whoever hands it on rebuilds the
header with `newDummy`. That works if the header accepted was that one. Between
them `isDummy` and `verifyWithContent` fix all its fields but two, the timestamp
and the padding, so a peer can sign a dummy with a timestamp and have it stored,
and the notarized dummy it then becomes a part of does not verify.

A notarized dummy needs no such care: its signatures are for one header, and one
of them is by a correct peer.
-/

namespace Bfte

namespace BlockHeader

variable {D : Type} [LinearOrder D] [Hashing D]

/-- The two fields of a dummy that nothing checks. -/
def Blank (h : BlockHeader D) : Prop := h.timestamp = 0 ∧ h.padding = [0, 0, 0]

omit [LinearOrder D] [Hashing D] in
instance (h : BlockHeader D) : Decidable h.Blank :=
  inferInstanceAs (Decidable (_ ∧ _))

/-- A dummy that is accepted and has those two fields blank is the canonical
one. -/
theorem Fits.eq_newDummy {h : BlockHeader D} {params : ConsensusParams D}
    {payload : BlockPayloadRaw} (hdummy : h.isDummy = true)
    (hfits : h.Fits (Hashing.paramsHash params) (Hashing.paramsLen params) payload)
    (hblank : h.Blank) : h = .newDummy h.round params := by
  obtain ⟨hseq, hprev, hpayload, hlen⟩ :
      h.seq = 0 ∧ h.prevBlockHash = Hashing.zero ∧
        h.payloadHash = Hashing.zero ∧ h.payloadLen = 0 := by
    simpa [isDummy] using hdummy
  obtain ⟨htime, hpad⟩ := hblank
  have hversion := hfits.version
  have hph := hfits.paramsHash
  have hpl := hfits.paramsLen
  cases h
  simp only at hseq hprev hpayload hlen htime hpad hversion hph hpl
  subst hseq hprev hpayload hlen htime hpad hversion hph hpl
  rfl

end BlockHeader

namespace Consensus

variable {D S : Type} [LinearOrder D] [Hashing D] [Signing D S]

/-- A signature of peer `i` on the canonical dummy of a round. -/
def DummySig (db : Db D S) (r : BlockRound) (i : PeerIdx) (sig : S) : Prop :=
  ∃ params, (db.getConsensusParams r : Outcome Empty _) = .ok params ∧
    SigOk params.peers (.header (.newDummy r params)) i sig

/-- Every dummy vote stored is for a round that was reached and is a signature
on its canonical dummy. -/
def DummyInv (db : Db D S) : Prop :=
  ∀ r i sig, db.getVoteDummy r i = some sig →
    r ≤ db.getCurrentRound ∧ DummySig db r i sig

/-! ## Who signs what -/

/-- At most `maxFaulty` peers of a round are Byzantine, and the others sign no
dummy but the canonical one. -/
def HonestOn (byz : PeerPubkey → Bool) (db : Db D S) (h : BlockHeader D)
    (sigs : List (PeerIdx × S)) : Prop :=
  (db.getConsensusParams h.round : Outcome Empty _).WhenOk fun params =>
    params.peers.items.countP byz ≤ (NumPeers.mk params.peers.len).maxFaulty ∧
      (h.isDummy = true → ∀ e ∈ sigs, ∀ k ∈ params.peers.items[e.1]?,
        byz k = false → Signing.verify k e.2 (SignMsg.header h) = true →
          h = .newDummy h.round params)

/-- A message as it may arrive when the correct peers behave. -/
def HonestSigners (byz : PeerPubkey → Bool) (c : Consensus D S) :
    ConsensusOp D S → Prop
  | .vote i resp => HonestOn byz c.db resp.block.inner [(i, resp.block.sig)]
  | .notarized resp =>
      HonestOn byz c.db resp.block.inner resp.block.sigs.entries
  | _ => True

/-- A dummy vote that is about to be stored. -/
def StoresDummy (c : Consensus D S) (i : PeerIdx) (vote : Signed D S) : Prop :=
  vote.inner.isDummy = true ∧ vote.inner.round = c.db.getCurrentRound ∧
    c.db.getVoteDummy c.db.getCurrentRound i = none ∧
    ∃ params, (c.db.getConsensusParams c.db.getCurrentRound : Outcome Empty _) =
        .ok params ∧
      SigOk params.peers (.header vote.inner) i vote.sig ∧
      vote.inner.Fits (Hashing.paramsHash params) (Hashing.paramsLen params)
        BlockPayloadRaw.empty

/-- A dummy vote that is stored has no timestamp and no padding. -/
def BlankDummy (c : Consensus D S) : ConsensusOp D S → Prop
  | .vote i (.vote vote) => StoresDummy c i vote → vote.inner.Blank
  | _ => True

/-- One of the signatures of a notarized dummy is by a correct peer. -/
theorem Verified.dummy_eq {byz : PeerPubkey → Bool} {db : Db D S}
    {resp : WaitNotarizedBlockResponse D S} {params : ConsensusParams D}
    (hver : Verified db resp params)
    (hhonest : HonestOn byz db resp.block.inner resp.block.sigs.entries)
    (hdummy : resp.block.inner.isDummy = true)
    (hne : resp.block.sigs.entries ≠ []) :
    resp.block.inner = .newDummy resp.block.inner.round params := by
  obtain ⟨hfaulty, hsigned⟩ := Outcome.whenOk_iff.mp hhonest params
    (Db.getConsensusParams_cast hver.scheduled)
  have hvalid := hver.valid
  have hpos : 1 ≤ (NumPeers.mk params.peers.len).total := by
    obtain ⟨e, he⟩ := List.exists_mem_of_ne_nil _ hne
    exact Nat.lt_of_le_of_lt (Nat.zero_le _) (hver.sigs e he).lt_len
  have hmany : params.peers.items.countP byz < resp.block.signers.card :=
    lt_of_le_of_lt hfaulty (lt_of_lt_of_le
      (NumPeers.maxFaulty_lt_threshold hpos) hvalid.enough)
  obtain ⟨i, hi, k, hk, hcorrect⟩ := Quorum.exists_correct_position
    (fun i hi => Finset.mem_range.mp (hvalid.signers_subset hi)) hmany
  obtain ⟨sig, he, hsig⟩ := hvalid.verified hi hk
  exact hsigned hdummy _ he k hk hcorrect hsig

/-! ## Steps -/

section Steps

variable [DecidableEq S]

/-- A dummy vote stored after an op was stored before it, or is a signature on
the canonical dummy of the round the op found. -/
theorem step_voteDummy {byz : PeerPubkey → Bool} (c : Consensus D S)
    (op : ConsensusOp D S) (hround : RoundInv c.db)
    (hhonest : HonestSigners byz c op) (hblank : BlankDummy c op)
    {r : BlockRound} {j : PeerIdx} {sig : S}
    (hs : (c.step op).db.getVoteDummy r j = some sig) :
    c.db.getVoteDummy r j = some sig ∨
      (r = c.db.getCurrentRound ∧ DummySig c.db r j sig) := by
  have hcase := step_cases c op
  generalize c.step op = c' at hcase hs
  unfold Db.getVoteDummy at hs ⊢
  cases hcase with
  | same => exact Or.inl hs
  | vote i resp params db _ hparams hin hcounted =>
      have hdb : db.consVotesDummy.get? (voteKey r j) = some sig := by
        rcases hcounted with ⟨_, rfl⟩ | ⟨_, hcheck⟩
        · exact hs
        · rw [← hin.curRound] at hcheck
          obtain ⟨v, hv⟩ :=
            checkRoundEnd_closed (hin.roundInv hround).toBlockInv hcheck
          exact hv.voteDummy_sub hs
      rcases hin.voteDummy_cases hdb with hold | ⟨rfl, rfl, rfl, hdummy⟩
      · exact Or.inl hold
      · have hparams' : (c.db.getConsensusParams c.db.getCurrentRound :
            Outcome Empty _) = .ok params :=
          Db.getConsensusParams_cast hparams
        cases hin with
        | block vote hvround hsig hd =>
            exact absurd (hd.symm.trans hdummy) (by simp)
        | proposal vote payload hvround hsig hd =>
            exact absurd (hd.symm.trans hdummy) (by simp)
        | dummy vote hvround hsig hd hfits =>
            rcases hcounted with ⟨⟨_, hold⟩ | ⟨hd', _⟩, _⟩ | ⟨hfresh, _⟩
            · exact Or.inl hold
            · exact absurd (hd'.symm.trans hd) (by simp)
            · have hb := hblank
                ⟨hd, hvround, hfresh.1 hd, params, hparams', hsig, hfits⟩
              have heq := BlockHeader.Fits.eq_newDummy hd hfits hb
              rw [hvround] at heq
              refine Or.inr ⟨rfl, params, hparams', ?_⟩
              rw [← heq]
              exact hsig
  | notarized resp params db _ hok hver hin hcheck =>
      rw [← hin.curRound] at hcheck
      obtain ⟨v, hv⟩ := checkRoundEnd_closed (hin.blockInv hround.toBlockInv) hcheck
      rcases hin.voteDummy_cases (hv.voteDummy_sub hs) with hold |
        ⟨rfl, hvround, hmem, hdummy⟩
      · exact Or.inl hold
      · have heq := hver.dummy_eq hhonest hdummy (List.ne_nil_of_mem hmem)
        have hscheduled := hver.scheduled
        rw [hvround] at heq hscheduled
        refine Or.inr ⟨rfl, params, Db.getConsensusParams_cast hscheduled, ?_⟩
        rw [← heq]
        exact hver.sigs _ hmem
  | finality k resp _ hsig hupdate =>
      exact Or.inl ((updatePeerFinalityVoteRound_frame hupdate).dummy _ _ _ hs)
  | paramsChange =>
      rw [(insertConsensusParams_votes c.db _ _).2] at hs
      exact Or.inl hs
  | reopen _ hopen =>
      obtain ⟨fs, c₁, _, hf, hcheck⟩ := openInternal_ok hopen
      have hsame : SameBlocks c.db c₁.db := hf.sameBlocks
      obtain ⟨v, hv⟩ :=
        checkRoundEnd_closed (hround.toBlockInv.congr hsame) hcheck
      exact Or.inl (hf.dummy _ _ _ (hv.voteDummy_sub hs))

/-- A signature on the canonical dummy of a round that was reached stays one. -/
theorem DummySig.step [CollisionFree D] {c : Consensus D S} {r : BlockRound}
    {i : PeerIdx} {sig : S} (h : DummySig c.db r i sig) (op : ConsensusOp D S)
    (hround : RoundInv c.db) (hparams : ParamsInv c)
    (hr : r ≤ c.db.getCurrentRound) : DummySig (c.step op).db r i sig := by
  obtain ⟨params, hp, hsig⟩ := h
  exact ⟨params, step_getConsensusParams c op hround hparams hr hp, hsig⟩

/-- What dummy votes rest on. -/
structure DummyRunInv (c : Consensus D S) : Prop where
  round : RoundInv c.db
  params : ParamsInv c
  dummy : DummyInv c.db

theorem step_dummyRunInv [CollisionFree D] {byz : PeerPubkey → Bool}
    (c : Consensus D S) (op : ConsensusOp D S) (hinv : DummyRunInv c)
    (hg : HonestSigners byz c op ∧ BlankDummy c op) :
    DummyRunInv (c.step op) where
  round := step_roundInv c op hinv.round
  params := step_paramsInv c op hinv.round hinv.params
  dummy r i sig hs := by
    have hle := (step_onward c op hinv.round).cur_le
    rcases step_voteDummy c op hinv.round hg.1 hg.2 hs with hold | ⟨rfl, hsig⟩
    · obtain ⟨hr, hsig⟩ := hinv.dummy r i sig hold
      exact ⟨hr.trans hle, hsig.step op hinv.round hinv.params hr⟩
    · exact ⟨hle, hsig.step op hinv.round hinv.params (le_refl _)⟩

omit [DecidableEq S] in
theorem init_dummyRunInv {params : ConsensusParams D} {k : Option PeerPubkey}
    {pinned : Option (BlockRound × D)} {c : Consensus D S}
    (h : init params Db.empty k pinned = .ok c) : DummyRunInv c where
  round := init_roundInv h
  params := init_paramsInv h
  dummy r i sig hs := by
    rw [(init_votes h r i).2] at hs
    cases hs

end Steps

/-! ## Handing them on -/

/-- Every dummy vote stored is a signature on the canonical dummy of its round,
and every notarized dummy handed out verifies against the params of its round. -/
structure DummiesUsable (db : Db D S) : Prop where
  vote : ∀ r i sig, db.getVoteDummy r i = some sig → DummySig db r i sig
  answer : ∀ req resp,
    (getNotarizedBlockResp db req : Outcome Empty _) = .ok (some resp) →
      resp.block.inner.isDummy = true →
      ∃ params, (db.getConsensusParams resp.block.inner.round : Outcome Empty _) =
        .ok params ∧ resp.block.verifySigs params = .ok ()

theorem DummyInv.usable {db : Db D S} (hround : BlockInv db) (h : DummyInv db) :
    DummiesUsable db where
  vote r i sig hs := (h r i sig hs).2
  answer req resp hresp hdummy := by
    cases getNotarizedBlockResp_ok hresp with
    | block block payload hnext =>
        have hget := (hround.next_spec hnext).1
        have hnot := (hround.notarized _ _ hget).2
        exact absurd (hdummy.symm.trans hnot) (by simp)
    | dummy params hnext hparams hlen hvotes =>
        have hentries : (notarized (.newDummy req.curRound params)
            (db.getVotesDummy req.curRound)).sigs.entries =
              votesAt db.consVotesDummy req.curRound :=
          SortedTable.entries_ofList (votesAt_sorted _ _)
        refine ⟨params, hparams, Notarized.verifySigs_eq_ok.mpr ⟨hlen, ?_, ?_⟩⟩
        · show _ ≤ (notarized _ _).sigs.entries.length
          rw [hentries]
          exact hvotes
        · intro e he
          have hmem : e ∈ votesAt db.consVotesDummy req.curRound := by
            rw [← hentries]
            exact he
          obtain ⟨params', hp', hsig⟩ :=
            (h req.curRound e.1 e.2 (mem_votesAt.mp hmem).1).2
          rw [hparams] at hp'
          cases hp'
          exact hsig

/-- In every run in which the dummy votes stored have no timestamp and no
padding, they stay usable. -/
theorem dummies_usable_of_blank [DecidableEq S] [CollisionFree D]
    {byz : PeerPubkey → Bool} {params : ConsensusParams D}
    {k : Option PeerPubkey} {pinned : Option (BlockRound × D)}
    {c : Consensus D S} {ops : List (ConsensusOp D S)}
    (hinit : init params Db.empty k pinned = .ok c)
    (hhonest : Trail.Guarded step (HonestSigners byz) c ops)
    (hblank : Trail.Guarded step BlankDummy c ops) :
    DummiesUsable (c.run ops).db := by
  have hinv : DummyRunInv (c.run ops) :=
    (hhonest.and hblank).invariant step_dummyRunInv (init_dummyRunInv hinit)
  exact hinv.dummy.usable hinv.round.toBlockInv

/-! ## A dummy with a timestamp -/

section Timestamp

instance (byz : PeerPubkey → Bool) (db : Db D S) (h : BlockHeader D)
    (sigs : List (PeerIdx × S)) : Decidable (HonestOn byz db h sigs) :=
  inferInstanceAs (Decidable (Outcome.WhenOk _ _))

instance (byz : PeerPubkey → Bool) (c : Consensus D S) (op : ConsensusOp D S) :
    Decidable (HonestSigners byz c op) :=
  match op with
  | .vote _ _ => inferInstanceAs (Decidable (HonestOn _ _ _ _))
  | .notarized _ => inferInstanceAs (Decidable (HonestOn _ _ _ _))
  | .finality _ _ => .isTrue trivial
  | .paramsChange _ _ _ => .isTrue trivial
  | .reopen => .isTrue trivial

/-- The third of four peers is Byzantine. -/
def thirdByz (k : PeerPubkey) : Bool := decide (k = 12)

/-- The dummy of round 0 with a timestamp. -/
def dummyAt (t : Timestamp) : BlockHeader ListDigest :=
  { BlockHeader.newDummy 0 (plainParams [10, 11, 12, 13]) with timestamp := t }

/-- Three peers give up on round 0, the third one with a timestamp of its own. -/
def dummyOps (t : Timestamp) : List (ConsensusOp ListDigest PlainSig) :=
  [.vote 0 (.vote (signedBy 10 (dummyAt 0))),
   .vote 1 (.vote (signedBy 11 (dummyAt 0))),
   .vote 2 (.vote (signedBy 12 (dummyAt t)))]

theorem dummies_usable_of_dummyOps : ∃ c : Consensus ListDigest PlainSig,
    init (plainParams [10, 11, 12, 13]) Db.empty (some 10) none = .ok c ∧
      DummiesUsable (c.run (dummyOps 0)).db := by
  have hrun : (init (plainParams [10, 11, 12, 13])
      (Db.empty : Db ListDigest PlainSig) (some 10) none).Returns fun c =>
        Trail.Guarded step (HonestSigners thirdByz) c (dummyOps 0) := by
    decide +kernel
  obtain ⟨c, hinit, hhonest⟩ := Outcome.returns_iff.mp hrun
  have hblank : Trail.Guarded step BlankDummy c (dummyOps 0) :=
    ⟨fun _ => ⟨rfl, rfl⟩, fun _ => ⟨rfl, rfl⟩, fun _ => ⟨rfl, rfl⟩, trivial⟩
  exact ⟨c, hinit, dummies_usable_of_blank hinit hhonest hblank⟩

theorem timestamped_dummy_breaks_notarization :
    ¬ ∀ (c : Consensus ListDigest PlainSig)
        (ops : List (ConsensusOp ListDigest PlainSig)),
      init (plainParams [10, 11, 12, 13]) Db.empty (some 10) none = .ok c →
      Trail.Guarded step (HonestSigners thirdByz) c ops →
      DummiesUsable (c.run ops).db := by
  intro h
  have hrun : (init (plainParams [10, 11, 12, 13])
      (Db.empty : Db ListDigest PlainSig) (some 10) none).Returns fun c =>
        Trail.Guarded step (HonestSigners thirdByz) c (dummyOps 1) ∧
        (getNotarizedBlockResp (ε := Empty) (c.run (dummyOps 1)).db ⟨0, 0⟩).Returns
          fun resp => resp.any (fun resp => resp.block.inner.isDummy &&
            decide ((Db.getConsensusParams (ε := Empty) (c.run (dummyOps 1)).db
              resp.block.inner.round).WhenOk fun params =>
                ¬ (resp.block.verifySigs params).Returns fun _ => True)) = true := by
    decide +kernel
  obtain ⟨c, hinit, hhonest, hanswer⟩ := Outcome.returns_iff.mp hrun
  obtain ⟨o, hresp, hany⟩ := Outcome.returns_iff.mp hanswer
  obtain ⟨resp, rfl, hbad⟩ := (Option.any_eq_true _ _).mp hany
  rw [Bool.and_eq_true, decide_eq_true_eq] at hbad
  obtain ⟨params, hparams, hsigs⟩ :=
    (h c (dummyOps 1) hinit hhonest).answer ⟨0, 0⟩ resp hresp hbad.1
  refine Outcome.whenOk_iff.mp hbad.2 params hparams ?_
  rw [hsigs]
  trivial

end Timestamp

end Consensus

end Bfte
