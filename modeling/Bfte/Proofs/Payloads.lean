import Bfte.Proofs.Federation

/-!
# Payloads that do not decode

Nothing decodes a payload before the block is final. A peer votes for whatever the
leader has put into its proposal as long as hash and length are right, and once the
block is final, every node panics on it, now and after every restart.

The way back is what is proved: the payload that is decoded hashes to what the header
says; the header has the votes of enough peers; a correct peer among them has stored
it as a proposal, with a payload that hashes to the same. So if correct peers are
only proposed payloads that decode, only such payloads are delivered.
-/

namespace Bfte

namespace Consensus

variable {D S : Type} [LinearOrder D] [Hashing D] [Signing D S]

/-! ## Stored payloads -/

/-- Payloads are stored under their hash. -/
def PayloadInv (db : Db D S) : Prop :=
  ∀ h payload, db.getBlockPayload h = some payload → Hashing.payloadHash payload = h

omit [Signing D S] in
theorem PayloadInv.insert {db : Db D S} (hinv : PayloadInv db) {h : D}
    {payload : BlockPayloadRaw} (hhash : Hashing.payloadHash payload = h) :
    PayloadInv (db.insertPayload h payload) := by
  intro h' payload' hget
  have hget' : (db.consBlocksPayloads.insert h payload).get? h' = some payload' := hget
  rcases SortedTable.get?_insert_eq_some hget' with ⟨rfl, rfl⟩ | hold
  · exact hhash
  · exact hinv h' payload' hold

omit [Signing D S] in
theorem PayloadInv.of_eq {db db' : Db D S} (hinv : PayloadInv db)
    (h : db'.consBlocksPayloads = db.consBlocksPayloads) : PayloadInv db' := by
  intro h' payload hget
  unfold Db.getBlockPayload at hget
  rw [h] at hget
  exact hinv h' payload hget

omit [Signing D S] in
theorem Closed.payloads_eq {c c' : Consensus D S} {v : RoundEnd D S}
    (h : Closed c v c') : c'.db.consBlocksPayloads = c.db.consBlocksPayloads := by
  rw [h.ended.db]
  have hn := h.loop.notarizes
  generalize v.newLastNotarizedRound = last at hn
  generalize v.db = vdb at hn
  cases hn <;> rfl

theorem VoteIntake.payloadInv {db db' : Db D S} {params : ConsensusParams D}
    {i : PeerIdx} {resp : WaitVoteResponse D S}
    (h : VoteIntake db params i resp db') (hinv : PayloadInv db) :
    PayloadInv db' := by
  cases h with
  | dummy => exact hinv.of_eq rfl
  | block => exact hinv.of_eq rfl
  | proposal vote payload hround hsig hdummy hleader hfits =>
      exact (hinv.insert (hfits.payload hdummy).1).of_eq rfl

theorem NotarizedIntake.payloadInv {db db' : Db D S} {params : ConsensusParams D}
    {resp : WaitNotarizedBlockResponse D S} (h : NotarizedIntake db resp db')
    (hver : Verified db resp params) (hinv : PayloadInv db) : PayloadInv db' := by
  have hinserted : ∀ {db db₁ : Db D S} {o : InsertOutcome (BlockHeader D)},
      PayloadInv db → db.insertNotarizedBlock resp.block.inner.round
        resp.block.inner (some resp.payload) =
          (.ok (db₁, o) : Outcome ProcessNotarizedBlockError _) →
      PayloadInv db₁ := by
    intro db db₁ o hinv hdb
    obtain ⟨_, hdummy, ⟨_, _, hres⟩ | ⟨_, hres⟩⟩ :=
      Db.insertNotarizedBlock_eq_ok.mp hdb
    · cases hres
      exact hinv
    · cases hres
      exact (hinv.insert (hver.fits.payload hdummy).1).of_eq rfl
  cases h with
  | dummies => exact hinv.of_eq insertDummyVotes_payloads
  | extend db₁ o _ _ hdb => exact (hinserted hinv hdb).of_eq insertBlockVotes_payloads
  | replace latest db₁ o _ _ _ _ hdb =>
      have hdel : PayloadInv (db.deleteNotarizedBlock latest.round) := hinv.of_eq rfl
      exact (hinserted hdel hdb).of_eq insertBlockVotes_payloads

/-- The node stores this proposal: it is for its round, there is none yet, and it
passes the checks. -/
structure Proposable (db : Db D S) (i : PeerIdx) (vote : Signed D S)
    (payload : BlockPayloadRaw) : Prop where
  round : vote.inner.round = db.getCurrentRound
  free : db.consBlocksProposals.get? db.getCurrentRound = none
  checked : ∃ params, db.getConsensusParams db.getCurrentRound =
      (.ok params : Outcome (ProcessVoteError D S) _) ∧
    checkProposal db db.getCurrentRound params i vote.inner payload =
      (.ok () : Outcome (ProcessVoteError D S) _) ∧
    SigOk params.peers (.header vote.inner) i vote.sig

section Steps

variable [DecidableEq S] {P : ConsensusParams D}

theorem step_payloadInv (c : Consensus D S) (op : ConsensusOp D S)
    (hround : RoundInv c.db) (hinv : PayloadInv c.db) :
    PayloadInv (c.step op).db := by
  obtain ⟨c₁, hphase, _, hend⟩ := step_closed c op hround
  have hinv₁ : PayloadInv c₁.db := by
    cases hphase with
    | same => exact hinv
    | vote i resp params db _ hin => exact hin.payloadInv hinv
    | notarized resp params db _ hver hin => exact hin.payloadInv hver hinv
    | finality k resp c₁ hf => exact hinv.of_eq (by rw [hf.db])
    | paramsChange => exact hinv.of_eq (insertConsensusParams_payloads _ _ _)
    | reopen fs c₁ hf => exact hinv.of_eq (by rw [hf.db]; rfl)
  rcases hend with ⟨hstop, _⟩ | ⟨v, hv⟩
  · rw [hstop]
    exact hinv₁
  · exact hinv₁.of_eq hv.payloads_eq

omit [DecidableEq S] [Signing D S] in
theorem init_payloadInv {k : Option PeerPubkey} {pinned : Option (BlockRound × D)}
    {c : Consensus D S} (h : init P Db.empty k pinned = .ok c) : PayloadInv c.db := by
  have hempty : (insertPin ((Db.empty : Db D S).insertConsensusParams 0 P).1
      pinned).consBlocksPayloads = .empty := by
    unfold insertPin
    split <;> exact insertConsensusParams_payloads _ _ _
  obtain ⟨fs, c₁, hf, _, hdb, hcheck⟩ := init_checked h
  obtain ⟨v, hv⟩ := checkRoundEnd_closed hdb hcheck
  intro hash payload hget
  unfold Db.getBlockPayload at hget
  rw [hv.payloads_eq, hf.db] at hget
  have hget' : (insertPin ((Db.empty : Db D S).insertConsensusParams 0 P).1
    pinned).consBlocksPayloads.get? hash = some payload := hget
  rw [hempty] at hget'
  cases hget'

/-- A proposal that is new was proposable, and came with a payload that hashes to
what it says. -/
theorem step_proposal_cases (c : Consensus D S) (op : ConsensusOp D S)
    (hinv : CountInv P c.db) (hpos : P.peers.len ≠ 0) {r : BlockRound}
    {b : BlockHeader D} (hb : (c.step op).db.consBlocksProposals.get? r = some b) :
    c.db.consBlocksProposals.get? r = some b ∨ ∃ i vote payload,
      op = .vote i (.proposal vote payload) ∧ Proposable c.db i vote payload ∧
        b = vote.inner ∧ Hashing.payloadHash payload = b.payloadHash := by
  rcases step_proposals c op hinv.toRoundInv with heq |
    ⟨i, resp, params, db, rfl, hparams, hin, heq⟩
  · rw [heq] at hb
    exact Or.inl hb
  · rw [heq] at hb
    have hP : params = P := hinv.params_eq hparams
    cases hin with
    | dummy => exact Or.inl hb
    | block => exact Or.inl hb
    | proposal vote payload hvround hsig hdummy hleader hfits hext hnone =>
        have hget : (c.db.consBlocksProposals.insert c.db.getCurrentRound
          vote.inner).get? r = some b := hb
        rcases SortedTable.get?_insert_eq_some hget with ⟨_, rfl⟩ | hold
        · refine Or.inr ⟨i, vote, payload, rfl, ⟨hvround, hnone, params, hparams, ?_,
            hsig⟩, rfl, (hfits.payload hdummy).1⟩
          simp only [checkProposal, Outcome.bind_eq_ok,
            ConsensusParams.leaderIdx_eq_ok, Outcome.ensure_eq_ok,
            Outcome.mapErr_eq_ok, BlockHeader.verifyWithContent_eq_ok]
          exact ⟨i, ⟨hP ▸ hinv.len, hP ▸ hpos, hleader⟩, (), rfl, (), hdummy, (),
            hfits, hext⟩
        · exact Or.inl hold

end Steps

end Consensus

open Consensus Federation Node

variable {D S X : Type} [LinearOrder D] [Hashing D] [DecidableEq S] [Signing D S]
  {F : Federation D} {decode : BlockPayloadRaw → Option (List (CItem X))}
  {w : World D S}

/-! ## Proposals to correct peers -/

variable (decode) in
/-- A proposal that the node stores has a payload that decodes. -/
def Consensus.ProposesDecodable (db : Db D S) (i : PeerIdx) :
    WaitVoteResponse D S → Prop
  | .proposal vote payload =>
      Proposable db i vote payload → (decode payload).isSome = true
  | .vote _ => True

variable (decode) in
/-- Correct peers store only proposals that decode, of others and of their own. -/
def Federation.ProposesDecodable (F : Federation D) (w : World D S)
    (a : WorldOp D S) : Prop :=
  F.Correct a.node → match a.op with
    | .node (.recvVote i resp) =>
        Consensus.ProposesDecodable decode (w a.node).db i resp
    | .node (.deliver k) => ∀ e ∈ (w a.node).node.events[k]?,
        Consensus.ProposesDecodable decode (w a.node).db e.peerIdx e.resp
    | _ => True

variable (decode) in
/-- Some payload of the block decodes. -/
def Decodes (b : BlockHeader D) : Prop :=
  ∃ payload, Hashing.payloadHash payload = b.payloadHash ∧
    (decode payload).isSome = true

/-- What holds of a federation whose correct peers store only such proposals. -/
structure DecodeInv (F : Federation D)
    (decode : BlockPayloadRaw → Option (List (CItem X))) (w : World D S) : Prop
    extends WorldInv F w where
  payloads : ∀ i, PayloadInv (w i).db
  decodes : ∀ i, F.Correct i → ∀ r b,
    (w i).db.consBlocksProposals.get? r = some b → Decodes decode b

theorem step_decodeInv [CollisionFree D] (w : World D S) (a : WorldOp D S)
    (hw : DecodeInv F decode w)
    (hg : F.Genuine w a ∧ F.ProposesDecodable decode w a) :
    DecodeInv F decode (w.step decode a) := by
  have hcases := hw.step_cases decode hg.1
  refine ⟨step_worldInv w a hw.toWorldInv hg.1, fun i => ?_, fun i hi r b hb => ?_⟩
  · rcases hcases i with h | ⟨cop, h, _⟩
    · rw [Peer.db, h]
      exact hw.payloads i
    · rw [Peer.db, h]
      exact step_payloadInv _ cop (hw.counted i).toRoundInv (hw.payloads i)
  · have hdecodes : ∀ {cop : ConsensusOp D S},
        ((w i).node.consensus.step cop).db.consBlocksProposals.get? r = some b →
        (∀ j resp, cop = .vote j resp →
          Consensus.ProposesDecodable decode (w i).db j resp) → Decodes decode b := by
      intro cop hb hcop
      rcases step_proposal_cases _ cop (hw.counted i)
        (Nat.one_le_iff_ne_zero.mp F.manned) hb with hold |
          ⟨j, vote, payload, rfl, hprop, rfl, hhash⟩
      · exact hw.decodes i hi r b hold
      · exact ⟨payload, hhash, hcop j _ rfl hprop⟩
    rcases World.step_cases decode w a i with h | ⟨op, rfl, h⟩
    · rw [Peer.db, h] at hb
      exact hw.decodes i hi r b hb
    · have hmeets := hg.2 hi
      have hcase := step_nodeCase (w i).node op
      rw [← h] at hcase
      rw [Peer.db] at hb
      generalize (World.step decode w ⟨i, .node op⟩ i).node = n' at hcase hb
      cases hcase with
      | idle => exact hw.decodes i hi r b hb
      | recvVote j resp =>
          refine hdecodes hb fun j' resp' heq => ?_
          cases heq
          exact hmeets
      | recvNotarized resp => exact hdecodes hb fun _ _ heq => by cases heq
      | recvFinality k resp => exact hdecodes hb fun _ _ heq => by cases heq
      | spawned => exact hw.decodes i hi r b hb
      | delivered k e c he hok =>
          have hstep : (w i).node.consensus.step (.vote e.peerIdx e.resp) = c := by
            rw [Consensus.step, hok]
            rfl
          rw [← hstep] at hb
          refine hdecodes hb fun j' resp' heq => ?_
          cases heq
          exact hmeets e he
      | dropped => exact hw.decodes i hi r b hb
      | paramsChange => exact absurd hg.1 id
      | restart => exact hdecodes hb fun _ _ heq => by cases heq

omit [DecidableEq S] in
theorem started_decodeInv (h : F.Started w) : DecodeInv F decode w := by
  refine ⟨started_worldInv h, fun i => ?_, fun i _ r b hb => ?_⟩
  · obtain ⟨_, _, c, hc, hwi⟩ := h.of_init i
    rw [hwi]
    exact init_payloadInv hc
  · obtain ⟨_, _, c, hc, hwi⟩ := h.of_init i
    rw [hwi] at hb
    obtain ⟨c₁, v, hsame, hv⟩ := init_closed hc
    rw [show (Peer.start c).db = c.db from rfl, hv.proposals_eq, hsame.proposals] at hb
    cases hb

/-! ## What is delivered -/

/-- The call is about to hand out the block, with this payload. -/
def Peer.Delivers (p : Peer D S) (b : BlockHeader D) (payload : BlockPayloadRaw) :
    Prop :=
  ∃ reqRound curConsensus curSelfVote, p.block = none ∧
    p.waiting = some (.nextBlock reqRound curConsensus curSelfVote) ∧
    p.db.getNextNotarizedBlock reqRound = some b ∧
    b.round < curConsensus ∧ b.round < curSelfVote ∧
    p.db.getBlockPayload b.payloadHash = some payload

omit [DecidableEq S] in
/-- A notarized block, and what a correct peer that voted for it was proposed. -/
theorem DecodeInv.decodes_of_notarized [CollisionFree D] (hw : DecodeInv F decode w)
    {i : ℕ} {r : BlockRound} {b : BlockHeader D}
    (hb : (w i).db.consBlocksNotarized.get? r = some b) {payload : BlockPayloadRaw}
    (hpayload : (w i).db.getBlockPayload b.payloadHash = some payload) :
    (decode payload).isSome = true := by
  have hdummy := ((hw.counted i).notarized r b hb).2
  obtain ⟨j, hj, _, hprop⟩ := (hw.certified i r b hb).proposed hw.toWorldInv hdummy
  obtain ⟨payload', hhash', hdecodes⟩ := hw.decodes j hj _ b hprop
  have hhash := hw.payloads i _ payload hpayload
  rw [CollisionFree.payloadHash_inj payload payload' (hhash.trans hhash'.symm)]
  exact hdecodes

omit [DecidableEq S] [Signing D S] in
/-- What the app does then: the payload is decoded. -/
theorem Peer.Delivers.nextApp {p : Peer D S} {b : BlockHeader D}
    {payload : BlockPayloadRaw} (h : p.Delivers b payload) :
    p.nextApp decode = (do
      let block ← AppNode.finalizedBlock decode p.db b
      return p.hand block.header) := by
  obtain ⟨reqRound, curConsensus, curSelfVote, hblock, hwaiting, hnext, hlt, hlt', _⟩ := h
  unfold Peer.nextApp
  rw [hblock, hwaiting]
  show p.ackAndWaitNextBlock decode (.nextBlock reqRound curConsensus curSelfVote) = _
  unfold Peer.ackAndWaitNextBlock
  dsimp only
  rw [hnext, Outcome.bind_of_ok (Outcome.expect_eq_ok.mpr rfl), if_pos ⟨hlt, hlt'⟩]

/-- If correct peers store only proposals that decode, every payload that is
delivered decodes. -/
theorem delivered_decodes_of_proposesDecodable [CollisionFree D] {w₀ : World D S}
    {ops : List (WorldOp D S)} (hstart : F.Started w₀)
    (hops : Trail.Guarded (World.step decode)
      (fun w a => F.Genuine w a ∧ F.ProposesDecodable decode w a) w₀ ops) {i : ℕ}
    {b : BlockHeader D} {payload : BlockPayloadRaw}
    (h : (World.run decode w₀ ops i).Delivers b payload) :
    (decode payload).isSome = true := by
  have hw : DecodeInv F decode (World.run decode w₀ ops) :=
    hops.invariant (I := DecodeInv F decode) step_decodeInv (started_decodeInv hstart)
  obtain ⟨reqRound, _, _, _, _, hnext, _, _, hpayload⟩ := h
  obtain ⟨e, he, rfl⟩ := Option.map_eq_some_iff.mp hnext
  exact hw.decodes_of_notarized (SortedTable.firstFrom_eq_some.mp he).1 hpayload

/-! ## A payload made up by the leader -/

/-- The leader of round 0, which is not correct, proposes a payload. The others vote
for the block, and the first of them sees it final; its app asks for it. -/
def proposeAndDeliver (payload : BlockPayloadRaw) : List (WorldOp ListDigest PlainSig) :=
  let block := quadBlock none 0 payload
  let propose : NodeOp ListDigest PlainSig :=
    .recvVote 3 (.proposal (signedBy 13 block) payload)
  [⟨0, .node propose⟩, ⟨0, .node .voteTask⟩, ⟨0, .node (.deliver 0)⟩,
    ⟨1, .node propose⟩, ⟨1, .node .voteTask⟩, ⟨1, .node (.deliver 0)⟩,
    ⟨2, .node propose⟩, ⟨2, .node .voteTask⟩, ⟨2, .node (.deliver 0)⟩,
    ⟨0, .node (.recvVote 1 (.vote (signedBy 11 block)))⟩,
    ⟨1, .node (.recvVote 2 (.vote (signedBy 12 block)))⟩,
    ⟨2, .node (.recvVote 0 (.vote (signedBy 10 block)))⟩,
    ⟨0, .node (.recvFinality 11 ⟨1, (11, .finality 1)⟩)⟩,
    ⟨0, .node (.recvFinality 12 ⟨1, (12, .finality 1)⟩)⟩,
    ⟨0, .app⟩, ⟨0, .app⟩, ⟨0, .app⟩]

/-- The world after that. -/
def deliveringWorld (payload : BlockPayloadRaw) : World ListDigest PlainSig :=
  World.run plainDecode (plainWorld (quadFederation 13)) (proposeAndDeliver payload)

theorem delivers_undecodable : ∃ (w : World ListDigest PlainSig) (b : BlockHeader ListDigest)
    (payload : BlockPayloadRaw), (quadFederation 13).Reachable plainDecode w ∧
      (quadFederation 13).Correct 0 ∧ (w 0).Delivers b payload ∧
      plainDecode payload = none ∧ ((w 0).nextApp plainDecode).Panicked := by
  have hgenuine : Trail.Guarded (World.step plainDecode)
      (quadFederation 13).Genuine (plainWorld (quadFederation 13))
        (proposeAndDeliver [1]) := by decide +kernel
  refine ⟨deliveringWorld [1], quadBlock none 0 [1], [1],
    ⟨_, _, quadWorld_started 13, hgenuine, rfl⟩, by decide, ⟨0, 1, 1, ?_⟩, by decide,
    by decide +kernel⟩
  decide +kernel

/-- A proposal that decodes, or a vote. -/
def decodable : WaitVoteResponse ListDigest PlainSig → Bool
  | .proposal _ payload => (plainDecode payload).isSome
  | .vote _ => true

theorem proposesDecodable_of_decodable {db : Db ListDigest PlainSig} {i : PeerIdx}
    {resp : WaitVoteResponse ListDigest PlainSig} (h : decodable resp = true) :
    Consensus.ProposesDecodable plainDecode db i resp := by
  cases resp with
  | proposal vote payload => exact fun _ => h
  | vote => exact trivial

/-- The op brings in nothing else. -/
def opDecodable (w : World ListDigest PlainSig) (a : WorldOp ListDigest PlainSig) :
    Bool :=
  match a.op with
  | .node (.recvVote _ resp) => decodable resp
  | .node (.deliver k) => (w a.node).node.events[k]?.all fun e => decodable e.resp
  | _ => true

theorem federation_proposesDecodable {F : Federation ListDigest}
    {w : World ListDigest PlainSig} {a : WorldOp ListDigest PlainSig}
    (h : opDecodable w a = true) : F.ProposesDecodable plainDecode w a := by
  obtain ⟨i, op⟩ := a
  intro _
  cases op with
  | app => exact trivial
  | node op =>
      cases op with
      | recvVote j resp => exact proposesDecodable_of_decodable h
      | deliver k =>
          intro e he
          have he' : (w i).node.events[k]? = some e := he
          have hall : ((w i).node.events[k]?.all fun e => decodable e.resp) = true := h
          rw [he'] at hall
          exact proposesDecodable_of_decodable hall
      | _ => exact trivial

/-- With no items in the payload, it decodes. -/
theorem delivered_decodes_of_empty : (plainDecode [0]).isSome = true := by
  have hops : Trail.Guarded (World.step plainDecode)
      (fun w a => (quadFederation 13).Genuine w a ∧ opDecodable w a = true)
      (plainWorld (quadFederation 13)) (proposeAndDeliver [0]) := by decide +kernel
  have hdelivers : (deliveringWorld [0] 0).Delivers (quadBlock none 0 [0]) [0] := by
    refine ⟨0, 1, 1, ?_⟩
    decide +kernel
  exact delivered_decodes_of_proposesDecodable (quadWorld_started 13)
    (hops.mono fun _ _ h => ⟨h.1, federation_proposesDecodable h.2⟩) hdelivers

end Bfte
