import Bfte.Node.RpcServer
import Bfte.Proofs.VotingRule

/-!
# A node votes for one block a round

What holds a node to one block is its proposals table, not its votes. A proposal
is never replaced, and the node casts a vote only for the one stored: the leader
stores the proposal with its vote, the others read it there. The votes
themselves may come and go, but an own vote that is stored was cast before, be
it by the node or in a notarized block that carries it back.
-/

namespace Bfte

namespace Consensus

variable {D S : Type} [LinearOrder D] [Hashing D] [DecidableEq S] [Signing D S]

/-- A proposal that was accepted is stored. -/
theorem processVoteResponseTx_proposal {c c' : Consensus D S} {i : PeerIdx}
    {block : Signed D S} {payload : BlockPayloadRaw} (hinv : RoundInv c.db)
    (h : c.processVoteResponseTx i (.proposal block payload) = .ok c') :
    c'.db.consBlocksProposals.get? block.inner.round = some block.inner := by
  rcases processVoteResponseTx_ok h with ⟨rfl, hstored⟩ |
    ⟨params, db, _, hin, hcounted⟩
  · exact hstored
  · have hstored : db.consBlocksProposals.get? block.inner.round =
        some block.inner := by
      cases hin with
      | proposal _ _ hround =>
          rw [hround]
          show (c.db.consBlocksProposals.insert c.db.getCurrentRound
            block.inner).get? c.db.getCurrentRound = _
          rw [SortedTable.get?_insert_self]
    rcases hcounted with ⟨_, rfl⟩ | ⟨_, hcheck⟩
    · exact hstored
    · rw [← hin.curRound] at hcheck
      obtain ⟨v, hv⟩ := checkRoundEnd_closed (hin.roundInv hinv).toBlockInv hcheck
      rw [hv.proposals_eq]
      exact hstored

/-- A block vote is stored under the round of its block. The params of the round
are known, and the round has been reached, unless it is the last one there is. -/
structure VotedRound (c : Consensus D S) (r : BlockRound) (w : SignedVote D S) :
    Prop where
  round : w.inner.round = r
  reached : r ≤ c.db.getCurrentRound ∨ BlockRound.MAX ≤ r
  known : ∃ p, (c.db.getConsensusParams r : Outcome Empty _) = .ok p

/-- No block vote is stored for a round that has not been reached. -/
def NoVoteAhead (c : Consensus D S) : Prop :=
  ∀ e ∈ c.db.consVotesBlock.entries, (ofLex e.1).1 ≤ c.db.getCurrentRound

instance (c : Consensus D S) : Decidable (NoVoteAhead c) :=
  inferInstanceAs (Decidable (∀ e ∈ _, _))

/-- Params change only while no block vote is ahead. -/
def SettledParams (c : Consensus D S) : ConsensusOp D S → Prop
  | .paramsChange _ _ _ => NoVoteAhead c
  | _ => True

omit [Hashing D] [DecidableEq S] [Signing D S] in
theorem NoVoteAhead.le {c : Consensus D S} (h : NoVoteAhead c) {r : BlockRound}
    {j : PeerIdx} {w : SignedVote D S}
    (hw : c.db.getVoteBlock r j = some w) : r ≤ c.db.getCurrentRound :=
  h (voteKey r j, w) (SortedTable.mem_entries.mpr hw)

/-- The params of a round with a block vote stay as they are. -/
theorem step_getConsensusParams_of_vote [CollisionFree D] (c : Consensus D S)
    (op : ConsensusOp D S) (hround : RoundInv c.db) (hinv : ParamsInv c)
    (hsettled : SettledParams c op) {r : BlockRound} {j : PeerIdx}
    {w : SignedVote D S} {p : ConsensusParams D}
    (hw : c.db.getVoteBlock r j = some w)
    (hp : (c.db.getConsensusParams r : Outcome Empty _) = .ok p) :
    ((c.step op).db.getConsensusParams r : Outcome Empty _) = .ok p := by
  by_cases hop : ∀ r t s, op ≠ .paramsChange r t s
  · rw [(step_sameParams c op hround hop).getConsensusParams]
    exact hp
  · push Not at hop
    obtain ⟨round, t, s, rfl⟩ := hop
    exact step_getConsensusParams c _ hround hinv (NoVoteAhead.le hsettled hw) hp

theorem VotedRound.step [CollisionFree D] {c : Consensus D S}
    (op : ConsensusOp D S) (hround : RoundInv c.db) (hinv : ParamsInv c)
    (hsettled : SettledParams c op) {r : BlockRound} {j : PeerIdx}
    {w : SignedVote D S} (hw : c.db.getVoteBlock r j = some w)
    (h : VotedRound c r w) : VotedRound (c.step op) r w where
  round := h.round
  reached := h.reached.imp_left fun hle =>
    hle.trans (step_onward c op hround).cur_le
  known := by
    obtain ⟨p, hp⟩ := h.known
    exact ⟨p, step_getConsensusParams_of_vote c op hround hinv hsettled hw hp⟩

/-- A block vote that an op adds is in a round that is reached by then. -/
theorem NewVote.votedRound [CollisionFree D] {c : Consensus D S}
    {op : ConsensusOp D S} {r : BlockRound} {j : PeerIdx} {w : SignedVote D S}
    (h : NewVote c r j w op) (hround : RoundInv c.db) (hinv : ParamsInv c) :
    VotedRound (c.step op) r w := by
  cases h with
  | counted resp params hr hw hwr hdummy hparams hsig =>
      refine ⟨hwr, Or.inl ?_, params, ?_⟩
      · rw [hr]
        exact (step_onward c _ hround).cur_le
      · exact step_getConsensusParams c _ hround hinv (le_of_eq hr) hparams
  | signed resp params hwr hw hmem hdummy hparams hsig hstored =>
      obtain ⟨b, hb⟩ := hstored
      refine ⟨hwr, ?_, params, ?_⟩
      · exact ((step_roundInv c _ hround).behind r b hb).imp_left le_of_lt
      · rw [(step_sameParams c (.notarized resp) hround
          (by simp)).getConsensusParams]
        exact hparams

end Consensus

namespace Node

open Consensus

variable {D S : Type} [LinearOrder D] [Hashing D] [DecidableEq S] [Signing D S]

/-- A signature of the node's own key that comes in with a notarized block was
cast by the node. The other clause is about the last round alone. -/
def Genuine (n : Node D S) : NodeOp D S → Prop
  | .recvNotarized resp => resp.block.inner.isDummy = false →
      ∀ e ∈ resp.block.sigs.entries, ∀ k ∈ n.consensus.ourPeerPubkey,
        Signing.verify k e.2 (SignMsg.header resp.block.inner) = true →
        resp.block.inner ∈ n.cast
  | .paramsChange _ _ _ => NoVoteAhead n.consensus
  | _ => True

instance (n : Node D S) (op : NodeOp D S) : Decidable (Genuine n op) :=
  match op with
  | .recvNotarized _ => inferInstanceAs (Decidable (_ → ∀ e ∈ _, ∀ k ∈ _, _))
  | .recvVote _ _ => .isTrue trivial
  | .recvFinality _ _ => .isTrue trivial
  | .proposalTask _ _ => .isTrue trivial
  | .voteTask => .isTrue trivial
  | .timeoutTask => .isTrue trivial
  | .deliver _ => .isTrue trivial
  | .paramsChange _ _ _ => inferInstanceAs (Decidable (NoVoteAhead _))
  | .restart => .isTrue trivial

/-- What no node loses: its own block votes were cast, and what was cast is the
proposal of its round. -/
structure OnceInv (n : Node D S) : Prop where
  rounds : RoundInv n.consensus.db
  params : ParamsInv n.consensus
  events : ∀ e ∈ n.events, EventInv n.consensus e
  voted : ∀ r j w, n.consensus.db.getVoteBlock r j = some w →
    VotedRound n.consensus r w
  own : ∀ r i w, Sits n.consensus r i →
    n.consensus.db.getVoteBlock r i = some w → w.inner ∈ n.cast
  cast : ∀ h ∈ n.cast, h.isDummy = false →
    n.consensus.db.consBlocksProposals.get? h.round = some h

omit [Hashing D] [DecidableEq S] in
/-- A vote by the node's key verifies under it. -/
theorem Sits.verify {c : Consensus D S} {r : BlockRound} {i : PeerIdx}
    {params : ConsensusParams D} {k : PeerPubkey} {msg : SignMsg D} {sig : S}
    (h : Sits c r i) (hk : c.ourPeerPubkey = some k)
    (hp : c.db.getConsensusParams r = (.ok params : Outcome Empty _))
    (hsig : SigOk params.peers msg i sig) : Signing.verify k sig msg = true := by
  obtain ⟨k', params', hk', hp', hi⟩ := h
  rw [hk] at hk'
  rw [hp] at hp'
  cases hk'
  cases hp'
  obtain ⟨k'', hget, _, hver⟩ := hsig
  rw [ConsensusParams.findPeerIdx_getElem? hi] at hget
  cases hget
  exact hver

/-- Where a node has a seat after a step, it had it before, if it has voted
there. -/
theorem Sits.of_settled [CollisionFree D] {c : Consensus D S}
    (op : ConsensusOp D S) (hround : RoundInv c.db) (hinv : ParamsInv c)
    (hsettled : SettledParams c op) {r : BlockRound} {i : PeerIdx}
    {w : SignedVote D S} (hw : c.db.getVoteBlock r i = some w)
    (hknown : VotedRound c r w) (h : Sits (c.step op) r i) : Sits c r i := by
  obtain ⟨p, hp⟩ := hknown.known
  obtain ⟨k, params, hk, hparams, hi⟩ := h
  rw [step_getConsensusParams_of_vote c op hround hinv hsettled hw hp] at hparams
  cases hparams
  rw [(step_onward c op hround).key] at hk
  exact ⟨k, p, hk, hp, hi⟩

/-- A node that took a step of its consensus, and perhaps cast votes. -/
theorem OnceInv.advance [CollisionFree D] {n n' : Node D S}
    (op : ConsensusOp D S) (h : OnceInv n)
    (hcons : n'.consensus = n.consensus.step op)
    (hsettled : SettledParams n.consensus op)
    (hevents : ∀ e ∈ n'.events, EventInv n'.consensus e)
    (hcast : ∀ b ∈ n'.cast, b ∈ n.cast ∨ (b.isDummy = false →
      n'.consensus.db.consBlocksProposals.get? b.round = some b))
    (hmono : ∀ b ∈ n.cast, b ∈ n'.cast)
    (hnew : ∀ r i w, Sits n'.consensus r i → NewVote n.consensus r i w op →
      w.inner ∈ n'.cast) : OnceInv n' := by
  have honward := step_onward n.consensus op h.rounds
  refine ⟨?_, ?_, hevents, ?_, ?_, ?_⟩
  · rw [hcons]
    exact step_roundInv _ op h.rounds
  · rw [hcons]
    exact step_paramsInv _ op h.rounds h.params
  · intro r j w hw
    rw [hcons] at hw ⊢
    rcases step_voteBlock_cases _ op h.rounds hw with hold | hadded
    · exact (h.voted r j w hold).step op h.rounds h.params hsettled hold
    · exact hadded.votedRound h.rounds h.params
  · intro r i w hsits hw
    have hw' := hw
    rw [hcons] at hw'
    rcases step_voteBlock_cases _ op h.rounds hw' with hold | hadded
    · rw [hcons] at hsits
      refine hmono _ (h.own r i w ?_ hold)
      exact hsits.of_settled op h.rounds h.params hsettled hold
        (h.voted r i w hold)
    · exact hnew r i w hsits hadded
  · intro b hb hdummy
    rcases hcast b hb with hold | hstored
    · rw [hcons]
      exact honward.proposals _ _ (h.cast b hold hdummy)
    · exact hstored hdummy

/-- A vote that was delivered is for the proposal stored. -/
theorem delivered_stored {c c' : Consensus D S} {e : RoundEvent D S}
    (hround : RoundInv c.db) (he : EventInv c e)
    (hok : c.processVoteResponseTx e.peerIdx e.resp = .ok c')
    (hdummy : e.resp.block.inner.isDummy = false) :
    c'.db.consBlocksProposals.get? e.resp.block.inner.round =
      some e.resp.block.inner := by
  have hvote := he.vote
  have honward := step_onward c (.vote e.peerIdx e.resp) hround
  rw [Consensus.step, hok] at honward
  obtain ⟨i, resp⟩ := e
  cases resp with
  | vote v => exact honward.proposals _ _ (hvote v rfl hdummy)
  | proposal block payload => exact processVoteResponseTx_proposal hround hok

theorem step_onceInv [CollisionFree D] (n : Node D S) (op : NodeOp D S)
    (h : OnceInv n) (hg : Genuine n op) : OnceInv (n.step op) := by
  have hevents := step_eventInv n op h.rounds h.params h.events
  have hcase := step_nodeCase n op
  generalize n.step op = n' at hcase hevents
  cases hcase with
  | idle => exact h
  | recvVote i resp hother =>
      refine h.advance (.vote i resp) rfl trivial hevents (fun b => Or.inl) (fun b => id) ?_
      intro r j w hsits hadded
      cases hadded with
      | counted _ params hr hw hwr hdummy hparams hsig =>
          -- the node does not ask itself
          refine absurd (ourPeerIdx_eq_some.mpr ?_) hother
          subst hr
          exact hsits.of_step _ h.rounds h.params (le_refl _) hparams
  | recvNotarized resp =>
      refine h.advance (.notarized resp) rfl trivial hevents (fun b => Or.inl) (fun b => id) ?_
      intro r j w hsits hadded
      cases hadded with
      | signed _ params hwr hw hmem hdummy hparams hsig hstored =>
          have hsame := step_sameParams n.consensus (.notarized resp) h.rounds
            (by simp)
          obtain ⟨k, hk⟩ : ∃ k, n.consensus.ourPeerPubkey = some k := by
            obtain ⟨k, _, hk, _⟩ := hsits
            exact ⟨k, (step_onward _ _ h.rounds).key.symm.trans hk⟩
          have hver := hsits.verify ((step_onward _ _ h.rounds).key.trans hk)
            ((hsame.getConsensusParams r).trans hparams) hsig
          rw [hw] at hver hdummy ⊢
          exact hg hdummy _ hmem k hk hver
  | recvFinality k resp hother =>
      refine h.advance (.finality k resp) rfl trivial hevents (fun b => Or.inl) (fun b => id) ?_
      intro r j w hsits hadded
      cases hadded
  | spawned op e hspawned =>
      exact ⟨h.rounds, h.params, hevents, h.voted, h.own, h.cast⟩
  | delivered k e c he hok =>
      have hcons : c = n.consensus.step (.vote e.peerIdx e.resp) := by
        rw [Consensus.step, hok]
        rfl
      refine h.advance (.vote e.peerIdx e.resp) hcons trivial hevents ?_ ?_ ?_
      · intro b hb
        rcases List.mem_append.mp hb with hb | hb
        · exact Or.inl hb
        · rw [List.mem_singleton.mp hb]
          exact Or.inr (delivered_stored h.rounds
            (h.events e (List.mem_of_getElem? he)) hok)
      · exact fun b hb => List.mem_append_left _ hb
      · intro r j w hsits hadded
        cases hadded with
        | counted _ params hr hw =>
            rw [hw]
            exact List.mem_append_right _ (List.mem_singleton_self _)
  | dropped k => exact ⟨h.rounds, h.params, hevents, h.voted, h.own, h.cast⟩
  | paramsChange r t peers =>
      refine h.advance (.paramsChange r t peers) rfl hg hevents (fun b => Or.inl) (fun b => id) ?_
      intro r j w hsits hadded
      cases hadded
  | restart =>
      refine h.advance .reopen rfl trivial hevents (fun b => Or.inl) (fun b => id) ?_
      intro r j w hsits hadded
      cases hadded

/-! ## What others are told -/

/-- `get_vote` returns a block `b`, not a dummy, for the node's own index in some
round. -/
def ReturnsVote (c : Consensus D S) (b : BlockHeader D) : Prop :=
  ∃ r key params i resp, c.ourPeerPubkey = some key ∧
    c.db.getConsensusParams r = (.ok params : Outcome Empty _) ∧
    params.findPeerIdx key = some i ∧
    (getVote c.db r params i : Outcome Empty _) = .ok (some resp) ∧
    resp.block.inner = b ∧ b.isDummy = false

omit [DecidableEq S] [Signing D S] in
theorem getVote_ok {ε : Type} {db : Db D S} {r : BlockRound}
    {params : ConsensusParams D} {i : PeerIdx} {resp : WaitVoteResponse D S}
    (h : (getVote db r params i : Outcome ε _) = .ok (some resp))
    (hdummy : resp.block.inner.isDummy = false) :
    db.getVoteBlock r i = some resp.block := by
  simp only [getVote] at h
  split at h
  · cases h
    have := BlockHeader.isDummy_newDummy r params
    rw [show (BlockHeader.newDummy r params).isDummy = false from hdummy] at this
    cases this
  · split at h
    · cases h
    · next block hblock =>
        simp only [Outcome.bind_eq_ok] at h
        obtain ⟨leader, _, h⟩ := h
        split at h
        · split at h
          · cases h
            exact hblock
          · cases h
        · cases h
          exact hblock

omit [DecidableEq S] [Signing D S] in
theorem getVote_cast {ε ε' : Type} {db : Db D S} {r : BlockRound}
    {params : ConsensusParams D} {i : PeerIdx}
    {o : Option (WaitVoteResponse D S)}
    (h : (getVote db r params i : Outcome ε _) = .ok o) :
    (getVote db r params i : Outcome ε' _) = .ok o := by
  simp only [getVote] at h ⊢
  cases hdummy : db.getVoteDummy r i with
  | some sig =>
      rw [hdummy] at h
      cases h
      rfl
  | none =>
      rw [hdummy] at h
      cases hblock : db.getVoteBlock r i with
      | none =>
          rw [hblock] at h
          cases h
          rfl
      | some block =>
          rw [hblock] at h
          simp only [Outcome.bind_eq_ok, ConsensusParams.leaderIdx_eq_ok] at h ⊢
          obtain ⟨leader, hleader, h⟩ := h
          refine ⟨leader, hleader, ?_⟩
          split at h
          · next heq =>
              rw [if_pos heq]
              split at h
              · cases h
                rfl
              · cases h
                rfl
          · next hne =>
              rw [if_neg hne]
              cases h
              rfl

/-- A request for the vote of a round is answered with `b`. -/
def Answers (c : Consensus D S) (req : WaitVoteRequest) (b : BlockHeader D) :
    Prop :=
  (handleWaitVoteTry c req).Returns fun o => o.map (·.block.inner) = some b

instance (c : Consensus D S) (req : WaitVoteRequest) (b : BlockHeader D) :
    Decidable (Answers c req b) := inferInstanceAs (Decidable (Outcome.Returns _ _))

omit [DecidableEq S] [Signing D S] in
/-- What `handle_wait_vote` answers is what `get_vote` returns. -/
theorem Answers.returnsVote {c : Consensus D S} {req : WaitVoteRequest}
    {b : BlockHeader D} (hanswer : Answers c req b) (hdummy : b.isDummy = false) :
    ReturnsVote c b := by
  obtain ⟨o, h, ho⟩ := Outcome.returns_iff.mp hanswer
  obtain ⟨resp, rfl, rfl⟩ := Option.map_eq_some_iff.mp ho
  simp only [handleWaitVoteTry] at h
  split at h
  · cases h
  · next key hkey =>
      split at h
      · cases h
      · simp only [Outcome.bind_eq_ok] at h
        obtain ⟨params, hparams, h⟩ := h
        split at h
        · cases h
        · next i hi =>
            simp only [Outcome.bind_eq_ok] at h
            obtain ⟨o, ho, h⟩ := h
            split at h
            · next resp' hfilter =>
                cases h
                obtain ⟨rfl, _⟩ := Option.filter_eq_some_iff.mp hfilter
                exact ⟨req.round, key, params, i, resp, hkey,
                  Db.getConsensusParams_cast hparams, hi, getVote_cast ho, rfl,
                  hdummy⟩
            · split at h <;> cases h

omit [DecidableEq S] [Signing D S] in
/-- A header that `get_vote` returns was cast. -/
theorem OnceInv.returned {n : Node D S} (h : OnceInv n) {b : BlockHeader D}
    (hb : ReturnsVote n.consensus b) : b ∈ n.cast := by
  obtain ⟨r, key, params, i, resp, hkey, hparams, hi, hvote, rfl, hdummy⟩ := hb
  exact h.own r i resp.block ⟨key, params, hkey, hparams, hi⟩
    (getVote_ok hvote hdummy)

theorem step_cast_mono (n : Node D S) (op : NodeOp D S) :
    ∀ b ∈ n.cast, b ∈ (n.step op).cast := by
  have hcase := step_nodeCase n op
  generalize n.step op = n' at hcase
  intro b hb
  cases hcase with
  | delivered k e c he hok => exact List.mem_append_left _ hb
  | _ => exact hb

omit [DecidableEq S] [Signing D S] in
theorem init_onceInv {params : ConsensusParams D} {k : Option PeerPubkey}
    {pinned : Option (BlockRound × D)} {c : Consensus D S}
    (h : init params Db.empty k pinned = .ok c) : OnceInv (start c) := by
  have hvotes : ∀ r j w, c.db.getVoteBlock r j ≠ some w := by
    intro r j w
    rw [(init_votes h r j).1]
    simp
  refine ⟨init_roundInv h, init_paramsInv h, ?_, ?_, ?_, ?_⟩
  · intro e he
    cases he
  · intro r j w hw
    exact absurd hw (hvotes r j w)
  · intro r i w _ hw
    exact absurd hw (hvotes r i w)
  · intro b hb
    cases hb

/-- Whatever the node was told and however it was stopped, `get_vote` returns at
most one block a round for it. -/
theorem returnsVote_unique [CollisionFree D] {params : ConsensusParams D}
    {k : Option PeerPubkey} {pinned : Option (BlockRound × D)}
    {c : Consensus D S} {ops ops' : List (NodeOp D S)}
    (hinit : init params Db.empty k pinned = .ok c)
    (hops : Trail.Guarded step Genuine (start c) (ops ++ ops'))
    {b b' : BlockHeader D} (hb : ReturnsVote ((start c).run ops).consensus b)
    (hb' : ReturnsVote ((start c).run (ops ++ ops')).consensus b')
    (hround : b.round = b'.round) : b = b' := by
  obtain ⟨hfirst, hrest⟩ := Trail.guarded_append.mp hops
  have hinv : OnceInv ((start c).run ops) :=
    hfirst.invariant step_onceInv (init_onceInv hinit)
  have hinv' : OnceInv ((start c).run (ops ++ ops')) :=
    hops.invariant step_onceInv (init_onceInv hinit)
  have hmem : b ∈ ((start c).run (ops ++ ops')).cast := by
    unfold run
    rw [Trail.run_append]
    exact hrest.invariant (I := fun n => b ∈ n.cast)
      (fun n op hn _ => step_cast_mono n op b hn) (hinv.returned hb)
  have hstored := hinv'.cast b hmem (by
    obtain ⟨_, _, _, _, _, _, _, _, _, _, hdummy⟩ := hb
    exact hdummy)
  have hstored' := hinv'.cast b' (hinv'.returned hb') (by
    obtain ⟨_, _, _, _, _, _, _, _, _, _, hdummy⟩ := hb'
    exact hdummy)
  rw [hround, hstored'] at hstored
  exact (Option.some.inj hstored).symm

/-- The node votes for the proposal of round 0 and crashes. Its peers have
notarized the block by the time it is back. -/
def voteAndCrash : List (NodeOp ListDigest PlainSig) :=
  [.recvVote 3 (.proposal (signedBy 13 (quadBlock none 0 [0])) [0]), .voteTask,
   .deliver 0]

def crashAndCatchUp : List (NodeOp ListDigest PlainSig) :=
  [.timeoutTask, .restart,
   .recvNotarized ⟨notarizedBy quadKeys [0, 1, 3] (quadBlock none 0 [0]), [0]⟩]

theorem returnsVote_unique_of_crash : ∃ (c : Consensus ListDigest PlainSig)
    (b b' : BlockHeader ListDigest),
    init (plainParams quadKeys) Db.empty (some 10) none = .ok c ∧
      ReturnsVote ((start c).run voteAndCrash).consensus b ∧
      ReturnsVote ((start c).run (voteAndCrash ++ crashAndCatchUp)).consensus b' ∧
      b = b' := by
  have hrun : (init (plainParams quadKeys) (Db.empty : Db ListDigest PlainSig)
      (some 10) none).Returns fun c =>
        Trail.Guarded step Genuine (start c) (voteAndCrash ++ crashAndCatchUp) ∧
          Answers ((start c).run voteAndCrash).consensus ⟨0, false⟩
            (quadBlock none 0 [0]) ∧
          Answers ((start c).run (voteAndCrash ++ crashAndCatchUp)).consensus
            ⟨0, false⟩ (quadBlock none 0 [0]) := by decide +kernel
  obtain ⟨c, hinit, hops, hfirst, hlast⟩ := Outcome.returns_iff.mp hrun
  have hb := hfirst.returnsVote (by decide)
  have hb' := hlast.returnsVote (by decide)
  exact ⟨c, _, _, hinit, hb, hb', returnsVote_unique hinit hops hb hb' rfl⟩

end Node

end Bfte
