import Bfte.Node.RoundLoop
import Bfte.Proofs.DummyRounds
import Bfte.Proofs.VoteSets

/-!
# There is always a task left

The round loop ends the process when its round is not over and it has nothing more to
wait for. Nothing is asked of a peer again after it has sent a dummy, and the timeout of
the node itself fires once. What keeps the loop going is that each of these is the end of
its task only because it leaves a dummy vote in the table: a correct peer that has sent a
dummy, and the node itself, have their vote stored. Were all tasks through, all correct
peers would have given up on the round, and the round would be over.
-/

namespace Bfte

namespace RoundLoop

open Consensus Node

variable {D S : Type} [LinearOrder D] [Hashing D] [Signing D S]

/-! ## What a correct peer answers -/

/-- If the answer is a dummy, as it must be if only dummies were asked for, it is the
vote of the peer for the dummy of the round. -/
structure Answers (round : BlockRound) (params : ConsensusParams D) (i : PeerIdx)
    (onlyDummy : Bool) (resp : WaitVoteResponse D S) : Prop where
  dummy : onlyDummy = true → resp.block.inner.isDummy = true
  own : resp.block.inner.isDummy = true →
    resp = .vote ⟨.newDummy round params, resp.block.sig⟩ ∧
      SigOk params.peers (.header (.newDummy round params)) i resp.block.sig

instance (peers : PeerSet) (msg : SignMsg D) (i : PeerIdx) (sig : S) :
    Decidable (SigOk peers msg i sig) :=
  decidable_of_iff (∃ k ∈ peers.items[i]?, Signing.validKey D S k = true ∧
    Signing.verify k sig msg = true) Iff.rfl

instance [DecidableEq S] (round : BlockRound) (params : ConsensusParams D) (i : PeerIdx)
    (onlyDummy : Bool) (resp : WaitVoteResponse D S) :
    Decidable (Answers round params i onlyDummy resp) :=
  decidable_of_iff ((onlyDummy = true → resp.block.inner.isDummy = true) ∧
      (resp.block.inner.isDummy = true →
        resp = .vote ⟨.newDummy round params, resp.block.sig⟩ ∧
          SigOk params.peers (.header (.newDummy round params)) i resp.block.sig))
    ⟨fun h => ⟨h.1, h.2⟩, fun h => ⟨h.dummy, h.own⟩⟩

omit [Signing D S] in
/-- A request is answered with the node's own vote, and with a dummy if a dummy was asked
for. -/
theorem handleWaitVoteTry_ok {c : Consensus D S} {req : WaitVoteRequest}
    {resp : WaitVoteResponse D S} {params : ConsensusParams D} {k : PeerPubkey}
    {i : PeerIdx} (hkey : c.ourPeerPubkey = some k)
    (hparams : (c.db.getConsensusParams req.round : Outcome Empty _) = .ok params)
    (hidx : params.findPeerIdx k = some i)
    (h : handleWaitVoteTry c req = .ok (some resp)) :
    (getVote c.db req.round params i : Outcome WaitVoteError _) = .ok (some resp) ∧
      (req.onlyDummy = true → resp.block.inner.isDummy = true) := by
  unfold handleWaitVoteTry at h
  rw [hkey] at h
  dsimp only at h
  split at h
  · cases h
  · obtain ⟨params', hparams', h⟩ := Outcome.bind_eq_ok.mp h
    rw [Db.getConsensusParams_cast hparams] at hparams'
    cases hparams'
    rw [hidx] at h
    obtain ⟨o, hvote, h⟩ := Outcome.bind_eq_ok.mp h
    split at h
    · next resp' hfilter =>
        cases h
        obtain ⟨rfl, hasked⟩ := Option.filter_eq_some_iff.mp hfilter
        refine ⟨hvote, fun honly => ?_⟩
        rw [honly] at hasked
        exact hasked
    · split at h <;> cases h

/-- The rpc server of a correct peer answers so, with what the peer has stored. -/
theorem handleWaitVoteTry_answers {c : Consensus D S} {req : WaitVoteRequest}
    {resp : WaitVoteResponse D S} {params : ConsensusParams D} {k : PeerPubkey}
    {i : PeerIdx} (hdummies : DummyInv c.db)
    (hvotes : ∀ w, c.db.getVoteBlock req.round i = some w → w.inner.isDummy = false)
    (hkey : c.ourPeerPubkey = some k)
    (hparams : (c.db.getConsensusParams req.round : Outcome Empty _) = .ok params)
    (hidx : params.findPeerIdx k = some i)
    (h : handleWaitVoteTry c req = .ok (some resp)) :
    Answers req.round params i req.onlyDummy resp := by
  obtain ⟨hvote, hasked⟩ := handleWaitVoteTry_ok hkey hparams hidx h
  refine ⟨hasked, fun hdummy => ?_⟩
  unfold getVote at hvote
  split at hvote
  · next sig hsig =>
      cases hvote
      obtain ⟨_, params', hparams', hok⟩ := hdummies _ _ _ hsig
      rw [hparams] at hparams'
      cases hparams'
      exact ⟨rfl, hok⟩
  · split at hvote
    · cases hvote
    · next block hblock =>
        have hnot : block.inner.isDummy = false := hvotes block hblock
        obtain ⟨leader, _, hvote⟩ := Outcome.bind_eq_ok.mp hvote
        split at hvote
        · split at hvote
          · cases hvote
            exact absurd (hnot.symm.trans hdummy) Bool.false_ne_true
          · cases hvote
        · cases hvote
          exact absurd (hnot.symm.trans hdummy) Bool.false_ne_true

/-- An answer to a request for a vote is that of a correct peer, if the peer is. -/
def FairAnswer (byz : PeerPubkey → Bool) (R : RunningRound D S)
    (resp : WaitVoteResponse D S) : RoundTask → Prop
  | .requestVote i req => ∀ k ∈ R.params.peers.items[i]?, byz k = false →
      Answers R.round R.params i req.onlyDummy resp
  | _ => True

/-- Correct peers answer as they do, no block of the last round number is taken, and
params are changed for some peers and for a round that has none yet. -/
def Fair (byz : PeerPubkey → Bool) (l : RoundLoop D S) : RoundLoopOp D S → Prop
  | .finishVote n resp => ∀ R ∈ l.running, ∀ task ∈ R.tasks[n]?, FairAnswer byz R resp task
  | .joinNext n => ∀ R ∈ l.current, ∀ e ∈ R.events[n]?,
      BelowLast l.consensus (eventOp e)
  | .paramsChange round timestamp peers =>
      ChangesFresh l.consensus (.paramsChange round timestamp peers)
  | _ => True

/-! ## Who is still to come -/

/-- Peer `i` may be faulty, or it has given up on the round, or there is something to
come of it. -/
inductive Covered (byz : PeerPubkey → Bool) (c : Consensus D S) (R : RunningRound D S)
    (i : PeerIdx) : Prop
  | faulty (k : PeerPubkey) (hk : R.params.peers.items[i]? = some k) (hbyz : byz k = true)
  | voted (h : (c.db.getVoteDummy R.round i).isSome = true)
  | overtaken (h : Overtaken c R.round)
  | asked (req : WaitVoteRequest) (h : .requestVote i req ∈ R.tasks)
  | answered (resp : WaitVoteResponse D S) (h : .vote ⟨i, resp⟩ ∈ R.events)
  | waiting (s : Seat D) (hs : R.seat = some s) (hi : s.idx = i)
      (h : .timeoutVote ∈ R.tasks)
  | timedOut (s : Seat D) (hs : R.seat = some s) (hi : s.idx = i)
      (h : .voteSelf ⟨i, .vote (signWith s.key (.newDummy R.round R.params))⟩ ∈ R.events)

/-- The round was reached, and is run with its params and at the node's own seat. -/
structure RunsOn (c : Consensus D S) (R : RunningRound D S) : Prop where
  scheduled : (c.db.getConsensusParams R.round : Outcome Empty _) = .ok R.params
  round_le : R.round ≤ c.db.getCurrentRound
  seat : R.seat = c.ourPeerPubkey.bind fun key =>
    (R.params.findPeerIdx key).map fun idx => ⟨R.round, R.params, key, idx⟩

/-- What holds of a round that is being run. -/
structure RunningInv (byz : PeerPubkey → Bool) (c : Consensus D S)
    (R : RunningRound D S) : Prop extends RunsOn c R where
  fair : ∀ e, .vote e ∈ R.events → ∀ k ∈ R.params.peers.items[e.peerIdx]?,
    byz k = false → Answers R.round R.params e.peerIdx false e.resp
  covered : R.round < BlockRound.MAX → ∀ i < R.params.peers.len, Covered byz c R i

structure LoopInv (byz : PeerPubkey → Bool) (l : RoundLoop D S) : Prop where
  ready : DummyReady l.consensus
  valid : ∀ k, l.consensus.ourPeerPubkey = some k → Signing.validKey D S k = true
  running : ∀ R, l.running = some R → RunningInv byz l.consensus R

instance (byz : PeerPubkey → Bool) [DecidableEq S] (R : RunningRound D S)
    (resp : WaitVoteResponse D S) : ∀ task, Decidable (FairAnswer byz R resp task)
  | .requestVote i req =>
      inferInstanceAs (Decidable (∀ k ∈ R.params.peers.items[i]?, byz k = false →
        Answers R.round R.params i req.onlyDummy resp))
  | .generateProposal | .voteProposal | .timeoutVote | .requestNotarized _ _ =>
      .isTrue trivial

instance (byz : PeerPubkey → Bool) [DecidableEq S] (l : RoundLoop D S) :
    ∀ op, Decidable (Fair byz l op)
  | .finishVote n resp =>
      inferInstanceAs (Decidable (∀ R ∈ l.running, ∀ task ∈ R.tasks[n]?,
        FairAnswer byz R resp task))
  | .joinNext n =>
      inferInstanceAs (Decidable (∀ R ∈ l.current, ∀ e ∈ R.events[n]?,
        BelowLast l.consensus (eventOp e)))
  | .paramsChange round timestamp peers =>
      inferInstanceAs (Decidable (ChangesFresh l.consensus
        (.paramsChange round timestamp peers)))
  | .startRound | .finishOwn _ _ _ | .finishNotarized _ _ | .recvFinality _ _
  | .restart => .isTrue trivial

theorem mem_eraseIdx_of_ne {α : Type} {l : List α} {n : ℕ} {a b : α} (ha : a ∈ l)
    (hb : l[n]? = some b) (hne : a ≠ b) : a ∈ l.eraseIdx n := by
  obtain ⟨m, hm⟩ := List.mem_iff_getElem?.mp ha
  refine List.mem_eraseIdx_iff_getElem?.mpr ⟨m, ?_, hm⟩
  rintro rfl
  exact hne (Option.some.inj (hm.symm.trans hb))

variable {byz : PeerPubkey → Bool} {c c' : Consensus D S} {R : RunningRound D S}

/-! ## The start of a round -/

omit [Signing D S] in
theorem start_ok (h : RunningRound.start c = .ok R) :
    R.round = c.db.getCurrentRound ∧
      (c.db.getConsensusParams R.round : Outcome Empty _) = .ok R.params ∧
      R.params.peers.len ≤ 255 ∧ (seat c : Outcome Empty _) = .ok R.seat ∧
      R.events = [] ∧
      RunningRound.spawnVoteRequests R.seat R.round R.params.peers.len
        (c.db.getPeersWithDummyVotes R.round)
        (c.db.getPeersWithProposalVotes R.round) ⊆ R.tasks ∧
      RunningRound.spawnTimeoutVote R.seat (c.db.getPeersWithDummyVotes R.round) ⊆
        R.tasks := by
  simp only [RunningRound.start, Outcome.bind_eq_ok, Outcome.pure_eq_ok,
    ConsensusParams.numPeers_eq_ok] at h
  obtain ⟨params, hparams, seat, hseat, leader, _, num, ⟨hlen, rfl⟩, req, _, rfl⟩ := h
  refine ⟨rfl, hparams, hlen, hseat, rfl, ?_, ?_⟩
  · intro task htask
    simp only [List.mem_append]
    exact Or.inl (Or.inl (Or.inr htask))
  · intro task htask
    simp only [List.mem_append]
    exact Or.inr htask

theorem voteIdx_val {i : PeerIdx} (h : i ≤ 255) : (RunningRound.voteIdx i).val = i :=
  Nat.mod_eq_of_lt (Nat.lt_succ_of_le h)

/-- At the start every peer has given up already or has a task. -/
theorem start_covered (h : RunningRound.start c = .ok R) {i : PeerIdx}
    (hi : i < R.params.peers.len) : Covered byz c R i := by
  obtain ⟨hround, _, hlen, _, _, hvotes, htimeout⟩ := start_ok h
  have hidx : (RunningRound.voteIdx i).val = i := voteIdx_val (hi.le.trans hlen)
  by_cases hdummy : (c.db.getPeersWithDummyVotes R.round).contains
      (RunningRound.voteIdx i) = true
  · have hstored := Db.contains_peersWithVotes.mp hdummy
    rw [hidx] at hstored
    exact .voted hstored
  · by_cases hseat : R.seat.map Seat.idx = some i
    · obtain ⟨s, hs, rfl⟩ := Option.map_eq_some_iff.mp hseat
      refine .waiting s hs rfl (htimeout ?_)
      unfold RunningRound.spawnTimeoutVote
      rw [hs]
      dsimp only
      rw [if_neg hdummy]
      exact List.mem_singleton_self _
    · have hspawned : .requestVote i ⟨R.round, (c.db.getPeersWithProposalVotes
          R.round).contains (RunningRound.voteIdx i)⟩ ∈ R.tasks := by
        refine hvotes (List.mem_filterMap.mpr ⟨i, List.mem_range.mpr hi, ?_⟩)
        rw [if_neg hseat, if_neg hdummy]
      exact .asked _ hspawned

omit [Signing D S] in
theorem start_runsOn (h : RunningRound.start c = .ok R) : RunsOn c R := by
  obtain ⟨hround, hparams, _, hseat, _, _, _⟩ := start_ok h
  refine ⟨hparams, hround.le, ?_⟩
  rw [hround] at hparams ⊢
  simp only [seat, hparams, Outcome.bind_eq_ok, Outcome.pure_eq_ok] at hseat
  obtain ⟨params, hsame, hseat⟩ := hseat
  cases hsame
  exact hseat.symm

omit [Hashing D] [Signing D S] in
theorem RunsOn.seat_spec (h : RunsOn c R) {s : Seat D} (hs : R.seat = some s) :
    s.round = R.round ∧ s.params = R.params ∧ c.ourPeerPubkey = some s.key ∧
      R.params.findPeerIdx s.key = some s.idx := by
  rw [h.seat] at hs
  obtain ⟨key, hkey, hs⟩ := Option.bind_eq_some_iff.mp hs
  obtain ⟨idx, hidx, rfl⟩ := Option.map_eq_some_iff.mp hs
  exact ⟨rfl, rfl, hkey, hidx⟩

omit [Hashing D] [Signing D S] in
/-- In the round itself it is the seat the node has. -/
theorem RunsOn.seat_eq (h : RunsOn c R) (hcur : c.db.getCurrentRound = R.round) :
    (Node.seat c : Outcome Empty _) = .ok R.seat := by
  simp only [Node.seat, hcur, h.scheduled, h.seat]
  rfl

theorem start_runningInv (h : RunningRound.start c = .ok R) : RunningInv byz c R := by
  obtain ⟨_, _, _, _, hevents, _, _⟩ := start_ok h
  refine ⟨start_runsOn h, fun e he => ?_, fun _ i hi => start_covered h hi⟩
  rw [hevents] at he
  cases he

/-! ## A task is through -/

/-- A task of the node itself that is through leaves the requests alone, and the timeout
leaves its event. -/
theorem RunningInv.finish {n : ℕ} {task : RoundTask} {e : TaskEvent D S}
    (h : RunningInv byz c R) (htask : R.tasks[n]? = some task)
    (hfair : ∀ e', e = .vote e' → ∀ k ∈ R.params.peers.items[e'.peerIdx]?,
      byz k = false → Answers R.round R.params e'.peerIdx false e'.resp)
    (hvote : ∀ i req, task = .requestVote i req → ∃ resp, e = .vote ⟨i, resp⟩)
    (htimeout : task = .timeoutVote → ∀ s, R.seat = some s →
      e = .voteSelf ⟨s.idx, .vote (signWith s.key (.newDummy R.round R.params))⟩) :
    RunningInv byz c (R.finish n e) where
  toRunsOn := ⟨h.scheduled, h.round_le, h.seat⟩
  fair e' he' := by
    rcases List.mem_append.mp he' with hold | hnew
    · exact h.fair e' hold
    · exact hfair e' (List.mem_singleton.mp hnew).symm
  covered hlast i hi := by
    have hadded : e ∈ (R.finish n e).events :=
      List.mem_append_right _ (List.mem_singleton_self _)
    cases h.covered hlast i hi with
    | faulty k hk hbyz => exact .faulty k hk hbyz
    | voted hv => exact .voted hv
    | overtaken hover => exact .overtaken hover
    | asked req hreq =>
        by_cases heq : .requestVote i req = task
        · obtain ⟨resp, rfl⟩ := hvote i req heq.symm
          exact .answered resp hadded
        · exact .asked req (mem_eraseIdx_of_ne hreq htask heq)
    | answered resp hresp => exact .answered resp (List.mem_append_left _ hresp)
    | waiting s hs hidx hwait =>
        by_cases heq : RoundTask.timeoutVote = task
        · have hevent := htimeout heq.symm s hs
          rw [hidx] at hevent
          rw [hevent] at hadded ⊢
          exact .timedOut s hs hidx hadded
        · exact .waiting s hs hidx (mem_eraseIdx_of_ne hwait htask heq)
    | timedOut s hs hidx hev => exact .timedOut s hs hidx (List.mem_append_left _ hev)

/-! ## The consensus takes a step -/

section Steps

variable [DecidableEq S]

/-- What has been seen of a peer in the tables stays, or is not needed any more. -/
theorem Covered.step {i : PeerIdx} (h : Covered byz c R i) (op : ConsensusOp D S)
    (hround : RoundInv c.db) : Covered byz (c.step op) R i := by
  have haccounts := step_accounts c op hround
  cases h with
  | faulty k hk hbyz => exact .faulty k hk hbyz
  | voted hv =>
      rcases haccounts.votes R.round with hover | hkept
      · exact .overtaken hover
      · exact .voted (hkept i hv)
  | overtaken hover =>
      obtain ⟨v, hv, hlt⟩ := hover
      exact .overtaken ⟨v, haccounts.shown v hv, hlt⟩
  | asked req hreq => exact .asked req hreq
  | answered resp hresp => exact .answered resp hresp
  | waiting s hs hidx hwait => exact .waiting s hs hidx hwait
  | timedOut s hs hidx hev => exact .timedOut s hs hidx hev

theorem RunsOn.step [CollisionFree D] (h : RunsOn c R) (op : ConsensusOp D S)
    (hround : RoundInv c.db) (hparams : ParamsInv c) : RunsOn (c.step op) R where
  scheduled := step_getConsensusParams c op hround hparams h.round_le h.scheduled
  round_le := h.round_le.trans (step_onward c op hround).cur_le
  seat := by
    rw [(step_onward c op hround).key]
    exact h.seat

theorem RunningInv.step [CollisionFree D] (h : RunningInv byz c R)
    (op : ConsensusOp D S) (hround : RoundInv c.db) (hparams : ParamsInv c) :
    RunningInv byz (c.step op) R where
  toRunsOn := h.toRunsOn.step op hround hparams
  fair := h.fair
  covered hlast i hi := (h.covered hlast i hi).step op hround

/-! ## A turn of the loop -/

/-- The dummy of a correct peer, or of the node itself, that is handled is stored. -/
theorem covered_of_dummy (hready : DummyReady c) (hinv : RunningInv byz c R)
    (hcur : c.db.getCurrentRound = R.round) (hlast : R.round < BlockRound.MAX)
    {i : PeerIdx} {sig : S}
    (hsig : SigOk R.params.peers (.header (.newDummy R.round R.params)) i sig)
    {R' : RunningRound D S} (hsame : R'.round = R.round) :
    Covered byz (c.step (.vote i (.vote ⟨.newDummy R.round R.params, sig⟩))) R' i := by
  have hscheduled := hinv.scheduled
  rw [← hcur] at hscheduled hsig hlast hsame ⊢
  rcases step_dummyTaken hready hlast hscheduled hsig with hv | hover
  · refine .voted ?_
    rwa [hsame]
  · refine .overtaken ?_
    rwa [hsame]

/-- An event is handled. If there was something to come of a peer, there still is, or it
has come. -/
theorem RunningInv.handle [CollisionFree D] [LawfulSigning D S] {l : RoundLoop D S}
    {n : ℕ} {e : TaskEvent D S} (hready : DummyReady l.consensus)
    (hvalid : ∀ k, l.consensus.ourPeerPubkey = some k → Signing.validKey D S k = true)
    (hinv : RunningInv byz l.consensus R)
    (hcur : l.consensus.db.getCurrentRound = R.round) (he : R.events[n]? = some e)
    {R' : RunningRound D S} (hR' : R' ∈ (l.handle R n e).running) :
    RunningInv byz (l.handle R n e).consensus R' := by
  obtain rfl := (Option.some.inj hR').symm
  have hstep : RunningInv byz (l.consensus.step (eventOp e)) R :=
    hinv.step (eventOp e) hready.toRoundInv hready.params
  refine ⟨⟨hstep.scheduled, hstep.round_le, hstep.seat⟩, fun e' he' => ?_,
    fun hlast i hi => ?_⟩
  · exact hinv.fair e' (List.mem_of_mem_eraseIdx he')
  · cases (hinv.covered hlast i hi).step (eventOp e) hready.toRoundInv with
    | faulty k hk hbyz => exact .faulty k hk hbyz
    | voted hv => exact .voted hv
    | overtaken hover => exact .overtaken hover
    | asked req hreq => exact .asked req (List.mem_append_left _ hreq)
    | answered resp hresp =>
        by_cases heq : .vote ⟨i, resp⟩ = e
        · obtain rfl := heq
          by_cases hd : resp.block.inner.isDummy = true
          · obtain ⟨k, hk⟩ : ∃ k, R.params.peers.items[i]? = some k :=
              ⟨_, List.getElem?_eq_getElem hi⟩
            cases hbyz : byz k with
            | true => exact .faulty k hk hbyz
            | false =>
                have hfair : Answers R.round R.params i false resp :=
                  hinv.fair _ (List.mem_of_getElem? he) k hk hbyz
                obtain ⟨hresp, hsig⟩ := hfair.own hd
                show Covered byz (l.consensus.step (.vote i resp)) _ i
                rw [hresp]
                exact covered_of_dummy hready hinv hcur hlast hsig rfl
          · refine .asked ⟨R.round, true⟩ (List.mem_append_right _ ?_)
            rw [respawn, if_neg hd]
            exact List.mem_singleton_self _
        · exact .answered resp (mem_eraseIdx_of_ne hresp he heq)
    | waiting s hs hidx hwait => exact .waiting s hs hidx (List.mem_append_left _ hwait)
    | timedOut s hs hidx hev =>
        by_cases heq : .voteSelf ⟨i, .vote (signWith s.key
            (.newDummy R.round R.params))⟩ = e
        · obtain rfl := heq
          obtain ⟨_, _, hkey, hfind⟩ := hinv.seat_spec hs
          rw [hidx] at hfind
          exact covered_of_dummy hready hinv hcur hlast
            ⟨s.key, ConsensusParams.findPeerIdx_getElem? hfind, hvalid _ hkey,
              LawfulSigning.verify_sign _ _⟩ rfl
        · exact .timedOut s hs hidx (mem_eraseIdx_of_ne hev he heq)

/-! ## One op -/

omit [DecidableEq S] in
/-- The consensus takes a step while the tasks are at work. -/
theorem LoopInv.consensus [DecidableEq S] [CollisionFree D] {l : RoundLoop D S}
    (h : LoopInv byz l) (op : ConsensusOp D S)
    (hg : BelowLast l.consensus op ∧ ChangesFresh l.consensus op) :
    LoopInv byz { l with consensus := l.consensus.step op } where
  ready := step_dummyReady l.consensus op h.ready hg
  valid k hk := by
    rw [(step_onward l.consensus op h.ready.toRoundInv).key] at hk
    exact h.valid k hk
  running R hR := (h.running R hR).step op h.ready.toRoundInv h.ready.params

omit [Hashing D] [Signing D S] [DecidableEq S] in
theorem mem_current {l : RoundLoop D S} :
    R ∈ l.current ↔ l.running = some R ∧ l.consensus.currentRoundWithTimeout.1 = R.round := by
  unfold current
  rw [Option.mem_def, Option.filter_eq_some_iff, decide_eq_true_iff]

omit [DecidableEq S] in
/-- A task of the node itself is through. -/
theorem finishOwn_runningInv {n : ℕ} {task : RoundTask} {s : Seat D}
    {payload : BlockPayloadRaw} {now : Timestamp} {e : RoundEvent D S}
    (h : RunningInv byz c R) (htask : R.tasks[n]? = some task) (hs : R.seat = some s)
    (hev : RunningRound.ownEvent c s payload now task = .ok (some e)) :
    RunningInv byz c (R.finish n (.voteSelf e)) := by
  refine h.finish htask nofun ?_ ?_
  · rintro i req rfl
    cases hev
  · rintro rfl s' hs'
    obtain rfl : s = s' := Option.some.inj (hs.symm.trans hs')
    obtain ⟨hround, hparams, _⟩ := h.seat_spec hs
    rw [← hround, ← hparams]
    cases hev
    rfl

theorem step_loopInv [CollisionFree D] [LawfulSigning D S] (l : RoundLoop D S)
    (op : RoundLoopOp D S) (h : LoopInv byz l) (hg : Fair byz l op) :
    LoopInv byz (l.step op) := by
  cases op with
  | startRound =>
      unfold step
      dsimp only
      split
      · next R hrun hR =>
          refine ⟨h.ready, h.valid, fun R' hR' => ?_⟩
          cases hR'
          exact start_runningInv hR
      · exact h
  | finishOwn n payload now =>
      unfold step
      dsimp only
      split
      · next R hrun =>
          split
          · next task s htask hs =>
              split
              · next e hev =>
                  refine ⟨h.ready, h.valid, fun R' hR' => ?_⟩
                  cases hR'
                  exact finishOwn_runningInv (h.running R hrun) htask hs hev
              · exact h
          · exact h
      · exact h
  | finishVote n resp =>
      unfold step
      dsimp only
      split
      · next R hrun =>
          split
          · next i req htask =>
              refine ⟨h.ready, h.valid, fun R' hR' => ?_⟩
              cases hR'
              refine (h.running R hrun).finish htask ?_ ?_ nofun
              · rintro e ⟨⟩ k hk hbyz
                have hfair : FairAnswer byz R resp (.requestVote i req) :=
                  hg R hrun _ htask
                exact ⟨nofun, (hfair k hk hbyz).own⟩
              · rintro i' req' ⟨⟩
                exact ⟨resp, rfl⟩
          · exact h
      · exact h
  | finishNotarized n resp =>
      unfold step
      dsimp only
      split
      · next R hrun =>
          split
          · next i req htask =>
              refine ⟨h.ready, h.valid, fun R' hR' => ?_⟩
              cases hR'
              exact (h.running R hrun).finish htask nofun nofun nofun
          · exact h
      · exact h
  | joinNext n =>
      unfold step
      dsimp only
      split
      · next R hcurrent =>
          obtain ⟨hrun, hcur⟩ := mem_current.mp hcurrent
          split
          · next e he =>
              have hgood : BelowLast l.consensus (eventOp e) := hg R hcurrent e he
              have hfresh : ChangesFresh l.consensus (eventOp e) := by
                cases e <;> exact trivial
              obtain ⟨hready, hvalid, _⟩ := h.consensus (eventOp e) ⟨hgood, hfresh⟩
              rw [h.ready.params.channel] at hcur
              exact ⟨hready, hvalid, fun R' hR' =>
                (h.running R hrun).handle h.ready h.valid hcur he hR'⟩
          · exact h
      · exact ⟨h.ready, h.valid, nofun⟩
  | recvFinality k resp =>
      unfold step
      dsimp only
      split
      · exact h
      · exact h.consensus _ ⟨trivial, trivial⟩
  | paramsChange round timestamp peers => exact h.consensus _ ⟨trivial, hg⟩
  | restart =>
      obtain ⟨hready, hvalid, _⟩ := h.consensus .reopen ⟨trivial, trivial⟩
      exact ⟨hready, hvalid, nofun⟩

omit [DecidableEq S] in
theorem init_loopInv {params : ConsensusParams D} {key : Option PeerPubkey}
    (hinit : Consensus.init params Db.empty key none = .ok c)
    (hvalid : ∀ k ∈ key, Signing.validKey D S k = true) : LoopInv byz ⟨c, none⟩ where
  ready := init_dummyReady hinit
  valid k hk := hvalid k (by rwa [init_key hinit] at hk)
  running := nofun

/-! ## The loop waits for something -/

omit [Hashing D] [Signing D S] [DecidableEq S] in
/-- If all peers that are not faulty have given up, there are enough dummy votes. -/
theorem threshold_le_dummies {db : Db D S} {r : BlockRound} {peers : PeerSet}
    (hlen : peers.len ≤ 255)
    (hfaulty : peers.items.countP byz ≤ (NumPeers.mk peers.len).maxFaulty)
    (hvoted : ∀ i < peers.len, (∃ k, peers.items[i]? = some k ∧ byz k = true) ∨
      (db.getVoteDummy r i).isSome = true) :
    (NumPeers.mk peers.len).threshold ≤ db.getNumVotesDummy r := by
  have hsplit := Finset.card_filter_add_card_filter_not (s := Finset.range peers.len)
    fun i => peers.items[i]?.any byz = true
  rw [show peers.len = peers.items.length from rfl, Quorum.card_positions byz peers.items,
    Finset.card_range] at hsplit
  have hsub : ((Finset.range peers.len).filter
      fun i => ¬ peers.items[i]?.any byz = true) ⊆
        ((votesAt db.consVotesDummy r).map Prod.fst).toFinset := by
    intro i hi
    obtain ⟨hrange, hcorrect⟩ := Finset.mem_filter.mp hi
    have hlt := Finset.mem_range.mp hrange
    rcases hvoted i hlt with ⟨k, hk, hbyz⟩ | hv
    · rw [hk] at hcorrect
      exact absurd hbyz hcorrect
    · obtain ⟨sig, hsig⟩ := Option.isSome_iff_exists.mp hv
      exact List.mem_toFinset.mpr (List.mem_map.mpr
        ⟨(i, sig), mem_votesAt.mpr ⟨hsig, hlt.le.trans hlen⟩, rfl⟩)
  have hcard := Finset.card_le_card hsub
  rw [List.toFinset_card_of_nodup (votesAt_nodup _ _), List.length_map] at hcard
  unfold NumPeers.threshold Db.getNumVotesDummy
  have htotal : (NumPeers.mk peers.len).total = peers.items.length := rfl
  lia

omit [DecidableEq S] in
/-- Were all tasks through, the peers that are not faulty would have given up. -/
theorem LoopInv.tasks_left {l : RoundLoop D S} (h : LoopInv byz l) (hR : R ∈ l.current)
    (hlast : R.round < BlockRound.MAX)
    (hfaulty : R.params.peers.items.countP byz ≤
      (NumPeers.mk R.params.peers.len).maxFaulty)
    (hbehind : ∀ v ∈ l.consensus.trace.finalityConsensus, v ≤ R.round) :
    R.tasks ≠ [] ∨ R.events ≠ [] := by
  by_contra hnone
  push Not at hnone
  obtain ⟨htasks, hevents⟩ := hnone
  obtain ⟨hrun, hcur⟩ := mem_current.mp hR
  have hinv := h.running R hrun
  rw [h.ready.params.channel] at hcur
  have hvoted : ∀ i < R.params.peers.len,
      (∃ k, R.params.peers.items[i]? = some k ∧ byz k = true) ∨
        (l.consensus.db.getVoteDummy R.round i).isSome = true := by
    intro i hi
    cases hinv.covered hlast i hi with
    | faulty k hk hbyz => exact Or.inl ⟨k, hk, hbyz⟩
    | voted hv => exact Or.inr hv
    | overtaken hover =>
        obtain ⟨v, hv, hlt⟩ := hover
        exact absurd (hbehind v hv) (not_le.mpr hlt)
    | asked req hreq => exact absurd (htasks ▸ hreq) List.not_mem_nil
    | answered resp hresp => exact absurd (hevents ▸ hresp) List.not_mem_nil
    | waiting s hs hidx hwait => exact absurd (htasks ▸ hwait) List.not_mem_nil
    | timedOut s hs hidx hev => exact absurd (hevents ▸ hev) List.not_mem_nil
  obtain ⟨p, hp, hlen, _⟩ := h.ready.staffed.params R.round
  obtain ⟨q, hq, hfew⟩ := h.ready.few
  have hscheduled := hinv.scheduled
  rw [hp] at hscheduled
  cases hscheduled
  rw [hcur, hp] at hq
  cases hq
  rw [hcur] at hfew
  exact absurd (threshold_le_dummies hlen hfaulty hvoted) (not_le.mpr hfew)

/-- In every run in which the correct peers answer as they do, the loop has something to
wait for, as long as it runs a round that the finality consensus has not gone beyond and
that has no more faulty peers than it is made for. -/
theorem always_has_events [CollisionFree D] [LawfulSigning D S]
    {params : ConsensusParams D} {key : Option PeerPubkey} {ops : List (RoundLoopOp D S)}
    (hinit : Consensus.init params Db.empty key none = .ok c)
    (hvalid : ∀ k ∈ key, Signing.validKey D S k = true)
    (hops : Trail.Guarded step (Fair byz) ⟨c, none⟩ ops) :
    ∀ R ∈ (run ⟨c, none⟩ ops).current, R.round < BlockRound.MAX →
      R.params.peers.items.countP byz ≤ (NumPeers.mk R.params.peers.len).maxFaulty →
      (∀ v ∈ (run ⟨c, none⟩ ops).consensus.trace.finalityConsensus, v ≤ R.round) →
      ¬ (run ⟨c, none⟩ ops).RunsDry := by
  rintro R hR hlast hfaulty hbehind ⟨R', hR', htasks, hevents⟩
  have hinv : LoopInv byz (run ⟨c, none⟩ ops) :=
    hops.invariant (I := LoopInv byz) step_loopInv (init_loopInv hinit hvalid)
  obtain rfl : R = R' := Option.some.inj (hR.symm.trans hR')
  rcases hinv.tasks_left hR hlast hfaulty hbehind with hne | hne
  · exact hne htasks
  · exact hne hevents

end Steps

/-- The first of four peers gives up on the first round, and is told that the second one
has, too. -/
def givingUpOps : List (RoundLoopOp ListDigest PlainSig) :=
  [.startRound, .finishOwn 7 [] 0, .joinNext 0,
    .finishVote 1 (.vote (signWith 11 (.newDummy 0 (plainParams [10, 11, 12, 13])))),
    .joinNext 0]

theorem giving_up_has_events : ∃ c : Consensus ListDigest PlainSig,
    Consensus.init (plainParams [10, 11, 12, 13]) Db.empty (some 10) none = .ok c ∧
      (run ⟨c, none⟩ givingUpOps).current.isSome = true ∧
      (run ⟨c, none⟩ givingUpOps).consensus.db.getNumVotesDummy 0 = 2 ∧
      ¬ (run ⟨c, none⟩ givingUpOps).RunsDry := by
  have hrun : (Consensus.init (plainParams [10, 11, 12, 13])
      (Db.empty : Db ListDigest PlainSig) (some 10) none).Returns fun c =>
        Trail.Guarded step (Fair fun k => k == 13) ⟨c, none⟩ givingUpOps ∧
        (∀ R ∈ (run ⟨c, none⟩ givingUpOps).current, R.round < BlockRound.MAX ∧
          R.params.peers.items.countP (fun k => k == 13) ≤
            (NumPeers.mk R.params.peers.len).maxFaulty ∧
          ∀ v ∈ (run ⟨c, none⟩ givingUpOps).consensus.trace.finalityConsensus,
            v ≤ R.round) ∧
        (run ⟨c, none⟩ givingUpOps).current.isSome = true ∧
        (run ⟨c, none⟩ givingUpOps).consensus.db.getNumVotesDummy 0 = 2 := by
    decide +kernel
  obtain ⟨c, hinit, hops, hbounds, hsome, hvotes⟩ := Outcome.returns_iff.mp hrun
  obtain ⟨R, hR⟩ := Option.isSome_iff_exists.mp hsome
  obtain ⟨hlast, hfaulty, hbehind⟩ := hbounds R hR
  exact ⟨c, hinit, hsome, hvotes,
    always_has_events hinit (fun _ _ => rfl) hops R hR hlast hfaulty hbehind⟩

end RoundLoop

end Bfte
