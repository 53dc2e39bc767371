import Bfte.Node.RunConsensus
import Bfte.Proofs.Votes

/-!
# What an op can do to a node

`NodeCase` is the inversion of `Node.step`: nothing happened, a message went to
the consensus, a task put an event into flight, or an event was delivered. What
a step of the consensus keeps is lifted to nodes through it.

The last section is about the events in flight. The database may have moved on
since a task read it, but not arbitrarily: the round of the event has been
reached, so its params are settled, and a stored proposal is never replaced.
-/

namespace Bfte

namespace Consensus

variable {D S : Type} [LinearOrder D] [Hashing D]

variable [DecidableEq S] [Signing D S]

/-- What every step leaves alone: the own key, the rounds passed, and the
proposals stored. -/
structure Onward (c c' : Consensus D S) : Prop where
  key : c'.ourPeerPubkey = c.ourPeerPubkey
  cur_le : c.db.getCurrentRound ≤ c'.db.getCurrentRound
  proposals : ∀ r p, c.db.consBlocksProposals.get? r = some p →
    c'.db.consBlocksProposals.get? r = some p

omit [DecidableEq S] [Signing D S] in
theorem Closed.onward {c c₁ c' : Consensus D S} {v : RoundEnd D S}
    (h : Closed c₁ v c') (hkey : c₁.ourPeerPubkey = c.ourPeerPubkey)
    (hcur : c₁.db.getCurrentRound = c.db.getCurrentRound)
    (hprop : ∀ r p, c.db.consBlocksProposals.get? r = some p →
      c₁.db.consBlocksProposals.get? r = some p) : Onward c c' where
  key := by rw [h.ended.key, hkey]
  cur_le := by
    rw [← hcur]
    exact h.cur_le
  proposals r p hp := by
    rw [h.proposals_eq]
    exact hprop r p hp

omit [DecidableEq S] in
theorem VoteIntake.proposals_mono {db db' : Db D S} {params : ConsensusParams D}
    {i : PeerIdx} {resp : WaitVoteResponse D S}
    (h : VoteIntake db params i resp db') {r : BlockRound} {p : BlockHeader D}
    (hp : db.consBlocksProposals.get? r = some p) :
    db'.consBlocksProposals.get? r = some p := by
  cases h with
  | dummy => exact hp
  | block => exact hp
  | proposal vote payload hround hsig hdummy hleader hfits hext hnone =>
      show (db.consBlocksProposals.insert db.getCurrentRound vote.inner).get? r =
        some p
      rw [SortedTable.get?_insert_of_ne, hp]
      rintro rfl
      rw [hnone] at hp
      cases hp

omit [DecidableEq S] in
theorem Phase.key {c c₁ : Consensus D S} {op : ConsensusOp D S}
    (h : Phase c op c₁) : c₁.ourPeerPubkey = c.ourPeerPubkey := by
  cases h with
  | same => rfl
  | vote => rfl
  | notarized => rfl
  | finality k resp c₁ hf => exact hf.key
  | paramsChange => rfl
  | reopen fs c₁ hf => exact hf.key

theorem step_onward (c : Consensus D S) (op : ConsensusOp D S)
    (hinv : RoundInv c.db) : Onward c (c.step op) := by
  obtain ⟨c₁, hphase, _, hend⟩ := step_closed c op hinv
  have hkey : c₁.ourPeerPubkey = c.ourPeerPubkey := hphase.key
  have hprop : ∀ r p, c.db.consBlocksProposals.get? r = some p →
      c₁.db.consBlocksProposals.get? r = some p := by
    intro r p hp
    rcases hphase.proposals_cases with heq | ⟨i, resp, params, _, _, hin⟩
    · rw [heq]
      exact hp
    · exact hin.proposals_mono hp
  rcases hend with ⟨hstop, _⟩ | ⟨v, hv⟩
  · rw [hstop]
    exact ⟨hkey, hphase.curRound.ge, hprop⟩
  · exact hv.onward hkey hphase.curRound hprop

end Consensus

namespace Node

open Consensus

variable {D S : Type} [LinearOrder D]

/-! ## Where the node sits -/

/-- The node has index `i` among the peers of a round. -/
def Sits (c : Consensus D S) (round : BlockRound) (i : PeerIdx) : Prop :=
  ∃ k params, c.ourPeerPubkey = some k ∧
    c.db.getConsensusParams round = (.ok params : Outcome Empty _) ∧
    params.findPeerIdx k = some i

theorem seat_eq_ok {ε : Type} {c : Consensus D S} {s : Seat D} :
    (seat c : Outcome ε _) = .ok (some s) ↔
      s.round = c.db.getCurrentRound ∧ c.ourPeerPubkey = some s.key ∧
        c.db.getConsensusParams s.round = (.ok s.params : Outcome ε _) ∧
        s.params.findPeerIdx s.key = some s.idx := by
  obtain ⟨round, params, key, idx⟩ := s
  simp only [seat, Outcome.bind_eq_ok, Outcome.pure_eq_ok,
    Option.bind_eq_some_iff, Option.map_eq_some_iff]
  constructor
  · rintro ⟨p, hp, k, hk, i, hi, heq⟩
    cases heq
    exact ⟨rfl, hk, hp, hi⟩
  · rintro ⟨hr, hk, hp, hi⟩
    cases hr
    exact ⟨params, hp, key, hk, idx, hi, rfl⟩

theorem ourPeerIdx_eq_some {c : Consensus D S} {i : PeerIdx} :
    ourPeerIdx c = some i ↔ Sits c c.db.getCurrentRound i := by
  unfold ourPeerIdx
  constructor
  · intro h
    split at h
    · next s hs =>
        cases h
        obtain ⟨hr, hk, hp, hi⟩ := seat_eq_ok.mp hs
        rw [hr] at hp
        exact ⟨s.key, s.params, hk, hp, hi⟩
    · cases h
  · rintro ⟨k, params, hk, hp, hi⟩
    rw [seat_eq_ok (s := ⟨c.db.getCurrentRound, params, k, i⟩) |>.mpr
      ⟨rfl, hk, hp, hi⟩]

theorem Sits.congr {c c' : Consensus D S} {r : BlockRound} {i : PeerIdx}
    (hkey : c'.ourPeerPubkey = c.ourPeerPubkey) (hparams : SameParams c.db c'.db)
    (h : Sits c r i) : Sits c' r i := by
  obtain ⟨k, params, hk, hp, hi⟩ := h
  refine ⟨k, params, hkey.trans hk, ?_, hi⟩
  rw [hparams.getConsensusParams]
  exact hp

theorem Sits.unique {c : Consensus D S} {r : BlockRound} {i j : PeerIdx}
    (h : Sits c r i) (h' : Sits c r j) : i = j := by
  obtain ⟨k, params, hk, hp, hi⟩ := h
  obtain ⟨k', params', hk', hp', hj⟩ := h'
  rw [hk] at hk'
  rw [hp] at hp'
  cases hk'
  cases hp'
  rw [hi] at hj
  exact Option.some.inj hj

variable [Hashing D] [Signing D S] [DecidableEq S]

/-- In a round that has been reached, the node keeps its seat. -/
theorem Sits.step [CollisionFree D] {c : Consensus D S} (op : ConsensusOp D S)
    (hround : RoundInv c.db) (hinv : ParamsInv c) {r : BlockRound} {i : PeerIdx}
    (hr : r ≤ c.db.getCurrentRound) (h : Sits c r i) : Sits (c.step op) r i := by
  obtain ⟨k, params, hk, hp, hi⟩ := h
  exact ⟨k, params, (step_onward c op hround).key.trans hk,
    step_getConsensusParams c op hround hinv hr hp, hi⟩

theorem Sits.of_step [CollisionFree D] {c : Consensus D S} (op : ConsensusOp D S)
    (hround : RoundInv c.db) (hinv : ParamsInv c) {r : BlockRound} {i : PeerIdx}
    {p : ConsensusParams D} (hr : r ≤ c.db.getCurrentRound)
    (hp : (c.db.getConsensusParams r : Outcome Empty _) = .ok p)
    (h : Sits (c.step op) r i) : Sits c r i := by
  obtain ⟨k, params, hk, hparams, hi⟩ := h
  rw [step_getConsensusParams c op hround hinv hr hp] at hparams
  cases hparams
  rw [(step_onward c op hround).key] at hk
  exact ⟨k, p, hk, hp, hi⟩

/-! ## Steps -/

/-- What a task of the node can put into flight. -/
inductive Spawned (c : Consensus D S) : RoundEvent D S → Prop
  | proposal (s : Seat D) (payload : BlockPayloadRaw) (now : Timestamp)
      (hseat : (seat c : Outcome Empty _) = .ok (some s))
      (hleader : s.params.leaderIdx s.round = (.ok s.idx : Outcome Empty _))
      (hlen : payload.length < 2 ^ 32) :
      Spawned c ⟨s.idx, .proposal (signWith s.key (.build
        (c.db.getPrevNotarizedBlock s.round) now s.round s.params payload))
          payload⟩
  | vote (s : Seat D) (p : BlockHeader D)
      (hseat : (seat c : Outcome Empty _) = .ok (some s))
      (hprop : c.db.consBlocksProposals.get? s.round = some p)
      (hround : p.round = s.round) :
      Spawned c ⟨s.idx, .vote (signWith s.key p)⟩
  | dummy (s : Seat D) (hseat : (seat c : Outcome Empty _) = .ok (some s)) :
      Spawned c ⟨s.idx, .vote (signWith s.key (.newDummy s.round s.params))⟩

/-- What an op can do to a node. -/
inductive NodeCase (n : Node D S) : NodeOp D S → Node D S → Prop
  | idle (op : NodeOp D S) : NodeCase n op n
  | recvVote (i : PeerIdx) (resp : WaitVoteResponse D S)
      (hother : ourPeerIdx n.consensus ≠ some i) :
      NodeCase n (.recvVote i resp)
        { n with consensus := n.consensus.step (.vote i resp) }
  | recvNotarized (resp : WaitNotarizedBlockResponse D S) :
      NodeCase n (.recvNotarized resp)
        { n with consensus := n.consensus.step (.notarized resp) }
  | recvFinality (k : PeerPubkey) (resp : WaitFinalityVoteResponse S)
      (hother : n.consensus.ourPeerPubkey ≠ some k) :
      NodeCase n (.recvFinality k resp)
        { n with consensus := n.consensus.step (.finality k resp) }
  | spawned (op : NodeOp D S) (e : RoundEvent D S)
      (hspawned : Spawned n.consensus e) :
      NodeCase n op { n with events := n.events ++ [e] }
  | delivered (k : ℕ) (e : RoundEvent D S) (c : Consensus D S)
      (he : n.events[k]? = some e)
      (hok : n.consensus.processVoteResponseTx e.peerIdx e.resp = .ok c) :
      NodeCase n (.deliver k)
        ⟨c, n.events.eraseIdx k, n.cast ++ [e.resp.block.inner]⟩
  | dropped (k : ℕ) :
      NodeCase n (.deliver k) { n with events := n.events.eraseIdx k }
  | paramsChange (round : BlockRound) (timestamp : Timestamp) (peers : PeerSet) :
      NodeCase n (.paramsChange round timestamp peers)
        { n with
          consensus := n.consensus.step (.paramsChange round timestamp peers) }
  | restart : NodeCase n .restart
      { n with
        consensus := n.consensus.step .reopen
        events := [] }

theorem spawn_cases {n : Node D S} (op : NodeOp D S)
    {task : Seat D → Outcome Empty (Option (RoundEvent D S))}
    (h : ∀ s e, (seat n.consensus : Outcome Empty _) = .ok (some s) →
      task s = .ok (some e) → Spawned n.consensus e) :
    NodeCase n op (n.spawn task) := by
  unfold spawn
  split
  · next e heq =>
      simp only [Outcome.bind_eq_ok] at heq
      obtain ⟨o, hs, htask⟩ := heq
      cases o with
      | none => cases htask
      | some s => exact .spawned op e (h s e hs htask)
  · exact .idle op

theorem step_nodeCase (n : Node D S) (op : NodeOp D S) :
    NodeCase n op (n.step op) := by
  cases op with
  | recvVote i resp =>
      simp only [step]
      split
      · exact .idle _
      · next h => exact .recvVote i resp h
  | recvNotarized resp => exact .recvNotarized resp
  | recvFinality k resp =>
      simp only [step]
      split
      · exact .idle _
      · next h => exact .recvFinality k resp h
  | proposalTask payload now =>
      refine spawn_cases _ fun s e hs htask => ?_
      simp only [generateProposalRoundTask, Consensus.generateProposal,
        BlockHeader.new_eq_ok, Outcome.bind_eq_ok, Outcome.pure_eq_ok] at htask
      obtain ⟨leader, hleader, block, ⟨params, hparams, hlen, rfl⟩, hres⟩ := htask
      split at hres
      · next heq =>
          cases hres
          rw [heq] at hleader
          have hsame := (seat_eq_ok.mp hs).2.2.1
          rw [hsame] at hparams
          cases hparams
          exact .proposal s payload now hs hleader hlen
      · cases hres
  | voteTask =>
      refine spawn_cases _ fun s e hs htask => ?_
      simp only [voteProposalTask, Outcome.bind_eq_ok, Outcome.pure_eq_ok,
        Db.getProposal_eq_ok] at htask
      obtain ⟨leader, _, o, ⟨rfl, hround⟩, hres⟩ := htask
      split at hres
      · cases hres
      · obtain ⟨p, hp, rfl⟩ := Option.map_eq_some_iff.mp hres
        exact .vote s p hs hp (hround p hp)
  | timeoutTask =>
      refine spawn_cases _ fun s e hs htask => ?_
      cases htask
      exact .dummy s hs
  | deliver k =>
      simp only [step]
      split
      · next e he =>
          simp only [deliver]
          split
          · next c hc => exact .delivered k e c he hc
          · exact .dropped k
      · exact .idle _
  | paramsChange round timestamp peers => exact .paramsChange round timestamp peers
  | restart => exact .restart

/-- What the consensus of a node may do in an op of the node. -/
inductive Drives : NodeOp D S → ConsensusOp D S → Prop
  | vote (op : NodeOp D S) (i : PeerIdx) (resp : WaitVoteResponse D S) :
      Drives op (.vote i resp)
  | notarized (resp : WaitNotarizedBlockResponse D S) :
      Drives (.recvNotarized resp) (.notarized resp)
  | finality (k : PeerPubkey) (resp : WaitFinalityVoteResponse S) :
      Drives (.recvFinality k resp) (.finality k resp)
  | paramsChange (round : BlockRound) (timestamp : Timestamp) (peers : PeerSet) :
      Drives (.paramsChange round timestamp peers) (.paramsChange round timestamp peers)
  | reopen : Drives .restart .reopen

/-- A node's consensus moves by one step of its own, or not at all. -/
theorem step_drives (n : Node D S) (op : NodeOp D S) :
    (n.step op).consensus = n.consensus ∨
      ∃ cop, Drives op cop ∧ (n.step op).consensus = n.consensus.step cop := by
  have hcase := step_nodeCase n op
  generalize n.step op = n' at hcase
  cases hcase with
  | idle => exact Or.inl rfl
  | recvVote i resp => exact Or.inr ⟨_, .vote _ i resp, rfl⟩
  | recvNotarized resp => exact Or.inr ⟨_, .notarized resp, rfl⟩
  | recvFinality k resp => exact Or.inr ⟨_, .finality k resp, rfl⟩
  | spawned => exact Or.inl rfl
  | delivered k e c he hok =>
      refine Or.inr ⟨_, .vote _ e.peerIdx e.resp, ?_⟩
      rw [Consensus.step, hok]
      rfl
  | dropped => exact Or.inl rfl
  | paramsChange r t peers => exact Or.inr ⟨_, .paramsChange r t peers, rfl⟩
  | restart => exact Or.inr ⟨_, .reopen, rfl⟩

theorem step_consensus (n : Node D S) (op : NodeOp D S) :
    (n.step op).consensus = n.consensus ∨
      ∃ cop, (n.step op).consensus = n.consensus.step cop :=
  (step_drives n op).imp_right fun ⟨cop, _, hcop⟩ => ⟨cop, hcop⟩

/-! ## Events in flight -/

/-- What an event in flight still knows. -/
structure EventInv (c : Consensus D S) (e : RoundEvent D S) : Prop where
  round_le : e.resp.block.inner.round ≤ c.db.getCurrentRound
  sits : Sits c e.resp.block.inner.round e.peerIdx
  vote : ∀ v, e.resp = .vote v → v.inner.isDummy = false →
    c.db.consBlocksProposals.get? v.inner.round = some v.inner

omit [Hashing D] [DecidableEq S] [Signing D S] in
theorem sits_of_seat {c : Consensus D S} {s : Seat D}
    (h : (seat c : Outcome Empty _) = .ok (some s)) : Sits c s.round s.idx := by
  obtain ⟨_, hk, hp, hi⟩ := seat_eq_ok.mp h
  exact ⟨s.key, s.params, hk, hp, hi⟩

omit [DecidableEq S] in
theorem Spawned.eventInv {c : Consensus D S} {e : RoundEvent D S}
    (h : Spawned c e) : EventInv c e := by
  cases h with
  | proposal s payload now hseat hleader =>
      refine ⟨le_of_eq (seat_eq_ok.mp hseat).1, sits_of_seat hseat, ?_⟩
      intro v hv
      cases hv
  | vote s p hseat hprop hround =>
      refine ⟨?_, ?_, ?_⟩
      · rw [← (seat_eq_ok.mp hseat).1]
        exact le_of_eq hround
      · show Sits c p.round s.idx
        rw [hround]
        exact sits_of_seat hseat
      · intro v hv _
        cases hv
        show c.db.consBlocksProposals.get? p.round = some p
        rw [hround]
        exact hprop
  | dummy s hseat =>
      refine ⟨le_of_eq (seat_eq_ok.mp hseat).1, sits_of_seat hseat, ?_⟩
      intro v hv hd
      cases hv
      exact absurd (BlockHeader.isDummy_newDummy s.round s.params) (by
        rw [show (BlockHeader.newDummy s.round s.params).isDummy = false from hd]
        simp)

theorem EventInv.step [CollisionFree D] {c : Consensus D S} {e : RoundEvent D S}
    (op : ConsensusOp D S) (hround : RoundInv c.db) (hinv : ParamsInv c)
    (h : EventInv c e) : EventInv (c.step op) e where
  round_le := h.round_le.trans (step_onward c op hround).cur_le
  sits := h.sits.step op hround hinv h.round_le
  vote v hv hd := (step_onward c op hround).proposals _ _ (h.vote v hv hd)

/-- The events of a node after an op: those in flight before, and what a task
has put there. -/
theorem step_eventInv [CollisionFree D] (n : Node D S) (op : NodeOp D S)
    (hround : RoundInv n.consensus.db) (hinv : ParamsInv n.consensus)
    (h : ∀ e ∈ n.events, EventInv n.consensus e) :
    ∀ e ∈ (n.step op).events, EventInv (n.step op).consensus e := by
  have hcase := step_nodeCase n op
  generalize n.step op = n' at hcase
  cases hcase with
  | idle => exact h
  | recvVote i resp =>
      exact fun e he => (h e he).step (.vote i resp) hround hinv
  | recvNotarized resp =>
      exact fun e he => (h e he).step (.notarized resp) hround hinv
  | recvFinality k resp =>
      exact fun e he => (h e he).step (.finality k resp) hround hinv
  | spawned _ e₀ hspawned =>
      intro e he
      rcases List.mem_append.mp he with he | he
      · exact h e he
      · rw [List.mem_singleton.mp he]
        exact hspawned.eventInv
  | delivered k e₀ c he₀ hok =>
      intro e he
      have hstep := (h e (List.mem_of_mem_eraseIdx he)).step
        (.vote e₀.peerIdx e₀.resp) hround hinv
      rw [Consensus.step, hok] at hstep
      exact hstep
  | dropped k => exact fun e he => h e (List.mem_of_mem_eraseIdx he)
  | paramsChange r t peers =>
      exact fun e he => (h e he).step (.paramsChange r t peers) hround hinv
  | restart =>
      intro e he
      cases he

end Node

end Bfte
