import Bfte.Proofs.Equivocation
import Bfte.Proofs.RoundReach

/-!
# What a peer has seen when it votes

A peer votes for a block that extends its latest notarized block. If no block comes
in late, that is how it stays: nothing gets between the parent and the block any
more, and whatever replaces the parent is later than it. So of two blocks a peer has
voted for, the parent of the later one is the earlier block, or its parent, or comes
after the earlier block.

Late is a block of a round before one the peer has voted in, and a block of a round
that was left while the proposal of the current one is stored already.
-/

namespace Bfte

namespace Consensus

variable {D S : Type} [LinearOrder D] [Hashing D]

/-- Nothing is notarized between the parent and the block, and the parent, or
something later, is. -/
structure Borders (db : Db D S) (b : BlockHeader D)
    (parent : Option (BlockHeader D)) : Prop where
  gap : ∀ r e, db.consBlocksNotarized.get? r = some e → r < b.round →
    ∃ p ∈ parent, r ≤ p.round
  reached : ∀ p ∈ parent, ∃ r e, db.consBlocksNotarized.get? r = some e ∧ p.round ≤ r

/-- The parent of a block voted for after `b`: not before that of `b`, and not
between that and `b`. -/
structure Follows (b : BlockHeader D) (parent parent' : Option (BlockHeader D)) :
    Prop where
  later : ∀ p ∈ parent, ∃ p' ∈ parent', p.round ≤ p'.round
  gap : ∀ p' ∈ parent', p'.round < b.round → ∃ p ∈ parent, p'.round ≤ p.round

omit [Hashing D] in
theorem Borders.mono {db db' : Db D S} {b : BlockHeader D}
    {parent : Option (BlockHeader D)} (h : Borders db b parent)
    (hnew : ∀ r e, db'.consBlocksNotarized.get? r = some e →
      db.consBlocksNotarized.get? r = some e ∨ b.round ≤ r)
    (hkept : ∀ r e, db.consBlocksNotarized.get? r = some e →
      ∃ r' e', db'.consBlocksNotarized.get? r' = some e' ∧ r ≤ r') :
    Borders db' b parent where
  gap r e he hlt := by
    rcases hnew r e he with hold | hle
    · exact h.gap r e hold hlt
    · exact absurd hlt (not_lt.mpr hle)
  reached p hp := by
    obtain ⟨r, e, he, hle⟩ := h.reached p hp
    obtain ⟨r', e', he', hle'⟩ := hkept r e he
    exact ⟨r', e', he', hle.trans hle'⟩

/-- The latest notarized block borders on a block to come. -/
theorem BoundedInv.borders {db : Db D S} (h : BoundedInv db) (b : BlockHeader D) :
    Borders db b (db.getPrevNotarizedBlock db.getCurrentRound) where
  gap _ _ he _ := h.le_latest he
  reached p hp := ⟨p.round, p,
    h.prev_mem hp, le_rfl⟩

/-- A parent that borders on a block is not after the parent of one of the current round. -/
theorem Borders.follows {db : Db D S} {b : BlockHeader D}
    {parent : Option (BlockHeader D)} (h : Borders db b parent)
    (hinv : BoundedInv db) :
    Follows b parent (db.getPrevNotarizedBlock db.getCurrentRound) where
  later p hp := by
    obtain ⟨r, e, he, hle⟩ := h.reached p hp
    obtain ⟨latest, hlatest, hle'⟩ := hinv.le_latest he
    exact ⟨latest, hlatest, hle.trans hle'⟩
  gap p' hp' hlt := by
    have hget := hinv.prev_mem hp'
    exact h.gap _ _ hget hlt

variable [DecidableEq S] [Signing D S]

omit [DecidableEq S] in
/-- A vote that was counted is for a block that extends the latest notarized
block, if it is for the proposal stored. -/
theorem processVoteResponseTx_extends [DecidableEq S] {c c' : Consensus D S}
    {i : PeerIdx} {resp : WaitVoteResponse D S} (hinv : ChainInv c.db)
    (h : c.processVoteResponseTx i resp = .ok c')
    (hstored : c'.db.consBlocksProposals.get? resp.block.inner.round =
      some resp.block.inner) :
    resp.block.inner.round = c.db.getCurrentRound ∧
      resp.block.inner.Extends (c.db.getPrevNotarizedBlock c.db.getCurrentRound) := by
  have hround := processVoteResponseTx_round h
  refine ⟨hround, ?_⟩
  rw [hround] at hstored
  rcases processVoteResponseTx_ok h with ⟨rfl, _⟩ | ⟨params, db, _, hin, hcounted⟩
  · exact hinv.continues _ hstored
  · have hchain := hin.chainInv hinv
    have hprop : db.consBlocksProposals.get? db.getCurrentRound =
        some resp.block.inner := by
      rw [hin.curRound]
      rcases hcounted with ⟨_, rfl⟩ | ⟨_, hcheck⟩
      · exact hstored
      · rw [← hin.curRound] at hcheck
        obtain ⟨v, hv⟩ := checkRoundEnd_closed hchain.toBlockInv hcheck
        rw [hv.proposals_eq] at hstored
        exact hstored
    have hext := hchain.continues _ hprop
    unfold Db.getPrevNotarizedBlock at hext ⊢
    rw [hin.notarized_eq, hin.curRound] at hext
    exact hext

end Consensus

namespace Node

open Consensus

variable {D S : Type} [LinearOrder D] [Hashing D] [DecidableEq S] [Signing D S]

/-- A notarized block comes in time for what the peer is voting for and has voted
for. -/
def Prompt (n : Node D S) (b : BlockHeader D) : Prop :=
  InTime n.consensus.db b ∧ ∀ h ∈ n.cast, h.isDummy = false → h.round ≤ b.round

instance (n : Node D S) (b : BlockHeader D) : Decidable (Prompt n b) :=
  inferInstanceAs (Decidable (_ ∧ ∀ h ∈ _, _))

/-- Blocks that are taken come in time. -/
def TakesPrompt (n : Node D S) : NodeOp D S → Prop
  | .recvNotarized resp => resp.block.inner.isDummy = false →
      checkNotarized n.consensus.db resp = .ok () →
      Takes n.consensus.db resp.block.inner → Prompt n resp.block.inner
  | _ => True

instance (n : Node D S) (op : NodeOp D S) : Decidable (TakesPrompt n op) :=
  match op with
  | .recvNotarized _ => inferInstanceAs (Decidable (_ → _))
  | .recvVote _ _ => .isTrue trivial
  | .recvFinality _ _ => .isTrue trivial
  | .proposalTask _ _ => .isTrue trivial
  | .voteTask => .isTrue trivial
  | .timeoutTask => .isTrue trivial
  | .deliver _ => .isTrue trivial
  | .paramsChange _ _ _ => .isTrue trivial
  | .restart => .isTrue trivial

/-- The parent of what a peer has voted for goes on to border on it, and each vote follows
those before. -/
structure VoterInv (n : Node D S) : Prop where
  chain : ChainInv n.consensus.db
  borders : ∀ b ∈ n.cast, b.isDummy = false →
    ∃ parent, b.Extends parent ∧ Borders n.consensus.db b parent
  follows : ∀ b ∈ n.cast, ∀ b' ∈ n.cast, b.isDummy = false → b'.isDummy = false →
    b.round < b'.round → ∃ parent parent', b.Extends parent ∧ b'.Extends parent' ∧
      Follows b parent parent'

/-- The consensus of the node took a step, and nothing was cast. -/
theorem VoterInv.advance {n n' : Node D S} (h : VoterInv n) (honce : OnceInv n)
    (op : ConsensusOp D S) (hcons : n'.consensus = n.consensus.step op)
    (hcast : n'.cast = n.cast) (hlate : Consensus.NoLateBlock n.consensus op)
    (hprompt : ∀ resp, op = .notarized resp → resp.block.inner.isDummy = false →
      checkNotarized n.consensus.db resp = .ok () →
      Takes n.consensus.db resp.block.inner →
      ∀ b ∈ n.cast, b.isDummy = false → b.round ≤ resp.block.inner.round) :
    VoterInv n' := by
  have hround := h.chain.toRoundInv
  refine ⟨?_, ?_, ?_⟩
  · rw [hcons]
    exact step_chainInv _ op h.chain hlate
  · rw [hcast]
    intro b hb hdummy
    obtain ⟨parent, hext, hborders⟩ := h.borders b hb hdummy
    refine ⟨parent, hext, hborders.mono (fun r e he => ?_) fun r e he => ?_⟩
    · rw [hcons] at he
      rcases step_notarized_cases _ op hround he with hold | hcur |
        ⟨resp, hop, hr, hd, hok, htakes⟩
      · exact Or.inl hold
      · rw [hcur]
        exact Or.inr (hround.proposal _ _ (honce.cast b hb hdummy)).2.2
      · rw [hr]
        exact Or.inr (hprompt resp hop hd hok htakes b hb hdummy)
    · rw [hcons]
      exact step_notarized_le _ op hround he
  · rw [hcast]
    exact h.follows

/-- The peer casts a vote. -/
theorem VoterInv.deliver {n : Node D S} (h : VoterInv n) (honce : OnceInv n)
    {e : RoundEvent D S} {k : ℕ} {c : Consensus D S}
    (he : EventInv n.consensus e)
    (hok : n.consensus.processVoteResponseTx e.peerIdx e.resp = .ok c) :
    VoterInv ⟨c, n.events.eraseIdx k, n.cast ++ [e.resp.block.inner]⟩ := by
  have hround := h.chain.toRoundInv
  have hstep : n.consensus.step (.vote e.peerIdx e.resp) = c := by
    rw [Consensus.step, hok]
    rfl
  have hold : VoterInv ⟨c, n.events.eraseIdx k, n.cast⟩ :=
    h.advance honce (.vote e.peerIdx e.resp) hstep.symm rfl trivial
      fun _ heq => by cases heq
  have hnew : e.resp.block.inner.isDummy = false →
      e.resp.block.inner.round = n.consensus.db.getCurrentRound ∧
        e.resp.block.inner.Extends (n.consensus.db.getPrevNotarizedBlock
          n.consensus.db.getCurrentRound) := fun hdummy =>
    processVoteResponseTx_extends h.chain hok (delivered_stored hround he hok hdummy)
  refine ⟨hold.chain, fun b hb hdummy => ?_, fun b hb b' hb' hdummy hdummy' hlt => ?_⟩
  · rcases List.mem_append.mp hb with hb | hb
    · exact hold.borders b hb hdummy
    · obtain rfl := List.mem_singleton.mp hb
      obtain ⟨hcur, hext⟩ := hnew hdummy
      refine ⟨_, hext, (h.chain.toBoundedInv.borders _).mono
        (fun r e' he' => ?_) fun r e' he' => ?_⟩
      · rw [← hstep] at he'
        rcases step_notarized_cases _ _ hround he' with hkept | hr | ⟨_, heq, _⟩
        · exact Or.inl hkept
        · exact Or.inr (hcur.trans hr.symm).le
        · cases heq
      · rw [← hstep]
        exact step_notarized_le _ _ hround he'
  · have hcur_le : ∀ b ∈ n.cast, b.isDummy = false →
        b.round ≤ n.consensus.db.getCurrentRound := fun b hb hdummy =>
      (hround.proposal _ _ (honce.cast b hb hdummy)).2.2
    rcases List.mem_append.mp hb' with hb' | hb'
    · rcases List.mem_append.mp hb with hb | hb
      · exact h.follows b hb b' hb' hdummy hdummy' hlt
      · obtain rfl := List.mem_singleton.mp hb
        have := hcur_le b' hb' hdummy'
        have := (hnew hdummy).1
        lia
    · obtain rfl := List.mem_singleton.mp hb'
      obtain ⟨hcur, hext'⟩ := hnew hdummy'
      rcases List.mem_append.mp hb with hb | hb
      · obtain ⟨parent, hext, hborders⟩ := h.borders b hb hdummy
        exact ⟨parent, _, hext, hext', hborders.follows h.chain.toBoundedInv⟩
      · obtain rfl := List.mem_singleton.mp hb
        exact absurd hlt (lt_irrefl _)

theorem step_voterInv (n : Node D S) (op : NodeOp D S) (honce : OnceInv n)
    (h : VoterInv n) (hg : TakesPrompt n op) : VoterInv (n.step op) := by
  have hcase := step_nodeCase n op
  generalize n.step op = n' at hcase
  cases hcase with
  | idle => exact h
  | recvVote i resp =>
      exact h.advance honce (.vote i resp) rfl rfl trivial fun _ heq => by cases heq
  | recvNotarized resp =>
      refine h.advance honce (.notarized resp) rfl rfl
        (fun hd hok ht => (hg hd hok ht).1) ?_
      rintro _ ⟨⟩ hd hok ht
      exact (hg hd hok ht).2
  | recvFinality k resp =>
      exact h.advance honce (.finality k resp) rfl rfl trivial fun _ heq => by cases heq
  | spawned => exact ⟨h.chain, h.borders, h.follows⟩
  | delivered k e c he hok =>
      exact h.deliver honce (honce.events e (List.mem_of_getElem? he)) hok
  | dropped => exact ⟨h.chain, h.borders, h.follows⟩
  | paramsChange r t peers =>
      exact h.advance honce (.paramsChange r t peers) rfl rfl trivial
        fun _ heq => by cases heq
  | restart => exact h.advance honce .reopen rfl rfl trivial fun _ heq => by cases heq

omit [DecidableEq S] [Signing D S] in
theorem init_voterInv {params : ConsensusParams D} {k : Option PeerPubkey}
    {pinned : Option (BlockRound × D)} {c : Consensus D S}
    (h : init params Db.empty k pinned = .ok c) : VoterInv (start c) :=
  ⟨init_chainInv h, fun _ hb => absurd hb List.not_mem_nil,
    fun _ hb => absurd hb List.not_mem_nil⟩

end Node

end Bfte
