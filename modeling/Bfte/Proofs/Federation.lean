import Bfte.App.Federation
import Bfte.Proofs.Counting
import Bfte.Proofs.Equivocation

/-!
# What a federation has signed

A correct peer casts one block a round, and its signatures are not forged. So a block
that enough peers have signed is the only one of its round. Every notarized block a
node stores is such a block: it came with its signatures, or the node counted the
votes itself, and each of those came with a signature.

`WorldInv` is what holds of a federation whatever is delivered to whom.
-/

namespace Bfte

open Consensus Node

/-! ## Quorums -/

namespace Federation

variable {D S X : Type} [LinearOrder D] {F : Federation D}

/-- Of enough peers, the correct ones have the property. -/
def Quorum (F : Federation D) (P : ℕ → Prop) [DecidablePred P] : Prop :=
  (NumPeers.mk F.params.peers.len).threshold ≤
    ((Finset.range F.params.peers.len).filter fun i => F.Correct i → P i).card

instance (F : Federation D) (P : ℕ → Prop) [DecidablePred P] :
    Decidable (F.Quorum P) := inferInstanceAs (Decidable (_ ≤ _))

section Quorums

omit [LinearOrder D]

theorem correct_iff {i : ℕ} : F.Correct i ↔
    ∃ k, F.params.peers.items[i]? = some k ∧ F.byz k = false := Iff.rfl

theorem Correct.lt {i : ℕ} (h : F.Correct i) : i < F.params.peers.len := by
  obtain ⟨k, hk, _⟩ := h
  exact (List.getElem?_eq_some_iff.mp hk).1

variable {P P' : ℕ → Prop} [DecidablePred P] [DecidablePred P']

theorem Quorum.mono (h : F.Quorum P) (himp : ∀ i, F.Correct i → P i → P' i) :
    F.Quorum P' := by
  refine h.trans (Finset.card_le_card fun i hi => ?_)
  rw [Finset.mem_filter] at hi ⊢
  exact ⟨hi.1, fun hc => himp i hc (hi.2 hc)⟩

/-- A set of enough peers. -/
theorem Quorum.of_finset {Q : Finset ℕ} (hsub : Q ⊆ Finset.range F.params.peers.len)
    (hcard : (NumPeers.mk F.params.peers.len).threshold ≤ Q.card)
    (h : ∀ i ∈ Q, F.Correct i → P i) : F.Quorum P := by
  refine hcard.trans (Finset.card_le_card fun i hi => ?_)
  exact Finset.mem_filter.mpr ⟨hsub hi, h i hi⟩

theorem card_faulty (F : Federation D) :
    ((Finset.range F.params.peers.len).filter fun i => ¬ F.Correct i).card =
      F.params.peers.items.countP F.byz := by
  rw [← Quorum.card_positions F.byz F.params.peers.items]
  refine congrArg Finset.card (Finset.filter_congr fun i hi => ?_)
  obtain ⟨k, hk⟩ : ∃ k, F.params.peers.items[i]? = some k :=
    ⟨_, List.getElem?_eq_getElem (Finset.mem_range.mp hi)⟩
  rw [correct_iff, hk]
  simp

/-- Two quorums share a correct peer. -/
theorem Quorum.common (h : F.Quorum P) (h' : F.Quorum P') :
    ∃ i, F.Correct i ∧ P i ∧ P' i := by
  have hover := NumPeers.total_add_maxFaulty_lt (n := ⟨F.params.peers.len⟩) F.manned
  have hcount : (Finset.range F.params.peers.len).card +
      ((Finset.range F.params.peers.len).filter fun i => ¬ F.Correct i).card <
        2 * (NumPeers.mk F.params.peers.len).threshold := by
    rw [Finset.card_range, card_faulty]
    exact lt_of_le_of_lt (Nat.add_le_add_left F.few _) hover
  obtain ⟨i, hi, hi', hcorrect⟩ := Quorum.exists_common_correct
    (Finset.filter_subset _ _) (Finset.filter_subset _ _) h h' hcount
  have hc : F.Correct i := not_not.mp hcorrect
  exact ⟨i, hc, (Finset.mem_filter.mp hi).2 hc, (Finset.mem_filter.mp hi').2 hc⟩

theorem Quorum.exists_correct (h : F.Quorum P) : ∃ i, F.Correct i ∧ P i := by
  obtain ⟨i, hc, hi, _⟩ := h.common h
  exact ⟨i, hc, hi⟩

end Quorums

/-- Enough peers have cast the block. -/
def Certified (F : Federation D) (w : World D S) (b : BlockHeader D) : Prop :=
  F.Quorum fun i => b ∈ (w i).node.cast

/-! ## Steps -/

variable [Hashing D] [DecidableEq S] [Signing D S]
  {decode : BlockPayloadRaw → Option (List (CItem X))}

/-- What an op of a consensus brings in was cast. -/
def Brings (F : Federation D) (w : World D S) : ConsensusOp D S → Prop
  | .vote j resp => F.Correct j →
      SigOk F.params.peers (.header resp.block.inner) j resp.block.sig →
      resp.block.inner ∈ (w j).node.cast
  | .notarized resp => ∀ e ∈ resp.block.sigs.entries, F.Correct e.1 →
      SigOk F.params.peers (.header resp.block.inner) e.1 e.2 →
      resp.block.inner ∈ (w e.1).node.cast
  | .paramsChange _ _ _ => False
  | _ => True

end Federation

open Federation

variable {D S X : Type} [LinearOrder D] [Hashing D] [DecidableEq S] [Signing D S]
  {F : Federation D} {decode : BlockPayloadRaw → Option (List (CItem X))}
  {w : World D S}

omit [DecidableEq S] [Signing D S] in
theorem Peer.nextApp_node {p p' : Peer D S} (h : p.nextApp decode = .ok p') :
    p'.node = p.node := by
  unfold Peer.nextApp at h
  split at h
  · simp only [Peer.finishBlock, Outcome.bind_eq_ok, Outcome.pure_eq_ok] at h
    obtain ⟨_, _, rfl⟩ := h
    rfl
  · next w _ _ =>
      cases w with
      | finalityConsensus reqRound =>
          cases h
          split <;> rfl
      | finalitySelfVote reqRound cur =>
          cases h
          split <;> rfl
      | nextBlock reqRound cur curSelf =>
          simp only [Peer.ackAndWaitNextBlock, Outcome.bind_eq_ok] at h
          obtain ⟨block, _, h⟩ := h
          split at h
          · simp only [Outcome.bind_eq_ok, Outcome.pure_eq_ok] at h
            obtain ⟨_, _, rfl⟩ := h
            rfl
          · cases h
            rfl
  · cases h
    rfl

theorem Peer.step_app_node (p : Peer D S) : (p.step decode .app).node = p.node := by
  unfold Peer.step
  dsimp only
  cases h : p.nextApp decode with
  | ok p' => exact Peer.nextApp_node h
  | error _ => rfl

theorem Peer.step_node (p : Peer D S) (op : NodeOp D S) :
    (p.step decode (.node op)).node = p.node.step op := by
  cases op <;> rfl

namespace World

theorem step_self (w : World D S) (a : WorldOp D S) :
    w.step decode a a.node = (w a.node).step decode a.op := Function.update_self _ _ _

theorem step_other {w : World D S} {a : WorldOp D S} {i : ℕ} (hi : i ≠ a.node) :
    w.step decode a i = w i := Function.update_of_ne hi _ _

variable (decode) in
/-- A node takes a step of its own, or none. -/
theorem step_cases (w : World D S) (a : WorldOp D S) (i : ℕ) :
    (w.step decode a i).node = (w i).node ∨
      ∃ op, a = ⟨i, .node op⟩ ∧ (w.step decode a i).node = (w i).node.step op := by
  by_cases hi : i = a.node
  · subst hi
    obtain ⟨i, op⟩ := a
    rw [step_self]
    cases op with
    | app => exact Or.inl (Peer.step_app_node _)
    | node op => exact Or.inr ⟨op, rfl, Peer.step_node _ op⟩
  · rw [step_other hi]
    exact Or.inl rfl

variable (decode) in
theorem step_cast_mono (w : World D S) (a : WorldOp D S) (i : ℕ) :
    ∀ b ∈ (w i).node.cast, b ∈ (w.step decode a i).node.cast := by
  rcases step_cases decode w a i with h | ⟨op, _, h⟩
  · rw [h]
    exact fun b hb => hb
  · rw [h]
    exact Node.step_cast_mono _ op

end World

theorem Federation.Certified.step {w : World D S} {b : BlockHeader D}
    (h : F.Certified w b) (a : WorldOp D S) : F.Certified (w.step decode a) b :=
  Quorum.mono h fun i _ => World.step_cast_mono decode w a i b

/-- What holds of a federation. -/
structure WorldInv (F : Federation D) (w : World D S) : Prop where
  counted : ∀ i, CountInv F.params (w i).db
  params : ∀ i, ParamsInv (w i).node.consensus
  manned : ∀ i, Manned (w i).db
  events : ∀ i, ∀ e ∈ (w i).node.events, EventInv (w i).node.consensus e
  key : ∀ i k, F.params.peers.items[i]? = some k →
    (w i).node.consensus.ourPeerPubkey = some k
  seat : ∀ i j k, (w i).node.consensus.ourPeerPubkey = some k →
    F.params.peers.items[j]? = some k → j = i
  once : ∀ i, F.Correct i → OnceInv (w i).node
  votes : ∀ i r j v, (w i).db.getVoteBlock r j = some v → F.Correct j →
    v.inner ∈ (w j).node.cast
  certified : ∀ i r b, (w i).db.consBlocksNotarized.get? r = some b →
    F.Certified w b

omit [Hashing D] [DecidableEq S] in
/-- A signature of a correct peer was cast. -/
theorem Federation.Unforged.cast {h : BlockHeader D} {sig : S}
    (hu : F.Unforged w h sig) {j : ℕ} (hj : F.Correct j)
    (hsig : SigOk F.params.peers (.header h) j sig) : h ∈ (w j).node.cast := by
  obtain ⟨k, hk, hcorrect⟩ := correct_iff.mp hj
  obtain ⟨k', hk', _, hver⟩ := hsig
  rw [hk] at hk'
  cases hk'
  exact hu j hj.lt k hk hcorrect hver

omit [DecidableEq S] in
/-- The seat of a node that is a peer is its own. -/
theorem WorldInv.sits (hw : WorldInv F w) {i j : ℕ} {r : BlockRound}
    (h : Sits (w i).node.consensus r j) : j = i := by
  obtain ⟨k, params, hk, hparams, hj⟩ := h
  rw [(hw.counted i).params r] at hparams
  cases hparams
  exact hw.seat i j k hk (ConsensusParams.findPeerIdx_getElem? hj)

variable (decode) in
/-- An op of a node is an op of its consensus, and what it brings in was cast by
the time it is done. -/
theorem WorldInv.step_cases (hw : WorldInv F w) {a : WorldOp D S}
    (hg : F.Genuine w a) (i : ℕ) :
    (w.step decode a i).node.consensus = (w i).node.consensus ∨ ∃ cop,
      (w.step decode a i).node.consensus = (w i).node.consensus.step cop ∧
        F.Brings (w.step decode a) cop := by
  rcases World.step_cases decode w a i with h | ⟨op, rfl, h⟩
  · rw [h]
    exact Or.inl rfl
  · have hmono := World.step_cast_mono decode w ⟨i, .node op⟩
    have hcase := step_nodeCase (w i).node op
    rw [← h] at hcase
    generalize hn : (w.step decode ⟨i, .node op⟩ i).node = n' at hcase
    cases hcase with
    | idle => exact Or.inl rfl
    | recvVote j resp =>
        refine Or.inr ⟨.vote j resp, rfl, fun hj hsig => ?_⟩
        exact hmono j _ (Unforged.cast hg hj hsig)
    | recvNotarized resp =>
        refine Or.inr ⟨.notarized resp, rfl, fun e he hj hsig => ?_⟩
        exact hmono e.1 _ (Unforged.cast (hg e he) hj hsig)
    | recvFinality k resp => exact Or.inr ⟨.finality k resp, rfl, trivial⟩
    | spawned => exact Or.inl rfl
    | delivered k e c he hok =>
        refine Or.inr ⟨.vote e.peerIdx e.resp, ?_, fun _ _ => ?_⟩
        · rw [Consensus.step, hok]
          rfl
        · rw [hw.sits (hw.events i e (List.mem_of_getElem? he)).sits, hn]
          exact List.mem_append_right _ (List.mem_singleton_self _)
    | dropped => exact Or.inl rfl
    | paramsChange => exact absurd hg id
    | restart => exact Or.inr ⟨.reopen, rfl, trivial⟩

omit [Hashing D] [DecidableEq S] in
theorem Federation.Brings.params_stay {cop : ConsensusOp D S}
    (h : F.Brings w cop) : ∀ r t s, cop ≠ .paramsChange r t s := by
  rintro r t s rfl
  exact h

omit [DecidableEq S] in
/-- A block vote that an op brings in was cast. -/
theorem Federation.Brings.newVote {c : Consensus D S} {cop : ConsensusOp D S}
    [DecidableEq S] (h : F.Brings w cop) (hc : CountInv F.params c.db)
    {r : BlockRound} {j : PeerIdx} {v : SignedVote D S}
    (hv : NewVote c r j v cop) (hj : F.Correct j) : v.inner ∈ (w j).node.cast := by
  cases hv with
  | counted resp params hr hw hround hdummy hparams hsig =>
      have hsame := hc.params_eq hparams
      rw [hsame, hw] at hsig
      rw [hw]
      exact h hj hsig
  | signed resp params hround hw hmem hdummy hparams hsig =>
      have hsame := hc.params_eq hparams
      rw [hsame, hw] at hsig
      rw [hw]
      exact h _ hmem hj hsig

omit [Hashing D] [DecidableEq S] in
/-- A block that is elected by the votes stored is certified. -/
theorem Federation.certified_of_elected {db : Db D S}
    (hfixed : Fixed F.params db)
    (hvotes : ∀ r j v, db.getVoteBlock r j = some v → F.Correct j →
      v.inner ∈ (w j).node.cast)
    {r : BlockRound} {b : BlockHeader D} (h : Elected F.params db r b) :
    F.Certified w b := by
  have hstored : ∀ j ∈ ((votesAt db.consVotesBlock r).map Prod.fst).toFinset,
      ∃ v, db.getVoteBlock r j = some v := by
    intro j hj
    obtain ⟨⟨j, v⟩, hmem, rfl⟩ := List.mem_map.mp (List.mem_toFinset.mp hj)
    exact ⟨v, (mem_votesAt.mp hmem).1⟩
  refine Quorum.of_finset (Q := ((votesAt db.consVotesBlock r).map Prod.fst).toFinset)
    (fun j hj => ?_) ?_ fun j hj hc => ?_
  · obtain ⟨v, hv⟩ := hstored j hj
    exact Finset.mem_range.mpr (hfixed.signed r j v hv).2.lt_len
  · rw [List.toFinset_card_of_nodup (votesAt_nodup _ _), List.length_map]
    exact h.enough
  · obtain ⟨v, hv⟩ := hstored j hj
    rw [← h.votes j v hv]
    exact hvotes r j v hv hc

omit [Hashing D] [DecidableEq S] in
/-- A notarization whose signatures were cast certifies its block. -/
theorem Federation.certified_of_valid {b : Notarized D S}
    (hvalid : b.Valid F.params)
    (hcast : ∀ e ∈ b.sigs.entries, F.Correct e.1 →
      SigOk F.params.peers (.header b.inner) e.1 e.2 →
        b.inner ∈ (w e.1).node.cast) : F.Certified w b.inner := by
  refine Quorum.of_finset hvalid.signers_subset hvalid.enough fun j hj hc => ?_
  obtain ⟨sig, he⟩ := Notarized.mem_signers.mp hj
  exact hcast _ he hc (hvalid.sigs _ he)

omit [DecidableEq S] in
theorem WorldInv.genuine (hw : WorldInv F w) {i : ℕ} (hi : F.Correct i)
    {op : NodeOp D S} (hg : F.Genuine w ⟨i, .node op⟩) :
    Node.Genuine (w i).node op := by
  cases op with
  | recvNotarized resp =>
      intro _ e he k hk hver
      obtain ⟨k', hk', hcorrect⟩ := correct_iff.mp hi
      rw [hw.key i k' hk'] at hk
      cases hk
      exact hg e he i hi.lt k hk' hcorrect hver
  | paramsChange => exact absurd hg id
  | _ => exact trivial

theorem step_worldInv [CollisionFree D] (w : World D S) (a : WorldOp D S)
    (hw : WorldInv F w) (hg : F.Genuine w a) : WorldInv F (w.step decode a) := by
  have hmono := World.step_cast_mono decode w a
  have hcases := hw.step_cases decode hg
  have hkey : ∀ i, (w.step decode a i).node.consensus.ourPeerPubkey =
      (w i).node.consensus.ourPeerPubkey := by
    intro i
    rcases hcases i with h | ⟨cop, h, _⟩
    · rw [h]
    · rw [h]
      exact (step_onward _ cop (hw.counted i).toRoundInv).key
  have hcounted : ∀ i, CountInv F.params (w.step decode a i).db := by
    intro i
    rcases hcases i with h | ⟨cop, h, hb⟩
    · rw [Peer.db, h]
      exact hw.counted i
    · rw [Peer.db, h]
      exact (step_counted _ cop hb.params_stay (hw.counted i)).1
  have hvotes : ∀ i r j v, (w.step decode a i).db.getVoteBlock r j = some v →
      F.Correct j → v.inner ∈ (w.step decode a j).node.cast := by
    intro i r j v hv hj
    rcases hcases i with h | ⟨cop, h, hb⟩
    · rw [Peer.db, h] at hv
      exact hmono j _ (hw.votes i r j v hv hj)
    · rw [Peer.db, h] at hv
      rcases step_voteBlock_cases _ cop (hw.counted i).toRoundInv hv with hold | hnew
      · exact hmono j _ (hw.votes i r j v hold hj)
      · exact hb.newVote (hw.counted i) hnew hj
  refine ⟨hcounted, fun i => ?_, fun i => ?_, fun i => ?_, fun i k hk => ?_,
    fun i j k hk => ?_, fun i hi => ?_, hvotes, fun i r b hb => ?_⟩
  · rcases hcases i with h | ⟨cop, h, _⟩
    · rw [h]
      exact hw.params i
    · rw [h]
      exact step_paramsInv _ cop (hw.counted i).toRoundInv (hw.params i)
  · rcases hcases i with h | ⟨cop, h, hb⟩
    · rw [Peer.db, h]
      exact hw.manned i
    · rw [Peer.db, h]
      exact (step_moved _ cop (hw.counted i).toRoundInv (hw.manned i)
        hb.params_stay).manned
  · rcases World.step_cases decode w a i with h | ⟨op, _, h⟩
    · rw [h]
      exact hw.events i
    · rw [h]
      exact step_eventInv _ op (hw.counted i).toRoundInv (hw.params i) (hw.events i)
  · rw [hkey]
    exact hw.key i k hk
  · rw [hkey] at hk
    exact hw.seat i j k hk
  · rcases World.step_cases decode w a i with h | ⟨op, rfl, h⟩
    · rw [h]
      exact hw.once i hi
    · rw [h]
      exact step_onceInv _ op (hw.once i hi) (hw.genuine hi hg)
  · rcases hcases i with h | ⟨cop, h, hbr⟩
    · rw [Peer.db, h] at hb
      exact (hw.certified i r b hb).step a
    · rw [Peer.db, h] at hb
      have hn := (step_counted _ cop hbr.params_stay (hw.counted i)).2 r b hb
      cases hn with
      | kept _ hold => exact (hw.certified i r b hold).step a
      | elected _ hel =>
          rw [← h] at hel
          exact certified_of_elected (hcounted i).toFixed (hvotes i) hel
      | received resp _ hb' _ hver _ =>
          rw [hb']
          exact certified_of_valid hver.valid hbr

/-! ## Runs -/

omit [DecidableEq S] [Signing D S] in
theorem init_key {params : ConsensusParams D} {key : Option PeerPubkey}
    {pinned : Option (BlockRound × D)} {c : Consensus D S}
    (h : init params Db.empty key pinned = .ok c) : c.ourPeerPubkey = key := by
  obtain ⟨fs, c₁, hf, _, hdb, hcheck⟩ := init_checked h
  obtain ⟨v, hv⟩ := checkRoundEnd_closed hdb hcheck
  rw [hv.ended.key, hf.key]
  rfl

omit [DecidableEq S] [Signing D S] in
theorem Federation.Started.of_init (h : F.Started w) (i : ℕ) : ∃ key pinned c,
    init F.params Db.empty key pinned = .ok c ∧ w i = .start c := by
  cases hi : F.params.peers.items[i]? with
  | some k =>
      obtain ⟨pinned, c, hc, hwi⟩ := h.peer i k hi
      exact ⟨_, pinned, c, hc, hwi⟩
  | none =>
      obtain ⟨key, pinned, c, _, hc, hwi⟩ := h.follower i hi
      exact ⟨key, pinned, c, hc, hwi⟩

omit [DecidableEq S] in
theorem started_worldInv (h : F.Started w) : WorldInv F w := by
  have hstart := h.of_init
  refine ⟨fun i => ?_, fun i => ?_, fun i => ?_, fun i e he => ?_, fun i k hk => ?_,
    fun i j k hkey hk => ?_, fun i _ => ?_, fun i r j v hv => ?_, fun i r b hb => ?_⟩
  · obtain ⟨_, _, c, hc, hwi⟩ := hstart i
    rw [hwi]
    exact init_countInv hc
  · obtain ⟨_, _, c, hc, hwi⟩ := hstart i
    rw [hwi]
    exact init_paramsInv hc
  · obtain ⟨_, _, c, hc, hwi⟩ := hstart i
    rw [hwi]
    exact init_manned hc
  · obtain ⟨_, _, c, _, hwi⟩ := hstart i
    rw [hwi] at he
    cases he
  · obtain ⟨_, c, hc, hwi⟩ := h.peer i k hk
    rw [hwi]
    exact init_key hc
  · cases hi : F.params.peers.items[i]? with
    | some k' =>
        obtain ⟨_, c, hc, hwi⟩ := h.peer i k' hi
        rw [hwi] at hkey
        have hsame : k' = k := Option.some.inj ((init_key hc).symm.trans hkey)
        rw [hsame] at hi
        have hlt := (List.getElem?_eq_some_iff.mp hk).1
        exact (List.getElem?_inj hlt F.distinct).mp (hk.trans hi.symm)
    | none =>
        obtain ⟨key, _, c, hout, hc, hwi⟩ := h.follower i hi
        rw [hwi] at hkey
        have hsame : key = some k := (init_key hc).symm.trans hkey
        exact absurd (List.mem_of_getElem? hk) (hout k hsame)
  · obtain ⟨_, _, c, hc, hwi⟩ := hstart i
    rw [hwi]
    exact init_onceInv hc
  · obtain ⟨_, _, c, hc, hwi⟩ := hstart i
    rw [hwi] at hv
    have hnone := (init_votes hc r j).1
    rw [show (Peer.start c).db.getVoteBlock r j = none from hnone] at hv
    cases hv
  · obtain ⟨_, _, c, hc, hwi⟩ := hstart i
    rw [hwi] at hb
    obtain ⟨c₁, v, hsame, hv⟩ := init_closed hc
    rcases hv.notarized_cases hb with hold | ⟨_, _, hp, _⟩
    · rw [hsame.notarized] at hold
      cases hold
    · rw [hsame.proposals] at hp
      cases hp

theorem reachable_worldInv [CollisionFree D] (h : F.Reachable decode w) :
    WorldInv F w := by
  obtain ⟨w₀, ops, hstart, hops, rfl⟩ := h
  exact hops.invariant (I := WorldInv F) step_worldInv (started_worldInv hstart)

/-! ## One block a round -/

omit [DecidableEq S] in
/-- A certified block was cast by a correct peer, which stored it as a proposal. -/
theorem Federation.Certified.proposed (hw : WorldInv F w) {b : BlockHeader D}
    (h : F.Certified w b) (hdummy : b.isDummy = false) : ∃ i, F.Correct i ∧
      b ∈ (w i).node.cast ∧
        (w i).db.consBlocksProposals.get? b.round = some b := by
  obtain ⟨i, hc, hi⟩ := Quorum.exists_correct h
  exact ⟨i, hc, hi, (hw.once i hc).cast b hi hdummy⟩

omit [DecidableEq S] in
/-- Certified blocks of one round are one block. -/
theorem Federation.Certified.unique (hw : WorldInv F w) {b b' : BlockHeader D}
    (h : F.Certified w b) (h' : F.Certified w b') (hround : b.round = b'.round)
    (hdummy : b.isDummy = false) (hdummy' : b'.isDummy = false) : b = b' := by
  obtain ⟨i, hc, hi, hi'⟩ := Quorum.common h h'
  have hstored := (hw.once i hc).cast b hi hdummy
  have hstored' := (hw.once i hc).cast b' hi' hdummy'
  rw [hround, hstored'] at hstored
  exact (Option.some.inj hstored).symm

/-! ## Four peers -/

/-- A federation of four, one of which need not be correct. -/
def quadFederation (liar : PeerPubkey) : Federation ListDigest where
  params := plainParams quadKeys
  byz k := decide (k = liar)
  distinct := by decide
  manned := by decide
  few := by
    have hnodup : quadKeys.Nodup := by decide
    have hle : quadKeys.countP (fun k => decide (k = liar)) ≤ 1 := by
      refine le_trans (le_of_eq ?_) (List.nodup_iff_count_le_one.mp hnodup liar)
      exact List.countP_congr fun k _ => by simp
    exact hle

/-- The nodes of a federation that has just been started. -/
def plainWorld (F : Federation ListDigest) : World ListDigest PlainSig := fun i =>
  match init F.params (Db.empty : Db ListDigest PlainSig)
    F.params.peers.items[i]? none with
  | .ok c => .start c
  | .error _ => .start (fresh Db.empty none Trace.empty 0)

theorem plainWorld_started {F : Federation ListDigest}
    (h : ∀ key ∈ none :: F.params.peers.items.map some,
      (init F.params (Db.empty : Db ListDigest PlainSig) key none).Returns
        fun _ => True) : F.Started (plainWorld F) := by
  refine ⟨fun i k hk => ?_, fun i hi => ?_⟩
  · obtain ⟨c, hc, _⟩ := Outcome.returns_iff.mp (h (some k)
      (List.mem_cons_of_mem _ (List.mem_map_of_mem (List.mem_of_getElem? hk))))
    refine ⟨none, c, hc, ?_⟩
    unfold plainWorld
    rw [hk, hc]
  · obtain ⟨c, hc, _⟩ := Outcome.returns_iff.mp (h none List.mem_cons_self)
    refine ⟨none, none, c, ?_, hc, ?_⟩
    · intro k hk
      cases hk
    · unfold plainWorld
      rw [hi, hc]

theorem quadWorld_started (liar : PeerPubkey) :
    (quadFederation liar).Started (plainWorld (quadFederation liar)) := by
  have h : ∀ key ∈ none :: quadKeys.map some, (init (plainParams quadKeys)
      (Db.empty : Db ListDigest PlainSig) key none).Returns fun _ => True := by
    decide +kernel
  exact plainWorld_started h

/-- Decodes the payload with no items in it, and no other. -/
def plainDecode (payload : BlockPayloadRaw) : Option (List (CItem Unit)) :=
  if payload = [0] then some [] else none

/-- One of the four runs a task, and the event is delivered. -/
def quadTask (i : ℕ) (task : NodeOp ListDigest PlainSig) :
    List (WorldOp ListDigest PlainSig) :=
  [⟨i, .node task⟩, ⟨i, .node (.deliver 0)⟩]

/-- A vote of the peer `j` reaches `i`. -/
def quadVote (i j : ℕ) (h : BlockHeader ListDigest) : WorldOp ListDigest PlainSig :=
  ⟨i, .node (.recvVote j (.vote (signedBy (quadKeys.getD j 0) h)))⟩

/-- A proposal of the peer `j` reaches `i`. -/
def quadPropose (i j : ℕ) (h : BlockHeader ListDigest) (payload : BlockPayloadRaw) :
    WorldOp ListDigest PlainSig :=
  ⟨i, .node (.recvVote j (.proposal (signedBy (quadKeys.getD j 0) h) payload))⟩

end Bfte
